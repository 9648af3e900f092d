import AsyncLogStorage.ForStd.Bytes
import AsyncLogStorage.Native.ThreadPool

/-!
# The logger and the pool that backs its records up

`AsyncLogger::serialize` of `AsyncLogger.hpp` with the message of `Message.hpp`, as a
transition system over its callers and the threads of the pool `tp`.

* Only `serialize` gives tasks to the pool, and `send_backlog` always comes back, so the
  task of call `i` is task `i`.
* `wakingStep` adds the spurious wake-ups of the pool.
* The pool is there until its destructor has ended. Then its queue is destroyed, and a
  `packaged_task` that is left in it makes the future throw `std::future_error`.
* `Push` of the asynchronous worker is one step. What it does is the subject of
  `AsyncWorker`.
-/

namespace Mylog

/-- `LogLevel::value`. -/
inductive LogLevel where
  | DEBUG
  | INFO
  | WARN
  | ERROR
  | FATAL
deriving DecidableEq, Repr

/-- `LogLevel::ToString`. -/
def LogLevel.toBytes : LogLevel → Bytes
  | .DEBUG => Bytes.ofString "DEBUG"
  | .INFO => Bytes.ofString "INFO"
  | .WARN => Bytes.ofString "WARN"
  | .ERROR => Bytes.ofString "ERROR"
  | .FATAL => Bytes.ofString "FATAL"

structure LogMessage where
  level_ : LogLevel
  filename_ : Bytes
  line_ : Nat
  /-- The time, as `localtime_r` and `strftime` print it. -/
  timestamp_ : Bytes
  message_ : Bytes
  logger_name_ : Bytes
  /-- The thread id, as the stream prints it. -/
  tid_ : Bytes
deriving DecidableEq, Repr

def LogMessage.format (m : LogMessage) : Bytes :=
  let tmp1 := Bytes.ofString "[" ++ m.timestamp_ ++ Bytes.ofString "]["
  let tmp2 := Bytes.ofString "][" ++ m.level_.toBytes ++ Bytes.ofString "][" ++ m.logger_name_ ++
    Bytes.ofString "][" ++ m.filename_ ++ Bytes.ofString ":" ++
    Bytes.ofString (toString m.line_) ++ Bytes.ofString "]\t" ++ m.message_ ++
    Bytes.ofString "\n"
  tmp1 ++ m.tid_ ++ tmp2

namespace AsyncLogger

open ThreadPool (Task)

/-- Where a caller is in `serialize`. -/
inductive CallPc where
  /-- Before the section of `addTask` under `m_queueMutex`. -/
  | addTask
  /-- Before the `notify_one` of `addTask`. -/
  | notify
  /-- At `ret.get()`. -/
  | get
  /-- Before `Flush`. -/
  | flush
  | returned
  /-- An exception has left `serialize`. -/
  | threw
deriving DecidableEq, Repr

structure Call where
  logmessage : LogMessage
  pc : CallPc
deriving DecidableEq, Repr

structure State where
  /-- `tp`. -/
  pool : ThreadPool.State
  /-- The destructor of the pool has ended, and its members are destroyed. -/
  destroyed : Bool
  calls : List Call
  /-- What `asyncworker->Push` got, and from which call. -/
  pushed : List (Nat × Bytes)
deriving DecidableEq, Repr

inductive Action where
  | serialize (m : LogMessage)
  /-- The next step of a call. The worker that its `notify_one` wakes up is `sel`. -/
  | call (i sel : Nat)
  /-- The next step of a thread of the pool, or of its destructor. -/
  | worker (tid : Nat)
  | manager
  | dtor (sel : Nat)
  /-- The members of the pool are destroyed. -/
  | destroy
deriving DecidableEq, Repr

/-- What call `i` gives to the pool. -/
def backlogTask (i : Nat) : Task := ⟨i, true⟩

/-- Call `i` goes on at `pc`. -/
def State.goto (s : State) (i : Nat) (call : Call) (pc : CallPc) : State :=
  { s with calls := s.calls.set i { call with pc := pc } }

/-- A step of the pool. -/
def State.poolStep (s : State) (a : ThreadPool.Action) : Option State :=
  (ThreadPool.step s.pool a).map fun pool => { s with pool := pool }

/-- The next step of call `i`. -/
def callStep (s : State) (i : Nat) (call : Call) (sel : Nat) : Option State :=
  match call.pc with
  | .addTask =>
    if s.destroyed then none else (s.goto i call .notify).poolStep (.addTask (backlogTask i))
  | .notify => if s.destroyed then none else (s.goto i call .get).poolStep (.notifyOne sel)
  | .get =>
    if backlogTask i ∈ s.pool.completed then some (s.goto i call .flush)
    -- a `future_error` is no `runtime_error`, so the handler does not catch it
    else if s.destroyed ∧ backlogTask i ∈ s.pool.tasks then some (s.goto i call .threw)
    else none
  | .flush =>
    some { s.goto i call .returned with pushed := s.pushed ++ [(i, call.logmessage.format)] }
  | .returned => none
  | .threw => none

def step (s : State) (a : Action) : Option State :=
  -- `std::terminate` ends the process
  if s.pool.dtor = .terminated then none
  else
    match a with
    | .serialize m =>
      let pc := if m.level_ = .ERROR ∨ m.level_ = .FATAL then .addTask else .flush
      some { s with calls := s.calls ++ [⟨m, pc⟩] }
    | .call i sel => (s.calls[i]?).bind fun call => callStep s i call sel
    | .worker tid => s.poolStep (.worker tid)
    | .manager => s.poolStep .manager
    | .dtor sel => s.poolStep (.dtor sel)
    | .destroy =>
      -- nobody is inside `addTask` when the pool goes
      if s.pool.dtor = .returned ∧ s.destroyed = false ∧ s.pool.pendingNotify = 0 then
        some { s with destroyed := true }
      else
        none

/-- Nobody has called `serialize`. -/
def start (min max exitThread : Int) : State where
  pool := ThreadPool.start min max exitThread
  destroyed := false
  calls := []
  pushed := []

/-- A logger with a pool that finds `exitThread` in `m_exitThread`. -/
def system (min max exitThread : Int) : Transition State Action where
  init s := s = start min max exitThread
  step := step

/-- A step of the logger, or a worker of its pool that wakes up though nobody has notified it. -/
inductive WakingAction where
  | logger (a : Action)
  | wake (i : Nat)
deriving DecidableEq, Repr

def wakingStep (s : State) : WakingAction → Option State
  | .logger a => step s a
  | .wake i =>
    if s.pool.dtor = .terminated then none
    else (ThreadPool.wakingStep s.pool (.wake i)).map fun pool => { s with pool := pool }

/-- The logger on a machine with spurious wake-ups. -/
def wakingSystem (min max exitThread : Int) : Transition State WakingAction where
  init s := s = start min max exitThread
  step := wakingStep

end AsyncLogger

end Mylog
