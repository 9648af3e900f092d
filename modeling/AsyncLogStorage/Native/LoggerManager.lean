import AsyncLogStorage.ForStd.Bytes
import AsyncLogStorage.ForStd.Transition

/-!
# The registry of the loggers

`LoggerManager` of `Manager.hpp`, with any number of threads that call its member functions.

* A section under `mutex_` is one step. `AddLogger` has two of them, that of `LoggerExist` and
  its own, and other threads may come between the two.
* The loggers are the values of a type `P`, and `name` is `AsyncLogger::Name`.
* `loggers_` is a list in which a name stands once. Nothing depends on its order.
-/

namespace Mylog.LoggerManager

/-- A call of a member function. -/
inductive Call (P : Type) where
  | loggerExist (name : Bytes)
  | addLogger (logger : P)
  | getLogger (name : Bytes)
  | defaultLogger
deriving DecidableEq, Repr

inductive Result (P : Type) where
  | exist (found : Bool)
  | added
  /-- A pointer, `none` for a null one. -/
  | logger (ptr : Option P)
deriving DecidableEq, Repr

/-- Where a thread is. `start` is the number of events before its call. -/
inductive Pc (P : Type) where
  | idle
  | calling (c : Call P) (start : Nat)
  /-- In `AddLogger`, after `LoggerExist` has returned `false`. -/
  | inserting (logger : P) (start : Nat)
  | returning (c : Call P) (start : Nat) (r : Result P)
deriving DecidableEq, Repr

/-- What the callers see. -/
inductive Event (P : Type) where
  | call (i : Nat) (c : Call P)
  | ret (i : Nat) (c : Call P) (start : Nat) (r : Result P)
deriving DecidableEq, Repr

structure State (P : Type) where
  default_logger_ : P
  loggers_ : List (Bytes × P)
  threads : List (Pc P)
  /-- The calls and their returns so far. -/
  history : List (Event P)
deriving DecidableEq, Repr

inductive Action (P : Type) where
  | call (i : Nat) (c : Call P)
  /-- The next section under `mutex_`, or what `DefaultLogger` does. -/
  | next (i : Nat)
  | ret (i : Nat)
deriving DecidableEq, Repr

variable {P : Type}

/-- `loggers_.find`. -/
def State.find (s : State P) (name : Bytes) : Option P := s.loggers_.lookup name

/-- `loggers_.insert`, which leaves a name that is there as it is. -/
def insert (loggers_ : List (Bytes × P)) (name : Bytes) (logger : P) : List (Bytes × P) :=
  match loggers_.lookup name with
  | some _ => loggers_
  | none => (name, logger) :: loggers_

/-- The first section of a call. `DefaultLogger` has none, and only reads. -/
def State.first (name : P → Bytes) (s : State P) (c : Call P) (start : Nat) : Pc P :=
  match c with
  | .loggerExist n => .returning c start (.exist (s.find n).isSome)
  | .addLogger logger =>
    if (s.find (name logger)).isSome then .returning c start .added else .inserting logger start
  | .getLogger n => .returning c start (.logger (s.find n))
  | .defaultLogger => .returning c start (.logger (some s.default_logger_))

def step (name : P → Bytes) (s : State P) : Action P → Option (State P)
  | .call i c =>
    match s.threads[i]? with
    | some .idle =>
      some { s with
        threads := s.threads.set i (.calling c s.history.length)
        history := s.history ++ [.call i c] }
    | _ => none
  | .next i =>
    match s.threads[i]? with
    | some (.calling c start) =>
      some { s with threads := s.threads.set i (s.first name c start) }
    | some (.inserting logger start) =>
      some { s with
        loggers_ := insert s.loggers_ (name logger) logger
        threads := s.threads.set i (.returning (.addLogger logger) start .added) }
    | _ => none
  | .ret i =>
    match s.threads[i]? with
    | some (.returning c start r) =>
      some { s with
        threads := s.threads.set i .idle
        history := s.history ++ [.ret i c start r] }
    | _ => none

/-- The constructor: the default logger has the name `default`. -/
def start (default_logger_ : P) (threads : Nat) : State P where
  default_logger_ := default_logger_
  loggers_ := insert [] (Bytes.ofString "default") default_logger_
  threads := List.replicate threads .idle
  history := []

def system (name : P → Bytes) : Transition (State P) (Action P) where
  init s := ∃ default_logger_ threads, s = start default_logger_ threads
  step := step name

end Mylog.LoggerManager
