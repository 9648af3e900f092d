import AsyncLogStorage.ForStd.Transition

/-!
# The thread pool

`ThreadPool` of `ThreadPool.hpp` and `ThreadPool.cpp` as a transition system over
the callers of `addTask`, the worker threads, the manager thread and the destructor.

* Every access to a shared variable is a step of its own, and so is every lock,
  unlock, wait and notification. `addTask` is two steps: the section under
  `m_queueMutex`, then `notify_one`.
* A worker in `m_condition.wait` sleeps until it is notified, and there are no
  spurious wake-ups in `step`; `wakingStep` has them too. The test of the wait
  condition and the wait itself are two steps under the mutex. A notification that
  finds nobody asleep is lost.
* Threads are numbered in the order they are started. The pool starts to run when
  the constructor has returned.
-/

namespace ThreadPool

/-- An element of `m_tasks`. An empty `std::function` is not callable. -/
structure Task where
  id : Nat
  callable : Bool
deriving DecidableEq, Repr

/-- Where a worker thread is in `worker`. -/
inductive WorkerPc where
  /-- At `while (!m_stop.load())`. -/
  | loopHead
  /-- Before it holds `m_queueMutex`. -/
  | acquire
  /-- At `while (m_tasks.empty() && !m_stop.load())`. -/
  | testWait
  /-- The test has said to wait; `m_condition.wait` comes next. -/
  | block
  | asleep
  /-- Notified, before it holds `m_queueMutex` again. -/
  | woken
  /-- At `if (m_exitThread.load() > 0)`. -/
  | checkExit
  /-- Before `m_curThread--`. -/
  | exitCur
  /-- Before `m_idleThread--`. -/
  | exitIdle
  /-- Before `m_exitThread--`. -/
  | exitTok
  /-- Before it holds `m_idsMutex`. -/
  | exitLockIds
  /-- Before `m_ids.emplace_back(tid)`. -/
  | exitPush
  /-- Before it releases `m_idsMutex`. -/
  | exitUnlockIds
  /-- Before it releases `m_queueMutex` and ends. -/
  | exitUnlockQueue
  /-- At `if (!m_tasks.empty())`. -/
  | take
  /-- Before it releases `m_queueMutex` with what it took. -/
  | release (task : Option Task)
  /-- Before `m_idleThread--`. -/
  | runDec (task : Task)
  | running (task : Task)
  /-- Before `m_idleThread++`. -/
  | runInc
  | exited
deriving DecidableEq, Repr

/-- Where the manager thread is in `manager`. -/
inductive ManagerPc where
  /-- At `while (!m_stop.load())`. -/
  | loopHead
  /-- In the sleep of one second. -/
  | sleeping
  | loadIdle
  | loadCur (idel : Int)
  | branch (idel cur : Int)
  /-- Before `m_exitThread.store(2)`. -/
  | storeExit
  /-- Before `m_condition.notify_all()`. -/
  | notifyAll
  /-- At `m_ids.empty()` in the inner loop. -/
  | waitIds
  /-- At `m_exitThread.load() > 0` in the inner loop. -/
  | waitTok
  /-- Before it holds `m_idsMutex`. -/
  | lockIds
  /-- In `for (auto id : m_ids)`, with the ids that are left. -/
  | reap (ids : List Nat)
  /-- The thread of the first id was found; before `joinable()`. -/
  | reapJoinable (ids : List Nat)
  | reapJoin (ids : List Nat)
  | reapErase (ids : List Nat)
  | clearIds
  | unlockIds
  /-- Before it starts a worker thread. -/
  | spawn
  /-- Before `m_workers.insert`. -/
  | insert (tid : Nat)
  /-- Before `m_curThread++`. -/
  | incCur
  /-- Before `m_idleThread++`. -/
  | incIdle
  | exited
deriving DecidableEq, Repr

/-- Where the caller of `~ThreadPool` is. -/
inductive DtorPc where
  | notCalled
  /-- `m_stop` is set; `m_condition.notify_all()` comes next. -/
  | notifyAll
  /-- In the loop over `m_workers`, with the ids it has visited. -/
  | joinLoop (visited : List Nat)
  /-- Before the join of worker `tid`, which was joinable. -/
  | joinWorker (tid : Nat) (visited : List Nat)
  /-- Before the join of the manager. -/
  | joinManager
  /-- Before `m_workers.clear()`. -/
  | clear
  | returned
  /-- `m_workers.clear()` destroyed a joinable thread. -/
  | terminated
deriving DecidableEq, Repr

inductive Owner where
  | worker (tid : Nat)
  | manager
deriving DecidableEq, Repr

structure State where
  minThread : Int
  maxThread : Int
  idleThread : Int
  curThread : Int
  exitThread : Int
  stop : Bool
  tasks : List Task
  /-- The worker that holds `m_queueMutex`. A section of `addTask` is one step. -/
  queueMutex : Option Nat
  idsMutex : Option Owner
  ids : List Nat
  /-- All threads that were ever started, by number. -/
  workers : List WorkerPc
  /-- `m_workers`: the thread objects of the map, and whether each is joinable. -/
  threads : List (Nat × Bool)
  /-- The callers of `addTask` that have left the mutex and not notified yet. -/
  pendingNotify : Nat
  manager : ManagerPc
  dtor : DtorPc
  /-- The tasks that were ever added, taken and completed. -/
  added : List Task
  taken : List Task
  completed : List Task
  /-- The joins of worker threads that have returned. -/
  joins : List Nat
deriving DecidableEq, Repr

inductive Action where
  /-- A caller of `addTask` runs its section under `m_queueMutex`. -/
  | addTask (task : Task)
  /-- A caller of `addTask` sends `notify_one()`; the worker that wakes up is `sel`. -/
  | notifyOne (sel : Nat)
  /-- The next step of a worker thread. -/
  | worker (tid : Nat)
  /-- The next step of the manager thread. -/
  | manager
  /-- The next step of the destructor. Its loop over the map goes on with `sel`. -/
  | dtor (sel : Nat)
deriving DecidableEq, Repr

def WorkerPc.isAsleep : WorkerPc → Bool
  | .asleep => true
  | _ => false

def WorkerPc.notified : WorkerPc → WorkerPc
  | .asleep => .woken
  | pc => pc

/-- `m_condition.notify_one()`: one sleeper wakes up, if there is one. -/
def notifyOne (workers : List WorkerPc) (sel : Nat) : Option (List WorkerPc) :=
  if workers.any WorkerPc.isAsleep then
    if workers[sel]? = some .asleep then some (workers.set sel .woken) else none
  else
    some workers

/-- `m_condition.notify_all()`. -/
def notifyAll (workers : List WorkerPc) : List WorkerPc := workers.map WorkerPc.notified

/-- Worker `i` goes on at `pc`. -/
def State.goto (s : State) (i : Nat) (pc : WorkerPc) : State :=
  { s with workers := s.workers.set i pc }

/-- The next step of worker `i`, which is at `pc`. -/
def workerStepAt (s : State) (i : Nat) : WorkerPc → Option State
  | .loopHead => some (s.goto i (if s.stop then .exited else .acquire))
  | .acquire =>
    if s.queueMutex = none then
      some { s.goto i .testWait with queueMutex := some i }
    else
      none
  | .testWait => some (s.goto i (if s.tasks.isEmpty && !s.stop then .block else .take))
  | .block => some { s.goto i .asleep with queueMutex := none }
  | .asleep => none
  | .woken =>
    if s.queueMutex = none then
      some { s.goto i .checkExit with queueMutex := some i }
    else
      none
  -- only a worker that was notified gets here
  | .checkExit => some (s.goto i (if 0 < s.exitThread then .exitCur else .testWait))
  | .exitCur => some { s.goto i .exitIdle with curThread := s.curThread - 1 }
  | .exitIdle => some { s.goto i .exitTok with idleThread := s.idleThread - 1 }
  | .exitTok => some { s.goto i .exitLockIds with exitThread := s.exitThread - 1 }
  | .exitLockIds =>
    if s.idsMutex = none then
      some { s.goto i .exitPush with idsMutex := some (.worker i) }
    else
      none
  | .exitPush => some { s.goto i .exitUnlockIds with ids := s.ids ++ [i] }
  | .exitUnlockIds => some { s.goto i .exitUnlockQueue with idsMutex := none }
  | .exitUnlockQueue => some { s.goto i .exited with queueMutex := none }
  | .take =>
    match s.tasks with
    | [] => some (s.goto i (.release none))
    | task :: tasks =>
      some { s.goto i (.release (some task)) with tasks := tasks, taken := s.taken ++ [task] }
  | .release task =>
    some { s.goto i (match task with
        | some t => if t.callable then .runDec t else .loopHead
        | none => .loopHead) with queueMutex := none }
  | .runDec task => some { s.goto i (.running task) with idleThread := s.idleThread - 1 }
  | .running task => some { s.goto i .runInc with completed := s.completed ++ [task] }
  | .runInc => some { s.goto i .loopHead with idleThread := s.idleThread + 1 }
  | .exited => none

def workerStep (s : State) (i : Nat) : Option State :=
  (s.workers[i]?).bind (workerStepAt s i)

/-- Which branch the manager takes, from the counters it has read. -/
def managerBranch (s : State) (idel cur : Int) : ManagerPc :=
  if cur.tdiv 2 < idel ∧ s.minThread < cur then .storeExit
  else if idel = 0 ∧ cur < s.maxThread ∧ s.stop = false then .spawn
  else .loopHead

/-- The next step of the manager. -/
def managerStep (s : State) : Option State :=
  match s.manager with
  | .loopHead => some { s with manager := if s.stop then .exited else .sleeping }
  | .sleeping => some { s with manager := .loadIdle }
  | .loadIdle => some { s with manager := .loadCur s.idleThread }
  | .loadCur idel => some { s with manager := .branch idel s.curThread }
  | .branch idel cur => some { s with manager := managerBranch s idel cur }
  | .storeExit => some { s with manager := .notifyAll, exitThread := 2 }
  | .notifyAll => some { s with manager := .waitIds, workers := notifyAll s.workers }
  | .waitIds => some { s with manager := if s.ids.isEmpty then .waitTok else .lockIds }
  | .waitTok => some { s with manager := if 0 < s.exitThread then .waitIds else .lockIds }
  | .lockIds =>
    if s.idsMutex = none then
      some { s with manager := .reap s.ids, idsMutex := some .manager }
    else
      none
  | .reap [] => some { s with manager := .clearIds }
  -- an id that is not in the map is passed over
  | .reap (id :: rest) =>
    some { s with manager :=
      if s.threads.any (·.1 = id) then .reapJoinable (id :: rest) else .reap rest }
  | .reapJoinable ids =>
    some { s with manager :=
      if s.threads.any fun t => t.1 = ids.headD 0 ∧ t.2 then .reapJoin ids else .reapErase ids }
  | .reapJoin ids =>
    if s.workers[ids.headD 0]? = some .exited then
      some { s with
        manager := .reapErase ids
        threads := s.threads.map fun t => if t.1 = ids.headD 0 then (t.1, false) else t
        joins := s.joins ++ [ids.headD 0] }
    else
      none
  | .reapErase ids =>
    some { s with manager := .reap ids.tail, threads := s.threads.filter (·.1 ≠ ids.headD 0) }
  | .clearIds => some { s with manager := .unlockIds, ids := [] }
  | .unlockIds => some { s with manager := .loopHead, idsMutex := none }
  | .spawn =>
    some { s with manager := .insert s.workers.length, workers := s.workers ++ [.loopHead] }
  | .insert tid => some { s with manager := .incCur, threads := s.threads ++ [(tid, true)] }
  | .incCur => some { s with manager := .incIdle, curThread := s.curThread + 1 }
  | .incIdle => some { s with manager := .loopHead, idleThread := s.idleThread + 1 }
  | .exited => none

/-- The next step of the destructor. -/
def dtorStep (s : State) (sel : Nat) : Option State :=
  match s.dtor with
  | .notCalled => some { s with dtor := .notifyAll, stop := true }
  | .notifyAll => some { s with dtor := .joinLoop [], workers := notifyAll s.workers }
  | .joinLoop visited =>
    -- the loop meets the elements of the map in no particular order
    if s.threads.all (·.1 ∈ visited) then
      some { s with dtor := .joinManager }
    else
      match s.threads.find? (·.1 = sel) with
      | some (tid, joinable) =>
        if tid ∈ visited then none
        else if joinable then some { s with dtor := .joinWorker tid (tid :: visited) }
        else some { s with dtor := .joinLoop (tid :: visited) }
      | none => none
  | .joinWorker tid visited =>
    if s.workers[tid]? = some .exited then
      some { s with
        dtor := .joinLoop visited
        threads := s.threads.map fun t => if t.1 = tid then (t.1, false) else t
        joins := s.joins ++ [tid] }
    else
      none
  | .joinManager => if s.manager = .exited then some { s with dtor := .clear } else none
  | .clear =>
    some { s with dtor := if s.threads.any (·.2) then .terminated else .returned, threads := [] }
  | .returned => none
  | .terminated => none

def step (s : State) : Action → Option State
  | .addTask task =>
    if s.queueMutex = none then
      some { s with
        tasks := s.tasks ++ [task]
        added := s.added ++ [task]
        pendingNotify := s.pendingNotify + 1 }
    else
      none
  | .notifyOne sel =>
    if 0 < s.pendingNotify then
      (notifyOne s.workers sel).map fun ws =>
        { s with workers := ws, pendingNotify := s.pendingNotify - 1 }
    else
      none
  | .worker i => workerStep s i
  | .manager => managerStep s
  | .dtor sel => dtorStep s sel

/-- The pool that the constructor leaves. `m_exitThread` gets no value there. -/
def start (min max exitThread : Int) : State where
  minThread := min
  maxThread := max
  idleThread := min
  curThread := min
  exitThread := exitThread
  stop := false
  tasks := []
  queueMutex := none
  idsMutex := none
  ids := []
  workers := List.replicate min.toNat .loopHead
  threads := (List.range min.toNat).map fun tid => (tid, true)
  pendingNotify := 0
  manager := .loopHead
  dtor := .notCalled
  added := []
  taken := []
  completed := []
  joins := []

/-- A pool with the given bounds that finds `exitThread` in `m_exitThread`. -/
def system (min max exitThread : Int) : Transition State Action where
  init s := s = start min max exitThread
  step := step

/-! ## Spurious wake-ups -/

/-- A step of the pool, or a sleeper that wakes up though nobody has notified it. -/
inductive WakingAction where
  | pool (a : Action)
  | wake (i : Nat)
deriving DecidableEq, Repr

def wakingStep (s : State) : WakingAction → Option State
  | .pool a => step s a
  | .wake i => if s.workers[i]? = some .asleep then some (s.goto i .woken) else none

/-- The pool on a machine with spurious wake-ups. -/
def wakingSystem (min max exitThread : Int) : Transition State WakingAction where
  init s := s = start min max exitThread
  step := wakingStep

end ThreadPool
