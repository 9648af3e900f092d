import AsyncLogStorage.ForStd.List
import AsyncLogStorage.Native.ThreadPool

/-!
# What a step of the thread pool can do

One lemma for each party of `ThreadPool.step`, and the invariants of `m_queueMutex`
and of the destructor that the other results build on.

## Key results

- `step_cases`: the five kinds of steps
- `WorkerPc.goes_next` / `ManagerPc.goes_next`: the ways a thread can go, and what it saw
- `workerStep_frame`: what a worker step touches
- `managerStep_moves`: where the manager goes, and what it does to ids and threads
- `reachable_locked`: `m_queueMutex` is held by the worker that is inside its section
- `wakingStep_cases`: a spurious wake-up does what a notification would do
-/

namespace ThreadPool

/-! ## Inversion -/

/-- The kinds of steps of the system. -/
theorem step_cases {s s' : State} {a : Action} (h : step s a = some s') :
    (∃ task, a = .addTask task ∧ s.queueMutex = none ∧
      s' = { s with tasks := s.tasks ++ [task], added := s.added ++ [task],
                    pendingNotify := s.pendingNotify + 1 }) ∨
    (∃ sel ws, a = .notifyOne sel ∧ 0 < s.pendingNotify ∧ notifyOne s.workers sel = some ws ∧
      s' = { s with workers := ws, pendingNotify := s.pendingNotify - 1 }) ∨
    (∃ i, a = .worker i ∧ workerStep s i = some s') ∨
    (a = .manager ∧ managerStep s = some s') ∨
    (∃ sel, a = .dtor sel ∧ dtorStep s sel = some s') := by
  cases a with
  | addTask task =>
    obtain ⟨hfree, hs⟩ := Option.ite_none_right_eq_some.mp h
    exact .inl ⟨task, rfl, hfree, (Option.some.inj hs).symm⟩
  | notifyOne sel =>
    obtain ⟨hpending, hs⟩ := Option.ite_none_right_eq_some.mp h
    obtain ⟨ws, hws, rfl⟩ := Option.map_eq_some_iff.mp hs
    exact .inr (.inl ⟨sel, ws, rfl, hpending, hws, rfl⟩)
  | worker i => exact .inr (.inr (.inl ⟨i, rfl, h⟩))
  | manager => exact .inr (.inr (.inr (.inl ⟨rfl, h⟩)))
  | dtor sel => exact .inr (.inr (.inr (.inr ⟨sel, rfl, h⟩)))

/-- `notify_one` wakes a sleeper, or there is none. -/
theorem notifyOne_cases {ws ws' : List WorkerPc} {sel : Nat} (h : notifyOne ws sel = some ws') :
    (ws[sel]? = some .asleep ∧ ws' = ws.set sel .woken) ∨ (.asleep ∉ ws ∧ ws' = ws) := by
  unfold notifyOne at h
  split at h
  · split at h
    · rename_i hsel
      exact .inl ⟨hsel, (Option.some.inj h).symm⟩
    · exact nomatch h
  · rename_i hany
    refine .inr ⟨fun hmem => hany ?_, (Option.some.inj h).symm⟩
    exact List.any_eq_true.mpr ⟨.asleep, hmem, rfl⟩

theorem asleep_not_mem_notifyAll (ws : List WorkerPc) : .asleep ∉ notifyAll ws := by
  intro hmem
  obtain ⟨pc, -, hpc⟩ := List.mem_map.mp hmem
  cases pc <;> exact nomatch hpc

/-- The worker is in its section under `m_queueMutex`. -/
def WorkerPc.holdsQueue : WorkerPc → Bool
  | .testWait | .block | .checkExit | .exitCur | .exitIdle | .exitTok | .exitLockIds | .exitPush
  | .exitUnlockIds | .exitUnlockQueue | .take | .release _ => true
  | _ => false

/-- The worker has taken the exit branch and not ended yet. -/
def WorkerPc.leaving : WorkerPc → Bool
  | .exitCur | .exitIdle | .exitTok | .exitLockIds | .exitPush | .exitUnlockIds
  | .exitUnlockQueue => true
  | _ => false

/-- The worker is up and will look at the queue before it sleeps or ends. -/
def WorkerPc.attends (pc : WorkerPc) : Bool :=
  !pc.isAsleep && !pc.leaving && !(pc == .exited)

@[simp] theorem WorkerPc.attends_iff (pc : WorkerPc) :
    pc.attends = true ↔ pc ≠ .asleep ∧ pc.leaving = false ∧ pc ≠ .exited := by
  cases pc <;> simp [attends, isAsleep, leaving]

/-- The position that a step of a worker at `pc` leads to. -/
def WorkerPc.next (s : State) : WorkerPc → WorkerPc
  | .loopHead => if s.stop then .exited else .acquire
  | .acquire => .testWait
  | .testWait => if s.tasks.isEmpty && !s.stop then .block else .take
  | .block => .asleep
  | .asleep => .asleep
  | .woken => .checkExit
  | .checkExit => if 0 < s.exitThread then .exitCur else .testWait
  | .exitCur => .exitIdle
  | .exitIdle => .exitTok
  | .exitTok => .exitLockIds
  | .exitLockIds => .exitPush
  | .exitPush => .exitUnlockIds
  | .exitUnlockIds => .exitUnlockQueue
  | .exitUnlockQueue => .exited
  | .take => .release s.tasks.head?
  | .release (some task) => if task.callable then .runDec task else .loopHead
  | .release none => .loopHead
  | .runDec task => .running task
  | .running _ => .runInc
  | .runInc => .loopHead
  | .exited => .exited

/-- The ways a worker can go, with what it has seen where the ways part. -/
inductive WorkerPc.Goes (s : State) : WorkerPc → WorkerPc → Prop
  | stopped (hstop : s.stop = true) : Goes s .loopHead .exited
  | loopHead (hstop : s.stop = false) : Goes s .loopHead .acquire
  | acquire : Goes s .acquire .testWait
  -- the test of the `while` around `m_condition.wait`
  | wait (hempty : s.tasks = []) (hstop : s.stop = false) : Goes s .testWait .block
  | goOn (h : s.tasks = [] → s.stop = true) : Goes s .testWait .take
  | block : Goes s .block .asleep
  | asleep : Goes s .asleep .asleep
  | woken : Goes s .woken .checkExit
  | leave (htok : 0 < s.exitThread) : Goes s .checkExit .exitCur
  | stay (htok : ¬0 < s.exitThread) : Goes s .checkExit .testWait
  -- the exit branch runs through to the end of the thread
  | exitCur : Goes s .exitCur .exitIdle
  | exitIdle : Goes s .exitIdle .exitTok
  | exitTok : Goes s .exitTok .exitLockIds
  | exitLockIds : Goes s .exitLockIds .exitPush
  | exitPush : Goes s .exitPush .exitUnlockIds
  | exitUnlockIds : Goes s .exitUnlockIds .exitUnlockQueue
  | exitUnlockQueue : Goes s .exitUnlockQueue .exited
  -- a task is run if there is one, and if it is not an empty `std::function`
  | take : Goes s .take (.release s.tasks.head?)
  | run {task : Task} (hcall : task.callable = true) :
      Goes s (.release (some task)) (.runDec task)
  | skip {task : Task} (hcall : task.callable = false) : Goes s (.release (some task)) .loopHead
  | nothing : Goes s (.release none) .loopHead
  | runDec {task : Task} : Goes s (.runDec task) (.running task)
  | running {task : Task} : Goes s (.running task) .runInc
  | runInc : Goes s .runInc .loopHead
  | exited : Goes s .exited .exited

theorem WorkerPc.goes_next (s : State) (pc : WorkerPc) : Goes s pc (pc.next s) := by
  cases pc with
  | loopHead =>
    cases hstop : s.stop with
    | true => simpa [next, hstop] using Goes.stopped hstop
    | false => simpa [next, hstop] using Goes.loopHead hstop
  | testWait =>
    simp only [next]
    split
    · rename_i hwait
      simp only [Bool.and_eq_true, List.isEmpty_iff, Bool.not_eq_true'] at hwait
      exact .wait hwait.1 hwait.2
    · rename_i hgo
      refine .goOn fun hempty => ?_
      simpa [hempty] using hgo
  | checkExit =>
    simp only [next]
    split
    · rename_i htok
      exact .leave htok
    · rename_i htok
      exact .stay htok
  | release task =>
    cases task with
    | none => exact .nothing
    | some task =>
      cases hcall : task.callable with
      | true => simpa [next, hcall] using Goes.run hcall
      | false => simpa [next, hcall] using Goes.skip hcall
  | _ => constructor

/-- A step of worker `i` at `pc` touches its program counter, the counters, the queue at
    `take` and the two mutexes, and nothing else. -/
structure WorkerFrame (s s' : State) (i : Nat) (pc : WorkerPc) : Prop where
  workers : s'.workers = s.workers.set i (pc.next s)
  stop : s'.stop = s.stop
  pendingNotify : s'.pendingNotify = s.pendingNotify
  manager : s'.manager = s.manager
  dtor : s'.dtor = s.dtor
  tasks : pc ≠ .take → s'.tasks = s.tasks
  /-- The worker holds the mutex after the step exactly as its new position says. -/
  queueMutex : s'.queueMutex =
    if (pc.next s).holdsQueue then (if pc.holdsQueue then s.queueMutex else some i)
    else (if pc.holdsQueue then none else s.queueMutex)
  acquired : pc.holdsQueue = false → (pc.next s).holdsQueue = true → s.queueMutex = none

/-- Every worker step is within its frame. -/
theorem workerStepAt_frame {s s' : State} {i : Nat} {pc : WorkerPc}
    (h : workerStepAt s i pc = some s') : WorkerFrame s s' i pc := by
  cases pc with
  | asleep | exited => exact nomatch h
  -- the two steps that take the mutex
  | acquire | woken =>
    obtain ⟨hfree, hs⟩ := Option.ite_none_right_eq_some.mp h
    cases hs
    exact ⟨rfl, rfl, rfl, rfl, rfl, fun _ => rfl, rfl, fun _ _ => hfree⟩
  | exitLockIds =>
    obtain ⟨-, hs⟩ := Option.ite_none_right_eq_some.mp h
    cases hs
    exact ⟨rfl, rfl, rfl, rfl, rfl, fun _ => rfl, rfl, nofun⟩
  | loopHead =>
    cases h
    refine ⟨rfl, rfl, rfl, rfl, rfl, fun _ => rfl, ?_, ?_⟩
    · simp only [WorkerPc.next]
      split <;> rfl
    · simp only [WorkerPc.next]
      split <;> exact nofun
  -- both branches of these tests stay in the section
  | testWait | checkExit =>
    cases h
    refine ⟨rfl, rfl, rfl, rfl, rfl, fun _ => rfl, ?_, nofun⟩
    simp only [WorkerPc.next]
    split <;> rfl
  | take =>
    simp only [workerStepAt] at h
    split at h
    · rename_i hnil
      cases h
      refine ⟨?_, rfl, rfl, rfl, rfl, fun h => absurd rfl h, rfl, nofun⟩
      simp only [State.goto, WorkerPc.next, hnil, List.head?_nil]
    · rename_i task tasks hcons
      cases h
      refine ⟨?_, rfl, rfl, rfl, rfl, fun h => absurd rfl h, rfl, nofun⟩
      simp only [State.goto, WorkerPc.next, hcons, List.head?_cons]
  | release task =>
    -- an empty `std::function` is not run
    cases h
    cases task with
    | none => exact ⟨rfl, rfl, rfl, rfl, rfl, fun _ => rfl, rfl, nofun⟩
    | some t =>
      refine ⟨rfl, rfl, rfl, rfl, rfl, fun _ => rfl, ?_, nofun⟩
      cases hc : t.callable <;> simp [hc, WorkerPc.next, WorkerPc.holdsQueue]
  | block | exitCur | exitIdle | exitTok | exitPush | exitUnlockIds | exitUnlockQueue
  | runDec | running | runInc =>
    cases h
    exact ⟨rfl, rfl, rfl, rfl, rfl, fun _ => rfl, rfl, nofun⟩

/-- Only a worker that has seen an empty queue goes on to wait. -/
theorem WorkerPc.next_eq_block {s : State} {pc : WorkerPc} (h : pc.next s = .block) :
    pc = .testWait ∧ s.tasks = [] := by
  have hgoes := pc.goes_next s
  rw [h] at hgoes
  cases hgoes with
  | wait hempty _ => exact ⟨rfl, hempty⟩

/-- The worker whose step is taken, with the frame of the step. -/
theorem workerStep_frame {s s' : State} {i : Nat} (h : workerStep s i = some s') :
    ∃ pc, s.workers[i]? = some pc ∧ workerStepAt s i pc = some s' ∧ WorkerFrame s s' i pc := by
  obtain ⟨pc, hpc, hstep⟩ := Option.bind_eq_some_iff.mp h
  exact ⟨pc, hpc, hstep, workerStepAt_frame hstep⟩

/-- A manager step leaves the queue, its mutex and the flag alone, and it changes the
    workers by its two notifications: it wakes everybody, or it starts a thread. -/
theorem managerStep_frame {s s' : State} (h : managerStep s = some s') :
    s'.stop = s.stop ∧ s'.tasks = s.tasks ∧ s'.queueMutex = s.queueMutex ∧
    s'.pendingNotify = s.pendingNotify ∧ s'.dtor = s.dtor ∧
    ((s.manager = .notifyAll ∧ s'.workers = notifyAll s.workers) ∨
      (s.manager = .spawn ∧ s'.workers = s.workers ++ [.loopHead]) ∨
      (s.manager ≠ .notifyAll ∧ s'.workers = s.workers)) := by
  unfold managerStep at h
  split at h
  -- `notify_all`, and the start of a thread
  case h_7 hm => cases h; exact ⟨rfl, rfl, rfl, rfl, rfl, .inl ⟨hm, rfl⟩⟩
  case h_18 hm => cases h; exact ⟨rfl, rfl, rfl, rfl, rfl, .inr (.inl ⟨hm, rfl⟩)⟩
  -- elsewhere the manager moves its counters, its map and its ids, or waits
  all_goals
    rename_i hm
    first
      | cases h
        exact ⟨rfl, rfl, rfl, rfl, rfl, .inr (.inr ⟨by simp [hm], rfl⟩)⟩
      | obtain ⟨-, hs⟩ := Option.ite_none_right_eq_some.mp h
        cases hs
        exact ⟨rfl, rfl, rfl, rfl, rfl, .inr (.inr ⟨by simp [hm], rfl⟩)⟩
      | exact nomatch h

/-- The position that a step of the manager at `pc` leads to. -/
def ManagerPc.next (s : State) : ManagerPc → ManagerPc
  | .loopHead => if s.stop then .exited else .sleeping
  | .sleeping => .loadIdle
  | .loadIdle => .loadCur s.idleThread
  | .loadCur idel => .branch idel s.curThread
  | .branch idel cur => managerBranch s idel cur
  | .storeExit => .notifyAll
  | .notifyAll => .waitIds
  | .waitIds => if s.ids.isEmpty then .waitTok else .lockIds
  | .waitTok => if 0 < s.exitThread then .waitIds else .lockIds
  | .lockIds => .reap s.ids
  | .reap [] => .clearIds
  | .reap (id :: rest) =>
    if s.threads.any (·.1 = id) then .reapJoinable (id :: rest) else .reap rest
  | .reapJoinable ids =>
    if s.threads.any fun t => t.1 = ids.headD 0 ∧ t.2 then .reapJoin ids else .reapErase ids
  | .reapJoin ids => .reapErase ids
  | .reapErase ids => .reap ids.tail
  | .clearIds => .unlockIds
  | .unlockIds => .loopHead
  | .spawn => .insert s.workers.length
  | .insert _ => .incCur
  | .incCur => .incIdle
  | .incIdle => .loopHead
  | .exited => .exited

/-- The ways the manager can go, with what it has seen where the ways part. -/
inductive ManagerPc.Goes (s : State) : ManagerPc → ManagerPc → Prop
  | stopped (hstop : s.stop = true) : Goes s .loopHead .exited
  | loopHead (hstop : s.stop = false) : Goes s .loopHead .sleeping
  | sleeping : Goes s .sleeping .loadIdle
  | loadIdle : Goes s .loadIdle (.loadCur s.idleThread)
  | loadCur {idel : Int} : Goes s (.loadCur idel) (.branch idel s.curThread)
  | shrink {idel cur : Int} (hidle : cur.tdiv 2 < idel) (hmin : s.minThread < cur) :
      Goes s (.branch idel cur) .storeExit
  | grow {idel cur : Int} (hidle : idel = 0) (hmax : cur < s.maxThread) :
      Goes s (.branch idel cur) .spawn
  | again {idel cur : Int} : Goes s (.branch idel cur) .loopHead
  -- the exit branch, which waits until there is an id or no token
  | storeExit : Goes s .storeExit .notifyAll
  | notifyAll : Goes s .notifyAll .waitIds
  | waitOn (hempty : s.ids = []) : Goes s .waitIds .waitTok
  | found (hne : s.ids ≠ []) : Goes s .waitIds .lockIds
  | retry (htok : 0 < s.exitThread) : Goes s .waitTok .waitIds
  | used (htok : ¬0 < s.exitThread) : Goes s .waitTok .lockIds
  -- the loop over the ids
  | lockIds : Goes s .lockIds (.reap s.ids)
  | done : Goes s (.reap []) .clearIds
  | find {id : Nat} {rest : List Nat} (h : s.threads.any (·.1 = id) = true) :
      Goes s (.reap (id :: rest)) (.reapJoinable (id :: rest))
  | pass {id : Nat} {rest : List Nat} : Goes s (.reap (id :: rest)) (.reap rest)
  | joinable {ids : List Nat} (h : (ids.headD 0, true) ∈ s.threads) :
      Goes s (.reapJoinable ids) (.reapJoin ids)
  | unjoinable {ids : List Nat} (h : (ids.headD 0, true) ∉ s.threads) :
      Goes s (.reapJoinable ids) (.reapErase ids)
  | join {ids : List Nat} : Goes s (.reapJoin ids) (.reapErase ids)
  | erase {ids : List Nat} : Goes s (.reapErase ids) (.reap ids.tail)
  | clearIds : Goes s .clearIds .unlockIds
  | unlockIds : Goes s .unlockIds .loopHead
  -- another thread, which is counted after it has been started
  | spawn : Goes s .spawn (.insert s.workers.length)
  | insert {tid : Nat} : Goes s (.insert tid) .incCur
  | incCur : Goes s .incCur .incIdle
  | incIdle : Goes s .incIdle .loopHead
  | exited : Goes s .exited .exited

/-- A joinable thread object is found by its number. -/
theorem any_joinable {threads : List (Nat × Bool)} {tid : Nat} :
    (threads.any fun t => t.1 = tid ∧ t.2) = true ↔ (tid, true) ∈ threads := by
  simp only [List.any_eq_true, decide_eq_true_eq]
  constructor
  · rintro ⟨⟨id, joinable⟩, hmem, rfl, rfl⟩
    exact hmem
  · intro hmem
    exact ⟨_, hmem, rfl, rfl⟩

theorem ManagerPc.goes_next (s : State) (pc : ManagerPc) : Goes s pc (pc.next s) := by
  cases pc with
  | loopHead =>
    cases hstop : s.stop with
    | true => simpa [next, hstop] using Goes.stopped hstop
    | false => simpa [next, hstop] using Goes.loopHead hstop
  | branch idel cur =>
    simp only [next, managerBranch]
    split
    · rename_i hshrink
      exact .shrink hshrink.1 hshrink.2
    · split
      · rename_i hgrow
        exact .grow hgrow.1 hgrow.2.1
      · exact .again
  | waitIds =>
    simp only [next]
    split
    · rename_i hempty
      exact .waitOn (List.isEmpty_iff.mp hempty)
    · rename_i hne
      exact .found fun hempty => hne (List.isEmpty_iff.mpr hempty)
  | waitTok =>
    simp only [next]
    split
    · rename_i htok
      exact .retry htok
    · rename_i htok
      exact .used htok
  | reap ids =>
    cases ids with
    | nil => exact .done
    | cons id rest =>
      simp only [next]
      split
      · rename_i hfound
        exact .find hfound
      · exact .pass
  | reapJoinable ids =>
    simp only [next]
    split
    · rename_i hany
      exact .joinable (any_joinable.mp hany)
    · rename_i hnone
      exact .unjoinable fun hmem => hnone (any_joinable.mpr hmem)
  | _ => constructor

/-- The thread objects that a step of the manager at `pc` leaves. -/
def ManagerPc.threads (s : State) : ManagerPc → List (Nat × Bool)
  | .reapJoin ids => s.threads.map fun t => if t.1 = ids.headD 0 then (t.1, false) else t
  | .reapErase ids => s.threads.filter (·.1 ≠ ids.headD 0)
  | .insert tid => s.threads ++ [(tid, true)]
  | _ => s.threads

/-- What a step of the manager at `pc` does to its place, the thread objects, the ids and
    their mutex, and what it has waited for. -/
structure ManagerFrame (s s' : State) (pc : ManagerPc) : Prop where
  manager : s'.manager = pc.next s
  threads : s'.threads = pc.threads s
  ids : s'.ids = if pc = .clearIds then [] else s.ids
  idsMutex : s'.idsMutex =
    if pc = .lockIds then some .manager else if pc = .unlockIds then none else s.idsMutex
  exitThread : pc ≠ .storeExit → s'.exitThread = s.exitThread
  running : pc ≠ .exited
  locked : pc = .lockIds → s.idsMutex = none
  joined : ∀ ids, pc = .reapJoin ids → s.workers[ids.headD 0]? = some .exited

theorem managerStep_moves {s s' : State} (h : managerStep s = some s') :
    ManagerFrame s s' s.manager := by
  cases hm : s.manager with
  | exited =>
    simp only [managerStep, hm] at h
    cases h
  | lockIds =>
    simp only [managerStep, hm] at h
    obtain ⟨hfree, hs⟩ := Option.ite_none_right_eq_some.mp h
    cases hs
    exact ⟨rfl, rfl, rfl, rfl, fun _ => rfl, by simp, fun _ => hfree, by simp⟩
  | reapJoin ids =>
    simp only [managerStep, hm] at h
    obtain ⟨hexited, hs⟩ := Option.ite_none_right_eq_some.mp h
    cases hs
    refine ⟨rfl, rfl, rfl, rfl, fun _ => rfl, by simp, by simp, fun ids' hids => ?_⟩
    cases hids
    exact hexited
  | reap ids =>
    cases ids <;> simp only [managerStep, hm] at h <;> cases h <;>
      exact ⟨rfl, rfl, rfl, rfl, fun _ => rfl, by simp, by simp, by simp⟩
  | storeExit =>
    simp only [managerStep, hm] at h
    cases h
    exact ⟨rfl, rfl, rfl, rfl, fun hne => absurd rfl hne, by simp, by simp, by simp⟩
  | _ =>
    simp only [managerStep, hm] at h
    cases h
    exact ⟨rfl, rfl, rfl, rfl, fun _ => rfl, by simp, by simp, by simp⟩

/-- The manager erases a thread object that it has joined, or that was not joinable. -/
theorem ManagerPc.next_eq_reapErase {s : State} {pc : ManagerPc} {ids : List Nat}
    (h : pc.next s = .reapErase ids) :
    (pc = .reapJoinable ids ∧ (ids.headD 0, true) ∉ s.threads) ∨ pc = .reapJoin ids := by
  have hgoes := pc.goes_next s
  rw [h] at hgoes
  cases hgoes with
  | unjoinable hnone => exact .inl ⟨rfl, hnone⟩
  | join => exact .inr rfl

/-- A joinable thread object stays, unless the manager has joined it or erases it. -/
theorem ManagerPc.mem_threads {s : State} {i : Nat} (pc : ManagerPc) (h : (i, true) ∈ s.threads) :
    (i, true) ∈ pc.threads s ∨
      ∃ ids, (pc = .reapJoin ids ∨ pc = .reapErase ids) ∧ i = ids.headD 0 := by
  cases pc with
  | reapJoin ids =>
    by_cases hi : i = ids.headD 0
    · exact .inr ⟨ids, .inl rfl, hi⟩
    · exact .inl (List.mem_map.mpr ⟨(i, true), h, if_neg hi⟩)
  | reapErase ids =>
    by_cases hi : i = ids.headD 0
    · exact .inr ⟨ids, .inr rfl, hi⟩
    · exact .inl (List.mem_filter.mpr ⟨h, decide_eq_true hi⟩)
  | insert tid => exact .inl (List.mem_append_left _ h)
  | _ => exact .inl h

/-- A destructor step leaves the queue and its mutex alone. It runs only once the flag
    is set or sets it. -/
theorem dtorStep_frame {s s' : State} {sel : Nat} (h : dtorStep s sel = some s') :
    s'.tasks = s.tasks ∧ s'.queueMutex = s.queueMutex ∧ s'.dtor ≠ .notCalled ∧
    ((s.dtor = .notCalled ∧ s'.stop = true ∧ s'.workers = s.workers) ∨
      (s.dtor ≠ .notCalled ∧ s'.stop = s.stop ∧
        (s'.workers = s.workers ∨ s'.workers = notifyAll s.workers))) := by
  unfold dtorStep at h
  split at h
  -- `m_stop` is set
  case h_1 hd => cases h; exact ⟨rfl, rfl, nofun, .inl ⟨hd, rfl, rfl⟩⟩
  -- `notify_all`
  case h_2 hd =>
    cases h
    exact ⟨rfl, rfl, nofun, .inr ⟨by simp [hd], rfl, .inr rfl⟩⟩
  -- the loop over `m_workers`
  case h_3 hd =>
    split at h
    · cases h
      exact ⟨rfl, rfl, nofun, .inr ⟨by simp [hd], rfl, .inl rfl⟩⟩
    · split at h
      · split at h
        · exact nomatch h
        · split at h <;> cases h <;>
            exact ⟨rfl, rfl, nofun, .inr ⟨by simp [hd], rfl, .inl rfl⟩⟩
      · exact nomatch h
  -- `m_workers.clear()`, which returns or terminates
  case h_6 hd =>
    cases h
    refine ⟨rfl, rfl, ?_, .inr ⟨by simp [hd], rfl, .inl rfl⟩⟩
    show ite _ _ _ ≠ _
    split <;> nofun
  case h_7 | h_8 => exact nomatch h
  -- the joins
  all_goals
    rename_i hd
    obtain ⟨-, hs⟩ := Option.ite_none_right_eq_some.mp h
    cases hs
    exact ⟨rfl, rfl, nofun, .inr ⟨by simp [hd], rfl, .inl rfl⟩⟩

/-- Only the exit branch leaves an id or takes a token. -/
theorem workerStepAt_tokens {s s' : State} {i : Nat} {pc : WorkerPc}
    (h : workerStepAt s i pc = some s') :
    s'.ids = (if pc = .exitPush then s.ids ++ [i] else s.ids) ∧
      s'.exitThread = (if pc = .exitTok then s.exitThread - 1 else s.exitThread) := by
  cases pc with
  | asleep | exited => cases h
  | acquire | woken | exitLockIds =>
    obtain ⟨-, hs⟩ := Option.ite_none_right_eq_some.mp h
    cases hs
    exact ⟨rfl, rfl⟩
  | take =>
    simp only [workerStepAt] at h
    split at h <;> cases h <;> exact ⟨rfl, rfl⟩
  | _ =>
    cases h
    exact ⟨rfl, rfl⟩

/-- The destructor changes no counter, no id and not the manager. -/
theorem dtorStep_counters {s s' : State} {sel : Nat} (h : dtorStep s sel = some s') :
    s'.minThread = s.minThread ∧ s'.maxThread = s.maxThread ∧ s'.curThread = s.curThread ∧
      s'.exitThread = s.exitThread ∧ s'.ids = s.ids ∧ s'.manager = s.manager := by
  unfold dtorStep at h
  repeat' split at h
  all_goals
    cases h
    try exact ⟨rfl, rfl, rfl, rfl, rfl, rfl⟩

/-- The flag stays set. -/
theorem step_stop {s s' : State} {a : Action} (h : step s a = some s') (hstop : s.stop = true) :
    s'.stop = true := by
  obtain ⟨task, -, -, rfl⟩ | ⟨sel, ws, -, -, -, rfl⟩ | ⟨i, -, h⟩ | ⟨-, h⟩ | ⟨sel, -, h⟩ :=
    step_cases h
  · exact hstop
  · exact hstop
  · obtain ⟨pc, -, -, hframe⟩ := workerStep_frame h
    rw [hframe.stop, hstop]
  · rw [(managerStep_frame h).1, hstop]
  · obtain ⟨-, -, -, ⟨-, hset, -⟩ | ⟨-, hkeep, -⟩⟩ := dtorStep_frame h
    · exact hset
    · rw [hkeep, hstop]

/-! ## Counting workers -/

/-- A worker step changes a count by what it makes of its own worker. -/
theorem WorkerFrame.countP {s s' : State} {i : Nat} {pc : WorkerPc} (p : WorkerPc → Bool)
    (hframe : WorkerFrame s s' i pc) (hpc : s.workers[i]? = some pc) :
    s'.workers.countP p + (if p pc then 1 else 0) =
      s.workers.countP p + (if p (pc.next s) then 1 else 0) := by
  obtain ⟨hlt, hget⟩ := List.getElem?_eq_some_iff.mp hpc
  have hpos : p pc = true → 0 < s.workers.countP p := fun h =>
    List.countP_pos_iff.mpr ⟨pc, List.mem_of_getElem? hpc, h⟩
  rw [hframe.workers, List.countP_set hlt, hget]
  cases hp : p pc with
  | true =>
    have := hpos hp
    simp only [↓reduceIte]
    omega
  | false => simp only [Bool.false_eq_true, ↓reduceIte, Nat.sub_zero, Nat.add_zero]

/-- The same in the arithmetic of the counters. -/
theorem WorkerFrame.countP_toNat {s s' : State} {i : Nat} {pc : WorkerPc} (p : WorkerPc → Bool)
    (hframe : WorkerFrame s s' i pc) (hpc : s.workers[i]? = some pc) :
    (s'.workers.countP p : Int) = s.workers.countP p + (p (pc.next s)).toNat - (p pc).toNat := by
  have hcount : s'.workers.countP p + (if p pc then 1 else 0) =
      s.workers.countP p + (if p (pc.next s) then 1 else 0) := hframe.countP p hpc
  cases hold : p pc <;> cases hnew : p (pc.next s) <;> simp [hold, hnew] at hcount ⊢ <;> omega

section Notifications

variable {p : WorkerPc → Bool} (hp : ∀ pc : WorkerPc, p pc.notified = p pc)

include hp

theorem countP_notifyAll (ws : List WorkerPc) : (notifyAll ws).countP p = ws.countP p := by
  rw [notifyAll, List.countP_map]
  exact List.countP_congr fun pc _ => by rw [Function.comp, hp]

theorem countP_notifyOne {ws ws' : List WorkerPc} {sel : Nat} (h : notifyOne ws sel = some ws') :
    ws'.countP p = ws.countP p := by
  obtain ⟨hsel, rfl⟩ | ⟨-, rfl⟩ := notifyOne_cases h
  · -- a sleeper is woken
    obtain ⟨hlt, hget⟩ := List.getElem?_eq_some_iff.mp hsel
    have hasleep : p .woken = p .asleep := hp .asleep
    have hpos : p .asleep = true → 0 < ws.countP p := fun h =>
      List.countP_pos_iff.mpr ⟨.asleep, List.mem_of_getElem? hsel, h⟩
    rw [List.countP_set hlt, hget, hasleep]
    split
    · rename_i hcount
      have := hpos hcount
      omega
    · rfl
  · rfl

end Notifications

/-! ## The queue mutex and the flag -/

/-- What holds of the mutex and the flag in every reachable state. -/
structure Locked (s : State) : Prop where
  holder : ∀ (i : Nat) pc, s.workers[i]? = some pc → pc.holdsQueue = true → s.queueMutex = some i
  /-- A worker that goes to sleep has seen an empty queue. -/
  block_empty : ∀ i : Nat, s.workers[i]? = some .block → s.tasks = []
  dtor_called : s.stop = false → s.dtor = .notCalled

/-- No two workers hold the mutex. -/
theorem Locked.holder_unique {s : State} (hs : Locked s) {i j : Nat} {pci pcj : WorkerPc}
    (hi : s.workers[i]? = some pci) (hqi : pci.holdsQueue = true)
    (hj : s.workers[j]? = some pcj) (hqj : pcj.holdsQueue = true) : i = j := by
  have hheld := hs.holder i pci hi hqi
  rw [hs.holder j pcj hj hqj] at hheld
  exact (Option.some.inj hheld).symm

theorem start_locked (min max exitThread : Int) : Locked (start min max exitThread) := by
  have hpc : ∀ (i : Nat) pc, (start min max exitThread).workers[i]? = some pc → pc = .loopHead := by
    intro i pc h
    exact List.eq_of_mem_replicate (List.mem_of_getElem? h)
  refine ⟨?_, ?_, fun _ => rfl⟩
  · intro i pc h hq
    rw [hpc i pc h] at hq
    exact nomatch hq
  · intro i h
    exact nomatch hpc i _ h

private theorem workerStep_locked {s s' : State} {i : Nat} (hs : Locked s)
    (h : workerStep s i = some s') : Locked s' := by
  obtain ⟨pc, hpc, hstep, hframe⟩ := workerStep_frame h
  have hlt : i < s.workers.length := (List.getElem?_eq_some_iff.mp hpc).1
  refine ⟨?_, ?_, ?_⟩
  · intro j pcj hj hq
    rw [hframe.workers] at hj
    rw [hframe.queueMutex]
    obtain ⟨rfl, rfl⟩ | ⟨hij, hj⟩ := List.getElem?_set_cases hj
    · -- the worker itself
      rw [if_pos hq]
      split
      · rename_i hheld
        exact hs.holder i pc hpc hheld
      · rfl
    · -- another holder keeps the mutex, so this worker neither takes nor frees it
      have hother := hs.holder j pcj hj hq
      cases hheld : pc.holdsQueue with
      | true => exact absurd (hs.holder_unique hpc hheld hj hq) hij
      | false =>
        cases hnew : (pc.next s).holdsQueue with
        | true =>
          have hfree := hframe.acquired hheld hnew
          rw [hother] at hfree
          exact nomatch hfree
        | false => simpa using hother
  · intro j hj
    rw [hframe.workers] at hj
    obtain ⟨rfl, hblock⟩ | ⟨hij, hother⟩ := List.getElem?_set_cases hj
    · -- the worker that is about to sleep has seen an empty queue
      obtain ⟨rfl, hempty⟩ := WorkerPc.next_eq_block hblock.symm
      rw [hframe.tasks nofun, hempty]
    · -- the other one holds the mutex, so nobody takes a task
      have hempty := hs.block_empty j hother
      by_cases htake : pc = .take
      · subst htake
        exact absurd (hs.holder_unique hpc rfl hother rfl) hij
      · rw [hframe.tasks htake, hempty]
  · rw [hframe.stop, hframe.dtor]
    exact hs.dtor_called

/-- Waking sleepers moves nobody into or out of the mutex. -/
private theorem getElem?_notifyAll {ws : List WorkerPc} {i : Nat} {pc : WorkerPc}
    (h : (notifyAll ws)[i]? = some pc) (hq : pc.holdsQueue = true) : ws[i]? = some pc := by
  simp only [notifyAll, List.getElem?_map] at h
  obtain ⟨pc₀, hpc₀, rfl⟩ := Option.map_eq_some_iff.mp h
  cases pc₀ with
  | asleep => exact nomatch hq
  | _ => exact hpc₀

/-- A change of the workers that moves nobody into the mutex keeps the invariant. -/
private theorem Locked.of_workers {s s' : State} (hs : Locked s)
    (hmutex : s'.queueMutex = s.queueMutex) (htasks : s'.tasks = s.tasks)
    (hdtor : s'.stop = false → s'.dtor = .notCalled)
    (hworkers : ∀ (i : Nat) pc, s'.workers[i]? = some pc → pc.holdsQueue = true →
      s.workers[i]? = some pc) : Locked s' := by
  refine ⟨?_, ?_, hdtor⟩
  · intro i pc hi hq
    rw [hmutex]
    exact hs.holder i pc (hworkers i pc hi hq) hq
  · intro i hi
    rw [htasks]
    exact hs.block_empty i (hworkers i .block hi rfl)

/-- A thread that has just started is not in the mutex. -/
private theorem getElem?_spawn {ws : List WorkerPc} {i : Nat} {pc : WorkerPc}
    (h : (ws ++ [.loopHead])[i]? = some pc) (hq : pc.holdsQueue = true) : ws[i]? = some pc := by
  rw [List.getElem?_append] at h
  split at h
  · exact h
  · have hmem := List.mem_of_getElem? h
    rw [List.mem_singleton.mp hmem] at hq
    exact nomatch hq

theorem step_locked {s s' : State} {a : Action} (hs : Locked s) (h : step s a = some s') :
    Locked s' := by
  obtain ⟨task, -, hfree, rfl⟩ | ⟨sel, ws, -, -, hws, rfl⟩ | ⟨i, -, h⟩ | ⟨-, h⟩ | ⟨sel, -, h⟩ :=
    step_cases h
  · -- `addTask` needs the mutex, which a worker about to sleep would hold
    refine { hs with block_empty := fun i hi => ?_ }
    have hheld := hs.holder i .block hi rfl
    rw [hfree] at hheld
    exact nomatch hheld
  · -- the notification of an `addTask`
    refine Locked.of_workers hs rfl rfl hs.dtor_called ?_
    intro i pc hi hq
    obtain ⟨hsel, rfl⟩ | ⟨-, rfl⟩ := notifyOne_cases hws
    · obtain ⟨-, rfl⟩ | ⟨-, hi⟩ := List.getElem?_set_cases hi
      · cases hq
      · exact hi
    · exact hi
  · exact workerStep_locked hs h
  · -- the manager
    obtain ⟨hstop, htasks, hmutex, -, hdtor, hworkers⟩ := managerStep_frame h
    apply hs.of_workers hmutex htasks
    · rw [hstop, hdtor]
      exact hs.dtor_called
    · intro i pc hi hq
      obtain ⟨-, hw⟩ | ⟨-, hw⟩ | ⟨-, hw⟩ := hworkers
      · rw [hw] at hi
        exact getElem?_notifyAll hi hq
      · rw [hw] at hi
        exact getElem?_spawn hi hq
      · rwa [hw] at hi
  · -- the destructor
    obtain ⟨htasks, hmutex, -, hcases⟩ := dtorStep_frame h
    apply hs.of_workers hmutex htasks
    · intro hstop
      obtain ⟨-, hset, -⟩ | ⟨hcalled, hkeep, -⟩ := hcases
      · rw [hset] at hstop
        exact nomatch hstop
      · rw [hkeep] at hstop
        exact absurd (hs.dtor_called hstop) hcalled
    · intro i pc hi hq
      obtain ⟨-, -, hw⟩ | ⟨-, -, hw | hw⟩ := hcases
      · rwa [hw] at hi
      · rwa [hw] at hi
      · rw [hw] at hi
        exact getElem?_notifyAll hi hq

/-- What the start has and every step keeps holds in every reachable state. -/
theorem reachable_invariant {I : State → Prop} {min max exitThread : Int}
    (hstart : I (start min max exitThread))
    (hkeep : ∀ {s s' : State} {a : Action}, I s → step s a = some s' → I s') {s : State}
    (h : (system min max exitThread).Reachable s) : I s := by
  apply h.invariant
  · intro s hs
    rw [show s = start min max exitThread from hs]
    exact hstart
  · intro s a s' hs hstep
    have hstep : step s a = some s' := hstep
    exact hkeep hs hstep

/-- A sleeper is woken by the notification that selects it. -/
theorem notifyOne_of_asleep {ws : List WorkerPc} {i : Nat} (h : ws[i]? = some .asleep) :
    notifyOne ws i = some (ws.set i .woken) := by
  have hany : ws.any WorkerPc.isAsleep = true :=
    List.any_eq_true.mpr ⟨.asleep, List.mem_of_getElem? h, rfl⟩
  rw [notifyOne, if_pos hany, if_pos h]

/-- A spurious wake-up is a notification that no `addTask` has sent. -/
theorem wakingStep_cases {s s' : State} {a : WakingAction} (h : wakingStep s a = some s') :
    (∃ b, a = .pool b ∧ step s b = some s') ∨
    (∃ i, a = .wake i ∧
      step { s with pendingNotify := s.pendingNotify + 1 } (.notifyOne i) = some s') := by
  cases a with
  | pool b => exact .inl ⟨b, rfl, h⟩
  | wake i =>
    obtain ⟨hasleep, hs⟩ := Option.ite_none_right_eq_some.mp h
    cases hs
    refine .inr ⟨i, rfl, ?_⟩
    simp [step, notifyOne_of_asleep hasleep, State.goto]

/-- What does not depend on the notifications on their way survives the spurious ones as well. -/
theorem wakingStep_invariant {I : State → Prop}
    (hpending : ∀ {s : State} n, I s → I { s with pendingNotify := n })
    (hkeep : ∀ {s s' : State} {a : Action}, I s → step s a = some s' → I s') {s s' : State}
    {a : WakingAction} (hs : I s) (h : wakingStep s a = some s') : I s' := by
  obtain ⟨b, -, hstep⟩ | ⟨i, -, hstep⟩ := wakingStep_cases h
  · exact hkeep hs hstep
  · exact hkeep (hpending _ hs) hstep

theorem reachable_waking {I : State → Prop} {min max exitThread : Int}
    (hstart : I (start min max exitThread))
    (hkeep : ∀ {s s' : State} {a : WakingAction}, I s → wakingStep s a = some s' → I s')
    {s : State} (h : (wakingSystem min max exitThread).Reachable s) : I s := by
  apply h.invariant
  · intro s hs
    rw [show s = start min max exitThread from hs]
    exact hstart
  · intro s a s' hs hstep
    have hstep : wakingStep s a = some s' := hstep
    exact hkeep hs hstep

/-- What is reached without spurious wake-ups is reached on a machine that has them. -/
theorem waking_of_reachable {min max exitThread : Int} {s : State}
    (h : (system min max exitThread).Reachable s) : (wakingSystem min max exitThread).Reachable s :=
  reachable_invariant (I := (wakingSystem min max exitThread).Reachable)
    (Transition.Reachable.of_init _ rfl)
    (fun {_ _ a} hs hstep => hs.step (a := .pool a) hstep) h

/-- The invariant holds in every reachable state. -/
theorem reachable_locked {min max exitThread : Int} {s : State}
    (h : (system min max exitThread).Reachable s) : Locked s :=
  reachable_invariant (start_locked min max exitThread) step_locked h

end ThreadPool
