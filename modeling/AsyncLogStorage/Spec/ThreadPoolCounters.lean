import AsyncLogStorage.Spec.ThreadPoolMinimum

/-!
# The counters of the thread pool

The counters are updated one after the other, by different threads, and the manager counts
a worker only after it has started it. What each of them is short by follows from where
the threads are: the worker that is in between its exit updates or about to run its task,
and the manager that has started a thread.

## Key results

- `workerStepAt_counts`, `managerStep_counts`: every step moves the counters by what it makes of
  the positions
- `reachable_counters`: before the stop the counters are exact wherever no thread is in between
  two updates
-/

namespace ThreadPool

/-! ## What the counters count -/

/-- The worker has its place in the pool: it has started and has not given the place up on its
    way out. -/
def WorkerPc.enrolled : WorkerPc → Bool
  | .exitIdle | .exitTok | .exitLockIds | .exitPush | .exitUnlockIds | .exitUnlockQueue
  | .exited => false
  | _ => true

/-- The worker has a task, from the pop until it counts itself idle again. -/
def WorkerPc.executing : WorkerPc → Bool
  | .release (some task) => task.callable
  | .runDec _ | .running _ | .runInc => true
  | _ => false

/-- The worker is one of those that `m_idleThread` counts. -/
def WorkerPc.countedIdle : WorkerPc → Bool
  | .running _ | .runInc | .exitTok | .exitLockIds | .exitPush | .exitUnlockIds
  | .exitUnlockQueue | .exited => false
  | _ => true

/-- The worker is between `m_curThread--` and `m_idleThread--` of its exit, or between the pop of
    a task and its `m_idleThread--`. -/
def WorkerPc.updating : WorkerPc → Bool
  | .exitIdle | .runDec _ => true
  | .release (some task) => task.callable
  | _ => false

/-- The manager has started a thread and not counted it in both counters. -/
def ManagerPc.updating : ManagerPc → Bool
  | .insert _ | .incCur | .incIdle => true
  | _ => false

/-- No thread is in between two of its counter updates. -/
structure Settled (s : State) : Prop where
  workers : ∀ pc ∈ s.workers, pc.updating = false
  manager : s.manager.updating = false

/-- What `m_curThread` is short by while the manager starts a thread. -/
def ManagerPc.owesCur : ManagerPc → Int
  | .insert _ | .incCur => 1
  | _ => 0

/-- What `m_idleThread` is short by. -/
def ManagerPc.owesIdle : ManagerPc → Int
  | .insert _ | .incCur | .incIdle => 1
  | _ => 0

/-- The manager has decided on another thread and not counted it yet. -/
def ManagerPc.growing : ManagerPc → Bool
  | .spawn | .insert _ | .incCur => true
  | _ => false

theorem WorkerPc.enrolled_notified (pc : WorkerPc) : pc.notified.enrolled = pc.enrolled := by
  cases pc <;> rfl

theorem WorkerPc.countedIdle_notified (pc : WorkerPc) :
    pc.notified.countedIdle = pc.countedIdle := by
  cases pc <;> rfl

/-! ## The steps -/

/-- A step of a worker before the stop moves both counters as it moves the worker. -/
theorem workerStepAt_counts {s s' : State} {i : Nat} {pc : WorkerPc} (hstop : s.stop = false)
    (h : workerStepAt s i pc = some s') :
    s'.curThread = s.curThread + (pc.next s).enrolled.toNat - pc.enrolled.toNat ∧
    s'.idleThread = s.idleThread + (pc.next s).countedIdle.toNat - pc.countedIdle.toNat ∧
    s'.maxThread = s.maxThread := by
  cases pc with
  | asleep | exited => cases h
  | acquire | woken | exitLockIds =>
    obtain ⟨-, hs⟩ := Option.ite_none_right_eq_some.mp h
    cases hs
    simp [State.goto, WorkerPc.next, WorkerPc.enrolled, WorkerPc.countedIdle]
  | loopHead =>
    cases h
    simp [State.goto, WorkerPc.next, hstop, WorkerPc.enrolled, WorkerPc.countedIdle]
  -- both ways on count the worker alike
  | testWait | checkExit =>
    cases h
    simp only [State.goto, WorkerPc.next]
    split <;> simp [WorkerPc.enrolled, WorkerPc.countedIdle]
  | take =>
    simp only [workerStepAt] at h
    split at h
    all_goals
      cases h
      simp [State.goto, WorkerPc.next, WorkerPc.enrolled, WorkerPc.countedIdle]
  | release task =>
    cases h
    cases task with
    | none => simp [State.goto, WorkerPc.next, WorkerPc.enrolled, WorkerPc.countedIdle]
    -- the worker stays idle whether or not it will run the task
    | some t =>
      simp only [State.goto, WorkerPc.next]
      split <;> simp [WorkerPc.enrolled, WorkerPc.countedIdle]
  | _ =>
    cases h
    simp [State.goto, WorkerPc.next, WorkerPc.enrolled, WorkerPc.countedIdle]

/-- A worker gives its place up and never takes one. -/
theorem WorkerPc.enrolled_next (s : State) (pc : WorkerPc) :
    (pc.next s).enrolled.toNat ≤ pc.enrolled.toNat := by
  cases pc with
  | exitIdle | exitTok | exitLockIds | exitPush | exitUnlockIds | exitUnlockQueue | exited =>
    exact Nat.le_refl _
  | _ => exact Bool.toNat_le _

/-- The manager counts a thread that it has started, and then counts it as idle. -/
theorem managerStep_increments {s s' : State} (h : managerStep s = some s') :
    s'.curThread = (if s.manager = .incCur then s.curThread + 1 else s.curThread) ∧
    s'.idleThread = (if s.manager = .incIdle then s.idleThread + 1 else s.idleThread) ∧
    s'.maxThread = s.maxThread := by
  cases hm : s.manager with
  | exited =>
    simp only [managerStep, hm] at h
    cases h
  | lockIds | reapJoin =>
    simp only [managerStep, hm] at h
    obtain ⟨-, hs⟩ := Option.ite_none_right_eq_some.mp h
    cases hs
    exact ⟨rfl, rfl, rfl⟩
  | reap ids =>
    cases ids with
    | nil =>
      simp only [managerStep, hm] at h
      cases h
      exact ⟨rfl, rfl, rfl⟩
    | cons id rest =>
      simp only [managerStep, hm] at h
      cases h
      exact ⟨rfl, rfl, rfl⟩
  | _ =>
    simp only [managerStep, hm] at h
    cases h
    exact ⟨rfl, rfl, rfl⟩

/-- From the start of a thread on, each counter is short by one until it is incremented. -/
theorem ManagerPc.owes_next (s : State) (pc : ManagerPc) :
    (pc.next s).owesCur = pc.owesCur + (if pc = .spawn then 1 else 0) -
      (if pc = .incCur then 1 else 0) ∧
    (pc.next s).owesIdle = pc.owesIdle + (if pc = .spawn then 1 else 0) -
      (if pc = .incIdle then 1 else 0) := by
  have hgoes := pc.goes_next s
  generalize pc.next s = pc' at hgoes ⊢
  cases hgoes <;> exact ⟨rfl, rfl⟩

/-- A new worker is one more at the head of its loop, and a notification counts nobody. -/
theorem managerStep_countP {s s' : State} {p : WorkerPc → Bool}
    (hnotified : ∀ pc : WorkerPc, p pc.notified = p pc) (hhead : p .loopHead = true)
    (h : managerStep s = some s') :
    (s'.workers.countP p : Int) =
      s.workers.countP p + (if s.manager = .spawn then 1 else 0) := by
  by_cases hm : s.manager = .spawn
  · simp only [managerStep, hm] at h
    cases h
    rw [if_pos hm, List.countP_append, List.countP_singleton, if_pos hhead]
    rfl
  · rw [if_neg hm, Int.add_zero]
    obtain ⟨-, -, -, -, -, ⟨-, hw⟩ | ⟨hspawn, -⟩ | ⟨-, hw⟩⟩ := managerStep_frame h
    · rw [hw, countP_notifyAll hnotified]
    · exact absurd hspawn hm
    · rw [hw]

/-- A step of the manager leaves what each counter is short by. -/
theorem managerStep_counts {s s' : State} (h : managerStep s = some s') :
    s'.curThread + s'.manager.owesCur - s'.workers.countP WorkerPc.enrolled =
      s.curThread + s.manager.owesCur - s.workers.countP WorkerPc.enrolled ∧
    s'.idleThread + s'.manager.owesIdle - s'.workers.countP WorkerPc.countedIdle =
      s.idleThread + s.manager.owesIdle - s.workers.countP WorkerPc.countedIdle ∧
    s'.maxThread = s.maxThread ∧
    s'.curThread = if s.manager = .incCur then s.curThread + 1 else s.curThread := by
  obtain ⟨hcur, hidle, hmax⟩ := managerStep_increments h
  obtain ⟨howes, howesIdle⟩ := ManagerPc.owes_next s s.manager
  have henrolled := managerStep_countP WorkerPc.enrolled_notified rfl h
  have hcounted := managerStep_countP WorkerPc.countedIdle_notified rfl h
  rw [(managerStep_moves h).manager, howes, howesIdle, henrolled, hcounted, hcur, hidle]
  refine ⟨?_, ?_, hmax, rfl⟩
  · split <;> omega
  · split <;> omega

/-- The manager has just read `m_curThread` when it comes to its branch. -/
theorem ManagerPc.next_eq_branch {s : State} {pc : ManagerPc} {idel cur : Int}
    (h : pc.next s = .branch idel cur) : cur = s.curThread := by
  have hgoes := pc.goes_next s
  rw [h] at hgoes
  cases hgoes with
  | loadCur => rfl

/-- It decides on another thread only below the maximum. -/
theorem ManagerPc.growing_next {s : State} {pc : ManagerPc} (h : (pc.next s).growing = true) :
    (∃ idel cur, pc = .branch idel cur ∧ cur < s.maxThread) ∨
      (pc.growing = true ∧ pc ≠ .incCur) := by
  have hgoes := pc.goes_next s
  generalize pc.next s = pc' at h hgoes
  cases hgoes with
  | grow _ hmax => exact .inl ⟨_, _, rfl, hmax⟩
  | spawn | insert => exact .inr ⟨rfl, by simp⟩
  | _ => cases h

/-! ## The invariant -/

/-- Up to what the manager has not counted yet, the counters are exact. The manager counts
    another worker only below the maximum, although `m_curThread` may have changed since it
    read it. -/
structure Counters (max : Int) (s : State) : Prop where
  cur : s.curThread + s.manager.owesCur = s.workers.countP WorkerPc.enrolled
  idle : s.idleThread + s.manager.owesIdle = s.workers.countP WorkerPc.countedIdle
  maxThread : s.maxThread = max
  curMax : s.curThread ≤ max
  branch : ∀ idel cur, s.manager = .branch idel cur → s.curThread ≤ cur
  growing : s.manager.growing = true → s.curThread < max

theorem start_counters {min max : Int} (exitThread : Int) (hmin : 0 ≤ min) (hmax : min ≤ max) :
    Counters max (start min max exitThread) := by
  have hcount : ∀ p : WorkerPc → Bool, p .loopHead = true →
      min + 0 = (start min max exitThread).workers.countP p := by
    intro p hp
    have hall : (start min max exitThread).workers.countP p = min.toNat := by
      simp [start, List.countP_replicate, hp]
    omega
  refine ⟨hcount _ rfl, hcount _ rfl, rfl, hmax, ?_, ?_⟩
  · intro idel cur hm
    cases hm
  · intro hm
    cases hm

private theorem workerStep_counters {max : Int} {s s' : State} {i : Nat} (hs : Counters max s)
    (hstop : s.stop = false) (h : workerStep s i = some s') : Counters max s' := by
  obtain ⟨pc, hpc, hstep, hframe⟩ := workerStep_frame h
  obtain ⟨hcur, hidle, hmax⟩ := workerStepAt_counts hstop hstep
  have hcurCount := hframe.countP_toNat WorkerPc.enrolled hpc
  have hidleCount := hframe.countP_toNat WorkerPc.countedIdle hpc
  -- what the manager relies on can only get better
  have hle : s'.curThread ≤ s.curThread := by
    have := WorkerPc.enrolled_next s pc
    omega
  have hcurOld := hs.cur
  have hidleOld := hs.idle
  have hcurMax := hs.curMax
  constructor
  · rw [hframe.manager]
    omega
  · rw [hframe.manager]
    omega
  · exact hmax.trans hs.maxThread
  · omega
  · intro idel cur hm
    rw [hframe.manager] at hm
    have := hs.branch idel cur hm
    omega
  · intro hm
    rw [hframe.manager] at hm
    have := hs.growing hm
    omega

private theorem managerStep_counters {max : Int} {s s' : State} (hs : Counters max s)
    (h : managerStep s = some s') : Counters max s' := by
  obtain ⟨hcur, hidle, hmax, hcount⟩ := managerStep_counts h
  have hnext := (managerStep_moves h).manager
  have hcurOld := hs.cur
  have hidleOld := hs.idle
  have hmaxOld := hs.maxThread
  constructor
  · omega
  · omega
  · exact hmax.trans hs.maxThread
  · -- the manager counts a worker only while it is growing the pool
    have hcurMax := hs.curMax
    split at hcount
    · rename_i hinc
      have := hs.growing (by rw [hinc]; rfl)
      omega
    · omega
  · intro idel cur hm
    rw [hnext] at hm
    have hread := ManagerPc.next_eq_branch hm
    split at hcount
    · rename_i hinc
      rw [hinc] at hm
      cases hm
    · omega
  · intro hm
    rw [hnext] at hm
    obtain ⟨idel, cur, hbranch, hlt⟩ | ⟨hgrowing, hne⟩ := ManagerPc.growing_next hm
    · -- `m_curThread` has not grown since the manager read it
      have hread := hs.branch idel cur hbranch
      rw [if_neg (by rw [hbranch]; simp)] at hcount
      omega
    · have := hs.growing hgrowing
      rw [if_neg hne] at hcount
      omega

theorem step_counters {max : Int} {s s' : State} {a : Action} (hlocked : Locked s)
    (hs : Counters max s) (hstop : s.stop = false) (hstop' : s'.stop = false)
    (h : step s a = some s') : Counters max s' := by
  obtain ⟨task, -, -, rfl⟩ | ⟨sel, ws, -, -, hws, rfl⟩ | ⟨i, -, h⟩ | ⟨-, h⟩ | ⟨sel, -, h⟩ :=
    step_cases h
  · exact ⟨hs.cur, hs.idle, hs.maxThread, hs.curMax, hs.branch, hs.growing⟩
  · refine ⟨?_, ?_, hs.maxThread, hs.curMax, hs.branch, hs.growing⟩
    · rw [countP_notifyOne WorkerPc.enrolled_notified hws]
      exact hs.cur
    · rw [countP_notifyOne WorkerPc.countedIdle_notified hws]
      exact hs.idle
  · exact workerStep_counters hs hstop h
  · exact managerStep_counters hs h
  · -- the destructor has not been called, and its first step sets the flag
    obtain ⟨-, -, -, ⟨-, hset, -⟩ | ⟨hcalled, -, -⟩⟩ := dtorStep_frame h
    · rw [hset] at hstop'
      cases hstop'
    · exact absurd (hlocked.dtor_called hstop) hcalled

theorem reachable_counters_inv {min max exitThread : Int} (hmin : 0 ≤ min) (hmax : min ≤ max)
    {s : State} (h : (wakingSystem min max exitThread).Reachable s) :
    Locked s ∧ (s.stop = false → Counters max s) := by
  refine reachable_waking (I := fun s => Locked s ∧ (s.stop = false → Counters max s)) ?_ ?_ h
  · exact ⟨start_locked min max exitThread, fun _ => start_counters exitThread hmin hmax⟩
  · intro s s' a hs hstep
    refine wakingStep_invariant (I := fun s => Locked s ∧ (s.stop = false → Counters max s))
      ?_ ?_ hs hstep
    · intro s n ⟨hlocked, hcounters⟩
      refine ⟨⟨hlocked.holder, hlocked.block_empty, hlocked.dtor_called⟩, fun hstop => ?_⟩
      have hs := hcounters hstop
      exact ⟨hs.cur, hs.idle, hs.maxThread, hs.curMax, hs.branch, hs.growing⟩
    · intro s s' a ⟨hlocked, hcounters⟩ hstep
      refine ⟨step_locked hlocked hstep, fun hstop' => ?_⟩
      cases hstop : s.stop with
      | true =>
        rw [step_stop hstep hstop] at hstop'
        cases hstop'
      | false => exact step_counters hlocked (hcounters hstop) hstop hstop' hstep

/-! ## Between the updates -/

/-- A worker that is not in between two updates is counted idle exactly if it has its place and
    no task. -/
theorem WorkerPc.countedIdle_of_settled {pc : WorkerPc} (h : pc.updating = false) :
    pc.countedIdle = (pc.enrolled && !pc.executing) := by
  cases pc with
  | exitIdle | runDec => cases h
  | release task =>
    cases task with
    | none => rfl
    | some t =>
      have hcallable : t.callable = false := h
      simp [countedIdle, enrolled, executing, hcallable]
  | _ => rfl

/-- Before the stop the counters are exact in every state in which no thread is in between two of
    its updates: `m_curThread` is the number of workers with a place in the pool, `m_idleThread`
    the number of those without a task, and there are no more workers than the maximum. -/
theorem reachable_counters {min max exitThread : Int} (hmin : 0 ≤ min) (hmax : min ≤ max)
    {s : State} (h : (wakingSystem min max exitThread).Reachable s) (hstop : s.stop = false)
    (hsettled : Settled s) :
    s.curThread = s.workers.countP WorkerPc.enrolled ∧
    s.idleThread = s.workers.countP (fun pc => pc.enrolled && !pc.executing) ∧
    0 ≤ s.idleThread ∧ s.idleThread ≤ s.curThread ∧ s.curThread ≤ s.maxThread := by
  have hs := (reachable_counters_inv hmin hmax h).2 hstop
  have hcur := hs.cur
  have hidle := hs.idle
  -- a settled manager owes nothing
  have howes : s.manager.owesCur = 0 ∧ s.manager.owesIdle = 0 := by
    have hmanager := hsettled.manager
    cases hm : s.manager with
    | insert tid | incCur | incIdle =>
      rw [hm] at hmanager
      cases hmanager
    | _ => exact ⟨rfl, rfl⟩
  have hcount : s.workers.countP WorkerPc.countedIdle =
      s.workers.countP (fun pc => pc.enrolled && !pc.executing) :=
    List.countP_congr fun pc hpc => by
      rw [WorkerPc.countedIdle_of_settled (hsettled.workers pc hpc)]
  have hle : s.workers.countP (fun pc => pc.enrolled && !pc.executing) ≤
      s.workers.countP WorkerPc.enrolled :=
    List.countP_mono_left fun pc _ hpc => (Bool.and_eq_true_iff.mp hpc).1
  have hmaxThread := hs.maxThread
  have hcurMax := hs.curMax
  refine ⟨?_, ?_, ?_, ?_, ?_⟩ <;> omega

/-- A worker runs a task and the manager has started another one. -/
theorem reachable_counters_two :
    ∃ s : State, s.workers = [.running ⟨0, true⟩, .loopHead] ∧ s.curThread = 2 ∧ s.idleThread = 1 ∧
      s.curThread = s.workers.countP WorkerPc.enrolled ∧
      s.idleThread = s.workers.countP (fun pc => pc.enrolled && !pc.executing) ∧
      0 ≤ s.idleThread ∧ s.idleThread ≤ s.curThread ∧ s.curThread ≤ s.maxThread := by
  have hrun : ((wakingSystem 1 2 0).run (start 1 2 0) (.pool (.addTask ⟨0, true⟩) ::
      List.replicate 6 (.pool (.worker 0)) ++ List.replicate 9 (.pool .manager))).any (fun s =>
        decide (s.workers = [.running ⟨0, true⟩, .loopHead] ∧ s.curThread = 2 ∧
          s.idleThread = 1 ∧ s.stop = false ∧ s.manager = .loopHead)) = true := by
    decide +kernel
  obtain ⟨s, hreach, hworkers, hcur, hidle, hstop, hmanager⟩ :=
    Transition.exists_reachable_of_run rfl hrun
  have hsettled : Settled s := by
    constructor
    · rw [hworkers]
      simp [WorkerPc.updating]
    · rw [hmanager]
      rfl
  exact ⟨s, hworkers, hcur, hidle,
    reachable_counters (by decide) (by decide) hreach hstop hsettled⟩

/-- With a minimum of `-1` no worker is started, and `m_curThread` is `-1`. -/
theorem counters_negative_minimum :
    ¬∀ (min max exitThread : Int) (s : State), min ≤ max →
      (wakingSystem min max exitThread).Reachable s → s.stop = false → Settled s →
      s.curThread = s.workers.countP WorkerPc.enrolled ∧
      s.idleThread = s.workers.countP (fun pc => pc.enrolled && !pc.executing) ∧
      0 ≤ s.idleThread ∧ s.idleThread ≤ s.curThread ∧ s.curThread ≤ s.maxThread := by
  intro h
  have hsettled : Settled (start (-1) 4 0) := ⟨nofun, rfl⟩
  obtain ⟨-, -, hidle, -, -⟩ := h (-1) 4 0 (start (-1) 4 0) (by decide)
    (Transition.Reachable.of_init _ rfl) rfl hsettled
  exact absurd hidle (by decide)

end ThreadPool
