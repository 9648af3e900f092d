import AsyncLogStorage.Native.AsyncWorkerWait
import AsyncLogStorage.Spec.AsyncWorkerInvariant
import AsyncLogStorage.Spec.ThreadPoolInvariant

/-!
# Stop requests that a sleeper misses

`~ThreadPool` and `AsyncWorker::Stop` set their flag and notify without the mutex of the
condition variable. A thread that has found the flag clear under the mutex and has not
blocked yet is notified too early: it blocks behind the notification, and nobody sends
another one.

## Key results

- `ThreadPool.step_missed_iff`, `AsyncWorker.waitStep_missed_iff`: only a thread that blocks
  after the notification misses the stop
- `stop_missed_iff`: no state of a run misses a stop exactly when no thread blocks like that
-/

namespace ThreadPool

/-- The destructor is past its `notify_all`. -/
def DtorPc.pastNotify : DtorPc → Bool
  | .notCalled | .notifyAll => false
  | _ => true

/-- The manager has decided to let threads exit and will send its `notify_all`. -/
def ManagerNotifies (s : State) : Prop :=
  match s.manager with
  | .branch idel cur => cur.tdiv 2 < idel ∧ s.minThread < cur
  | .storeExit | .notifyAll => True
  | _ => False

/-- A worker sleeps behind the destructor's `notify_all`, and the manager sends no other. -/
def StopMissed (s : State) : Prop :=
  s.dtor.pastNotify = true ∧ .asleep ∈ s.workers ∧ ¬ManagerNotifies s

/-- No worker whose test said to wait blocks behind the destructor's `notify_all`, unless
    the manager is about to notify. -/
def BlocksInTime (s : State) (a : Action) : Prop :=
  ∀ i, a = .worker i → s.workers[i]? = some .block → s.dtor.pastNotify = true → ManagerNotifies s

/-- Only a worker at its wait goes to sleep. -/
theorem WorkerPc.next_eq_asleep {s : State} {pc : WorkerPc} (h : pc.next s = .asleep)
    (hpc : pc ≠ .asleep) : pc = .block := by
  have hgoes := pc.goes_next s
  rw [h] at hgoes
  cases hgoes with
  | block => rfl
  | asleep => exact absurd rfl hpc

/-- The manager leaves its exit branch through the notification only. -/
theorem managerNotifies_next {s s' : State} (h : managerStep s = some s')
    (hnotifies : ManagerNotifies s) : s.manager = .notifyAll ∨ ManagerNotifies s' := by
  have hframe := managerStep_moves h
  unfold ManagerNotifies at hnotifies ⊢
  rw [hframe.manager]
  cases hm : s.manager with
  | notifyAll => exact .inl rfl
  | storeExit => exact .inr trivial
  | branch idel cur =>
    rw [hm] at hnotifies
    have hexits : cur.tdiv 2 < idel ∧ s.minThread < cur := hnotifies
    right
    simp only [ManagerPc.next, managerBranch, if_pos hexits]
  | _ =>
    rw [hm] at hnotifies
    exact hnotifies.elim

/-- The destructor gets past its notification by sending it. -/
theorem dtorStep_pastNotify {s s' : State} {sel : Nat} (h : dtorStep s sel = some s')
    (hd : s'.dtor.pastNotify = true) :
    (s.dtor.pastNotify = true ∧ s'.workers = s.workers) ∨
      (s.dtor = .notifyAll ∧ s'.workers = notifyAll s.workers) := by
  unfold dtorStep at h
  split at h
  case h_1 =>
    cases h
    cases hd
  case h_2 hdtor =>
    cases h
    exact .inr ⟨hdtor, rfl⟩
  all_goals
    rename_i hdtor
    left
    rw [hdtor]
    repeat' split at h
    all_goals
      cases h
      try exact ⟨rfl, rfl⟩

/-- The bounds of the pool stay as they are. -/
theorem step_minThread {s s' : State} {a : Action} (h : step s a = some s') :
    s'.minThread = s.minThread := by
  obtain ⟨task, -, -, rfl⟩ | ⟨sel, ws, -, -, -, rfl⟩ | ⟨i, -, h⟩ | ⟨-, h⟩ | ⟨sel, -, h⟩ :=
    step_cases h
  · rfl
  · rfl
  · obtain ⟨pc, -, hstep, -⟩ := workerStep_frame h
    unfold workerStepAt at hstep
    repeat' split at hstep
    all_goals
      cases hstep
      try rfl
  · unfold managerStep at h
    repeat' split at h
    all_goals
      cases h
      try rfl
  · exact (dtorStep_counters h).1

/-- As long as the manager does not move it goes on with what it has decided. -/
private theorem managerNotifies_iff {s s' : State} (hm : s'.manager = s.manager)
    (hmin : s'.minThread = s.minThread) : ManagerNotifies s' ↔ ManagerNotifies s := by
  unfold ManagerNotifies
  rw [hm, hmin]

/-- What a worker step makes of the sleepers. -/
private theorem workerStep_asleep_iff {s s' : State} {i : Nat} {pc : WorkerPc}
    (hpc : s.workers[i]? = some pc) (hstep : workerStepAt s i pc = some s')
    (hframe : WorkerFrame s s' i pc) :
    .asleep ∈ s'.workers ↔ .asleep ∈ s.workers ∨ pc = .block := by
  have hlt : i < s.workers.length := (List.getElem?_eq_some_iff.mp hpc).1
  have hne : pc ≠ .asleep := by
    rintro rfl
    cases hstep
  rw [hframe.workers]
  constructor
  · intro hmem
    obtain hmem | heq := List.mem_or_eq_of_mem_set hmem
    · exact .inl hmem
    · exact .inr (WorkerPc.next_eq_asleep heq.symm hne)
  · rintro (hmem | rfl)
    · obtain hmem | heq := List.mem_set_or_eq (b := pc.next s) hmem hpc
      · exact hmem
      · exact absurd heq.symm hne
    · exact List.mem_set hlt _

/-- The manager wakes those that sleep before it goes back to its loop. -/
private theorem managerStep_missed {s s' : State} (hs : ¬StopMissed s)
    (h : managerStep s = some s') : ¬StopMissed s' := by
  rintro ⟨hd, hmem, hm⟩
  obtain ⟨-, -, -, -, hdtor, hworkers⟩ := managerStep_frame h
  rw [hdtor] at hd
  have hbefore : .asleep ∈ s.workers := by
    obtain ⟨-, hw⟩ | ⟨-, hw⟩ | ⟨-, hw⟩ := hworkers
    · rw [hw] at hmem
      exact absurd hmem (asleep_not_mem_notifyAll _)
    · rw [hw, List.mem_append] at hmem
      exact hmem.resolve_right (by simp)
    · rwa [hw] at hmem
  -- the manager was about to notify, and after the notification nobody sleeps
  have hnotifies : ManagerNotifies s := Classical.byContradiction fun hm => hs ⟨hd, hbefore, hm⟩
  obtain hnotify | hafter := managerNotifies_next h hnotifies
  · obtain ⟨-, hw⟩ | ⟨hspawn, -⟩ | ⟨hne, -⟩ := hworkers
    · rw [hw] at hmem
      exact asleep_not_mem_notifyAll _ hmem
    · rw [hnotify] at hspawn
      cases hspawn
    · exact hne hnotify
  · exact hm hafter

/-- The destructor puts nobody to sleep. -/
private theorem dtorStep_missed {s s' : State} {sel : Nat} (hs : ¬StopMissed s)
    (h : dtorStep s sel = some s') (hmin : s'.minThread = s.minThread) : ¬StopMissed s' := by
  rintro ⟨hd, hmem, hm⟩
  obtain ⟨-, -, -, -, -, hmanager⟩ := dtorStep_counters h
  rw [managerNotifies_iff hmanager hmin] at hm
  obtain ⟨hbefore, hpast⟩ | ⟨-, hw⟩ := dtorStep_pastNotify h hd
  · rw [hpast] at hmem
    exact hs ⟨hbefore, hmem, hm⟩
  · rw [hw] at hmem
    exact asleep_not_mem_notifyAll _ hmem

/-- A state that misses no stop is followed by one that does exactly when a worker blocks
    behind the notification. -/
theorem step_missed_iff {s s' : State} {a : Action} (hs : ¬StopMissed s)
    (h : step s a = some s') : ¬StopMissed s' ↔ BlocksInTime s a := by
  have hmin := step_minThread h
  obtain ⟨task, rfl, -, rfl⟩ | ⟨sel, ws, rfl, -, hws, rfl⟩ | ⟨i, rfl, h⟩ | ⟨rfl, h⟩ |
    ⟨sel, rfl, h⟩ := step_cases h
  · exact iff_of_true hs (by simp [BlocksInTime])
  · -- a notification puts nobody to sleep
    refine iff_of_true ?_ (by simp [BlocksInTime])
    rintro ⟨hd, hmem, hm⟩
    obtain ⟨-, rfl⟩ | ⟨-, rfl⟩ := notifyOne_cases hws
    · obtain hmem | heq := List.mem_or_eq_of_mem_set hmem
      · exact hs ⟨hd, hmem, hm⟩
      · cases heq
    · exact hs ⟨hd, hmem, hm⟩
  · obtain ⟨pc, hpc, hstep, hframe⟩ := workerStep_frame h
    have hasleep := workerStep_asleep_iff hpc hstep hframe
    have hnotifies := managerNotifies_iff hframe.manager hmin
    simp only [StopMissed, hframe.dtor, hasleep, hnotifies] at hs ⊢
    simp only [BlocksInTime, Action.worker.injEq, forall_eq', hpc, Option.some.injEq]
    constructor
    · intro hnot hblock hd
      exact Classical.byContradiction fun hm => hnot ⟨hd, .inr hblock, hm⟩
    · rintro hin ⟨hd, hmem | hblock, hm⟩
      · exact hs ⟨hd, hmem, hm⟩
      · exact hm (hin hblock hd)
  · exact iff_of_true (managerStep_missed hs h) (by simp [BlocksInTime])
  · exact iff_of_true (dtorStep_missed hs h hmin) (by simp [BlocksInTime])

/-- No state of a run misses the stop exactly when every worker blocks in time. -/
theorem missed_iff (min max exitThread : Int) (as : List Action) :
    (system min max exitThread).Always (fun s => ¬StopMissed s) (start min max exitThread) as ↔
      (system min max exitThread).AllSteps BlocksInTime (start min max exitThread) as := by
  refine Transition.always_iff_allSteps (I := fun _ => True) ?_ ?_ ?_ trivial ?_
  · exact fun _ _ _ _ _ => trivial
  · -- a worker at its wait can always take its step
    intro s a hstep i ha hblock
    rw [ha] at hstep
    have hstep : workerStep s i = none := hstep
    simp only [workerStep, hblock, Option.bind_some, workerStepAt] at hstep
    cases hstep
  · intro s a s' _ hs hstep
    have hstep : step s a = some s' := hstep
    exact step_missed_iff hs hstep
  · rintro ⟨hd, -, -⟩
    cases hd

end ThreadPool

namespace Mylog.AsyncWorker

/-- `Stop` is past its `notify_all`. -/
def StopPc.pastNotify : StopPc → Bool
  | .join | .returned => true
  | _ => false

/-- The worker sleeps behind the `notify_all` of `Stop`, and no producer is about to send
    its own notification. -/
def StopMissed (s : WaitState) : Prop :=
  s.state.stopCaller.pastNotify = true ∧ s.state.worker = .asleep ∧ .notify ∉ s.state.producers

/-- The worker does not block behind the `notify_all` of `Stop`, unless a producer is about
    to send its notification. -/
def BlocksInTime (s : WaitState) (a : Action) : Prop :=
  ∀ sel, a = .worker sel → s.blocking = true → s.state.stopCaller.pastNotify = true →
    .notify ∈ s.state.producers

variable {cfg : LogConfig} {type : AsyncType}

theorem WorkerPc.notified_ne_asleep (pc : WorkerPc) : pc.notified ≠ .asleep := by
  cases pc <;> simp [notified]

/-- A section of a producer leaves the worker and the caller of `Stop`, and the notifications
    that other producers are about to send. -/
private theorem section_frame {s s' : State} {i : Nat} {data : Bytes} {a : Action}
    (hsec : sectionOf s a = some (i, data)) (h : PushOutcome cfg type s i data s') :
    s'.worker = s.worker ∧ s'.stopCaller = s.stopCaller ∧
      (.notify ∈ s.producers → .notify ∈ s'.producers) := by
  -- the producer itself is not among them
  have hother : ∀ pc, .notify ∈ s.producers → .notify ∈ s.producers.set i pc := by
    intro pc hmem
    have hself : ∃ own, s.producers[i]? = some own ∧ own ≠ .notify := by
      unfold sectionOf at hsec
      split at hsec
      · obtain ⟨⟨hidle, -⟩, heq⟩ := Option.ite_none_right_eq_some.mp hsec
        cases heq
        exact ⟨.idle, hidle, by simp⟩
      · split at hsec
        · rename_i record hwoken
          cases hsec
          exact ⟨.woken data, hwoken, by simp⟩
        · cases hsec
      · cases hsec
    obtain ⟨own, hown, hne⟩ := hself
    exact (List.mem_set_or_eq hmem hown).resolve_right hne.symm
  cases h with
  | leave => exact ⟨rfl, rfl, hother _⟩
  | block => exact ⟨rfl, rfl, hother _⟩
  | write => exact ⟨rfl, rfl, hother _⟩

/-- A worker that does not block stays awake. -/
private theorem workerStep_awake {s s' : State} {sel : Nat} (hblock : ¬WillBlock s)
    (h : workerStep type s sel = some s') : s'.worker ≠ .asleep := by
  obtain ⟨-, rfl⟩ | ⟨hw, h⟩ | ⟨-, rfl⟩ | ⟨-, rfl⟩ | ⟨-, rfl⟩ | ⟨-, rfl⟩ := workerStep_cases h
  · show ite _ _ _ ≠ _
    split <;> simp
  · obtain ⟨-, ps, -, -, rfl⟩ | ⟨hempty, hstop, -⟩ := waitSection_cases h
    · simp
    · exact absurd ⟨hw, hempty, hstop⟩ hblock
  · simp
  · simp
  · show ite _ _ _ ≠ _
    split <;> simp
  · show ite _ _ _ ≠ _
    split <;> simp

/-- A producer that runs its section neither wakes the worker nor puts it to sleep. -/
private theorem section_missed {s : WaitState} {s' : State} {a : Action} (hs : ¬StopMissed s)
    {i : Nat} {data : Bytes} (hsec : sectionOf s.state a = some (i, data))
    (h : PushOutcome cfg type s.state i data s') : ¬StopMissed { s with state := s' } := by
  obtain ⟨hworker, hcaller, hproducers⟩ := section_frame hsec h
  rintro ⟨hpast, hasleep, hnone⟩
  exact hs ⟨by rw [← hcaller]; exact hpast, by rw [← hworker]; exact hasleep,
    fun hmem => hnone (hproducers hmem)⟩

/-- A state that misses no stop is followed by one that does exactly when the worker blocks
    behind the notification. -/
theorem waitStep_missed_iff {s s' : WaitState} {a : Action} (hs : ¬StopMissed s)
    (h : waitStep cfg type s a = some s') : ¬StopMissed s' ↔ BlocksInTime s a := by
  cases a with
  | worker sel =>
    simp only [waitStep] at h
    simp only [BlocksInTime, Action.worker.injEq, forall_eq', StopMissed] at hs ⊢
    split at h
    · -- the worker blocks
      rename_i hblocking
      cases h
      simp only [hblocking, true_implies, true_and, not_and, Classical.not_not]
    · rename_i hblocking
      refine iff_of_true ?_ (fun h => absurd h hblocking)
      split at h
      · cases h
        exact hs
      · rename_i hblock
        obtain ⟨state, hstep, rfl⟩ := Option.map_eq_some_iff.mp h
        rintro ⟨-, hasleep, -⟩
        exact workerStep_awake hblock hstep hasleep
  | push i data =>
    simp only [waitStep] at h
    obtain ⟨-, h⟩ := Option.ite_none_left_eq_some.mp h
    obtain ⟨state, hstep, rfl⟩ := Option.map_eq_some_iff.mp h
    obtain ⟨p, hsec, rfl⟩ := Option.map_eq_some_iff.mp hstep
    exact iff_of_true (section_missed hs hsec (pushSection_cases _ _ _)) (by simp [BlocksInTime])
  | wake i =>
    simp only [waitStep] at h
    obtain ⟨-, h⟩ := Option.ite_none_left_eq_some.mp h
    obtain ⟨state, hstep, rfl⟩ := Option.map_eq_some_iff.mp h
    obtain ⟨p, hsec, rfl⟩ := Option.map_eq_some_iff.mp hstep
    exact iff_of_true (section_missed hs hsec (pushSection_cases _ _ _)) (by simp [BlocksInTime])
  | notifyConsumer i =>
    obtain ⟨state, hstep, rfl⟩ := Option.map_eq_some_iff.mp h
    obtain ⟨-, hs'⟩ := Option.ite_none_right_eq_some.mp hstep
    cases hs'
    refine iff_of_true ?_ (by simp [BlocksInTime])
    rintro ⟨-, hasleep, -⟩
    exact WorkerPc.notified_ne_asleep _ hasleep
  | stopSet =>
    obtain ⟨state, hstep, rfl⟩ := Option.map_eq_some_iff.mp h
    obtain ⟨-, hs'⟩ := Option.ite_none_right_eq_some.mp hstep
    cases hs'
    refine iff_of_true ?_ (by simp [BlocksInTime])
    rintro ⟨hpast, -, -⟩
    cases hpast
  | stopNotify =>
    obtain ⟨state, hstep, rfl⟩ := Option.map_eq_some_iff.mp h
    obtain ⟨-, hs'⟩ := Option.ite_none_right_eq_some.mp hstep
    cases hs'
    refine iff_of_true ?_ (by simp [BlocksInTime])
    rintro ⟨-, hasleep, -⟩
    exact WorkerPc.notified_ne_asleep _ hasleep
  | stopJoin =>
    obtain ⟨state, hstep, rfl⟩ := Option.map_eq_some_iff.mp h
    obtain ⟨⟨-, hexited⟩, hs'⟩ := Option.ite_none_right_eq_some.mp hstep
    cases hs'
    refine iff_of_true ?_ (by simp [BlocksInTime])
    rintro ⟨-, hasleep, -⟩
    have hasleep : s.state.worker = .asleep := hasleep
    rw [hexited] at hasleep
    cases hasleep

/-- No state of a run misses the stop exactly when the worker blocks in time. -/
theorem missed_iff (cfg : LogConfig) (type : AsyncType) (b : Buffer) (n : Nat) (as : List Action) :
    (waitSystem cfg type).Always (fun s => ¬StopMissed s) ⟨start b n, false⟩ as ↔
      (waitSystem cfg type).AllSteps BlocksInTime ⟨start b n, false⟩ as := by
  refine Transition.always_iff_allSteps (I := fun _ => True) ?_ ?_ ?_ trivial ?_
  · exact fun _ _ _ _ _ => trivial
  · -- a worker that is about to block can always do so
    intro s a hstep sel ha hblocking
    rw [ha] at hstep
    have hstep : waitStep cfg type s (.worker sel) = none := hstep
    simp only [waitStep, hblocking, ↓reduceIte] at hstep
    cases hstep
  · intro s a s' _ hs hstep
    have hstep : waitStep cfg type s a = some s' := hstep
    exact waitStep_missed_iff hs hstep
  · rintro ⟨hpast, -, -⟩
    cases hpast

end Mylog.AsyncWorker

namespace Mylog

/-- No state of a run misses the stop exactly when no sleeper blocks behind the notification
    of the stop: for the pool with any bounds, and for the log worker of either type. -/
theorem stop_missed_iff (min max exitThread : Int) (cfg : LogConfig) (type : AsyncType)
    (b : Buffer) (n : Nat) :
    (∀ as : List ThreadPool.Action,
      (ThreadPool.system min max exitThread).Always (fun s => ¬ThreadPool.StopMissed s)
          (ThreadPool.start min max exitThread) as ↔
        (ThreadPool.system min max exitThread).AllSteps ThreadPool.BlocksInTime
          (ThreadPool.start min max exitThread) as) ∧
    ∀ as : List AsyncWorker.Action,
      (AsyncWorker.waitSystem cfg type).Always (fun s => ¬AsyncWorker.StopMissed s)
          ⟨AsyncWorker.start b n, false⟩ as ↔
        (AsyncWorker.waitSystem cfg type).AllSteps AsyncWorker.BlocksInTime
          ⟨AsyncWorker.start b n, false⟩ as :=
  ⟨ThreadPool.missed_iff min max exitThread, AsyncWorker.missed_iff cfg type b n⟩

/-- A worker of the pool looks at the flag, the flag is set, everybody is notified, and the
    worker blocks. -/
private theorem pool_stop_missed :
    ∃ s, (ThreadPool.system 1 1 0).Reachable s ∧ ThreadPool.StopMissed s := by
  have hinit : (ThreadPool.system 1 1 0).init (ThreadPool.start 1 1 0) := rfl
  obtain ⟨s, hs, hpast, hmem, hmanager⟩ := Transition.exists_reachable_of_run
    (P := fun s => s.dtor.pastNotify = true ∧ .asleep ∈ s.workers ∧ s.manager = .loopHead) hinit
    (show ((ThreadPool.system 1 1 0).run _ [.worker 0, .worker 0, .worker 0, .dtor 0, .dtor 0,
      .worker 0]).any _ = true by decide)
  refine ⟨s, hs, hpast, hmem, ?_⟩
  unfold ThreadPool.ManagerNotifies
  rw [hmanager]
  exact id

/-- So does the log worker. -/
private theorem worker_stop_missed :
    ∃ s, (AsyncWorker.waitSystem AsyncWorker.smallConfig .asyncSafe).Reachable s ∧
      AsyncWorker.StopMissed s := by
  have hinit : (AsyncWorker.waitSystem AsyncWorker.smallConfig .asyncSafe).init
      ⟨AsyncWorker.start ⟨[0, 0, 0, 0], 0, 0⟩ 0, false⟩ := ⟨⟨_, 0, rfl, rfl⟩, rfl⟩
  obtain ⟨s, hs, hmissed⟩ := Transition.exists_reachable_of_run
    (P := fun s => s.state.stopCaller.pastNotify = true ∧ s.state.worker = .asleep ∧
      .notify ∉ s.state.producers) hinit
    (show ((AsyncWorker.waitSystem AsyncWorker.smallConfig .asyncSafe).run _
      [.worker 0, .worker 0, .stopSet, .stopNotify, .worker 0]).any _ = true by decide)
  exact ⟨s, hs, hmissed⟩

/-- Both stops can be missed. -/
theorem stop_can_be_missed :
    (¬∀ (min max exitThread : Int) (s : ThreadPool.State),
      (ThreadPool.system min max exitThread).Reachable s → ¬ThreadPool.StopMissed s) ∧
    ¬∀ (cfg : LogConfig) (type : AsyncType) (s : AsyncWorker.WaitState),
      (AsyncWorker.waitSystem cfg type).Reachable s → ¬AsyncWorker.StopMissed s := by
  constructor
  · intro h
    obtain ⟨s, hs, hmissed⟩ := pool_stop_missed
    exact h 1 1 0 s hs hmissed
  · intro h
    obtain ⟨s, hs, hmissed⟩ := worker_stop_missed
    exact h _ _ s hs hmissed

end Mylog
