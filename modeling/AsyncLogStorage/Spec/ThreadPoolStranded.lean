import AsyncLogStorage.Spec.ThreadPoolInvariant

/-!
# Stranded tasks of the thread pool

`m_condition` says both "there is a task" and "please exit". The manager stores two
exit tokens and wakes everybody, but a token that finds no sleeper stays behind. A
worker that the notification of a later `addTask` wakes then takes the exit branch
and leaves the task in the queue, while the other workers sleep on.

## Key results

- `not_stranded_and_exit_strands`: a task is never stranded as long as no worker takes
  the exit branch with a task queued that nobody else looks after; a worker that does
  take it strands the task
-/

namespace ThreadPool

/-! ## Stranded tasks -/

def WorkerPc.live (pc : WorkerPc) : Bool := !(pc == .exited)

/-- A notification on `m_condition` is still to be sent. -/
def NotifyPending (s : State) : Prop := 0 < s.pendingNotify ∨ s.manager = .notifyAll

instance {s : State} : Decidable (NotifyPending s) := inferInstanceAs (Decidable (_ ∨ _))

/-- A task waits, every live worker sleeps, and nobody is about to wake one. -/
def Stranded (s : State) : Prop :=
  s.stop = false ∧ s.tasks ≠ [] ∧ (∃ pc ∈ s.workers, pc.live = true) ∧
    (∀ pc ∈ s.workers, pc.live = true → pc = .asleep) ∧ ¬NotifyPending s

instance {s : State} : Decidable (Stranded s) := inferInstanceAs (Decidable (_ ∧ _))

/-- A worker that takes the exit branch with a task queued leaves it to a notification
    that is still to come or to a worker that is up, or there is nobody asleep. -/
def LeavesTaskAttended (s : State) (a : Action) : Prop :=
  ∀ i, a = .worker i → s.workers[i]? = some .checkExit → s.stop = false →
    0 < s.exitThread → s.tasks ≠ [] →
    NotifyPending s ∨ (∃ j pc, j ≠ i ∧ s.workers[j]? = some pc ∧ pc.attends = true) ∨
      .asleep ∉ s.workers

/-- A task in the queue has somebody to look after it, as long as anybody sleeps. -/
def Attended (s : State) : Prop :=
  s.stop = false → s.tasks ≠ [] →
    NotifyPending s ∨ (∃ pc ∈ s.workers, pc.attends = true) ∨ .asleep ∉ s.workers

theorem Attended.not_stranded {s : State} (hs : Attended s) : ¬Stranded s := by
  intro ⟨hstop, htasks, ⟨pc, hmem, hlive⟩, hasleep, hnone⟩
  obtain hpending | ⟨pc', hmem', hatt⟩ | hnobody := hs hstop htasks
  · exact hnone hpending
  · -- a live worker that attends does not sleep
    obtain ⟨hne, -, hexit⟩ := (WorkerPc.attends_iff pc').mp hatt
    exact hne (hasleep pc' hmem' (by cases pc' <;> simp_all [WorkerPc.live]))
  · exact hnobody (hasleep pc hmem hlive ▸ hmem)

/-- Where a worker that is up goes: it stays up, unless it goes to sleep, takes the
    exit branch or sees the stop. -/
theorem WorkerPc.next_attends {s : State} {pc : WorkerPc} (h : pc.attends = true)
    (hstop : s.stop = false) :
    (pc.next s).attends = true ∨ pc = .block ∨ (pc = .checkExit ∧ 0 < s.exitThread) := by
  have hgoes := pc.goes_next s
  generalize pc.next s = pc' at hgoes ⊢
  cases hgoes with
  | block => exact .inr (.inl rfl)
  | leave htok => exact .inr (.inr ⟨rfl, htok⟩)
  | stopped hstop' =>
    rw [hstop] at hstop'
    cases hstop'
  | asleep | exitCur | exitIdle | exitTok | exitLockIds | exitPush | exitUnlockIds
  | exitUnlockQueue | exited => cases h
  | _ => exact .inl rfl

/-- A worker that leaves or sleeps does not wake up or fall asleep by its own step. -/
theorem WorkerPc.next_of_not_attends {s : State} {pc : WorkerPc} (h : pc.attends = false)
    (hne : pc ≠ .asleep) : pc.next s ≠ .asleep := by
  cases pc with
  | asleep => exact absurd rfl hne
  | exited | exitCur | exitIdle | exitTok | exitLockIds | exitPush | exitUnlockIds
  | exitUnlockQueue => simp only [next, ne_eq, reduceCtorEq, not_false_eq_true]
  | _ => cases h

private theorem workerStep_attended {s s' : State} {i : Nat} (hlocked : Locked s)
    (hs : Attended s) (hC : LeavesTaskAttended s (.worker i)) (h : workerStep s i = some s') :
    Attended s' := by
  obtain ⟨pc, hpc, hstep, hframe⟩ := workerStep_frame h
  have hlt : i < s.workers.length := (List.getElem?_eq_some_iff.mp hpc).1
  have hself : (s.workers.set i (pc.next s))[i]? = some (pc.next s) := by
    simp only [List.getElem?_set, ↓reduceIte, hlt]
  intro hstop htasks
  rw [hframe.stop] at hstop
  have hnotify : NotifyPending s' ↔ NotifyPending s := by
    simp only [NotifyPending, hframe.pendingNotify, hframe.manager]
  rw [hnotify, hframe.workers]
  cases hatt : pc.attends with
  | true =>
    obtain hup | rfl | ⟨rfl, htok⟩ := WorkerPc.next_attends hatt hstop
    · exact .inr (.inl ⟨pc.next s, List.mem_of_getElem? hself, hup⟩)
    · -- going to sleep: the queue was empty and the mutex kept it so
      rw [hframe.tasks (by simp only [ne_eq, reduceCtorEq, not_false_eq_true])] at htasks
      exact absurd (hlocked.block_empty i hpc) htasks
    · -- the exit branch
      rw [hframe.tasks (by simp only [ne_eq, reduceCtorEq, not_false_eq_true])] at htasks
      obtain hpending | ⟨j, pcj, hji, hj, hup⟩ | hnobody := hC i rfl hpc hstop htok htasks
      · exact .inl hpending
      · right; left
        refine ⟨pcj, List.mem_of_getElem? (i := j) ?_, hup⟩
        rw [List.getElem?_set, if_neg (Ne.symm hji), hj]
      · right; right
        intro hmem
        rcases List.mem_or_eq_of_mem_set hmem with hmem | heq
        · exact hnobody hmem
        · simp only [WorkerPc.next, if_pos htok] at heq
          cases heq
  | false =>
    have htake : pc ≠ .take := by rintro rfl; cases hatt
    have hawake : pc ≠ .asleep := by rintro rfl; cases hstep
    rw [hframe.tasks htake] at htasks
    obtain hpending | ⟨pcj, hmem, hup⟩ | hnobody := hs hstop htasks
    · exact .inl hpending
    · -- whoever attends is another worker
      right; left
      obtain ⟨j, hj⟩ := List.getElem?_of_mem hmem
      refine ⟨pcj, List.mem_of_getElem? (i := j) ?_, hup⟩
      rw [List.getElem?_set]
      split
      · rename_i hij
        subst hij
        rw [hpc] at hj
        cases hj
        rw [hatt] at hup
        cases hup
      · exact hj
    · right; right
      intro hmem
      rcases List.mem_or_eq_of_mem_set hmem with hmem | heq
      · exact hnobody hmem
      · exact WorkerPc.next_of_not_attends hatt hawake heq.symm

private theorem step_attended {s s' : State} {a : Action} (hlocked : Locked s)
    (hs : Attended s) (hC : LeavesTaskAttended s a) (h : step s a = some s') : Attended s' := by
  obtain ⟨task, -, -, rfl⟩ | ⟨sel, ws, -, -, hws, rfl⟩ | ⟨i, rfl, h⟩ | ⟨-, h⟩ | ⟨sel, -, h⟩ :=
    step_cases h
  · -- the caller has not notified yet
    intro _ _
    exact .inl (.inl (Nat.succ_pos _))
  · -- the notification wakes a sleeper, or there is none
    intro _ _
    right
    obtain ⟨hsel, rfl⟩ | ⟨hnobody, rfl⟩ := notifyOne_cases hws
    · have hlt : sel < s.workers.length := (List.getElem?_eq_some_iff.mp hsel).1
      exact .inl ⟨.woken, List.mem_of_getElem? (i := sel) (by simp [hlt]), rfl⟩
    · exact .inr hnobody
  · exact workerStep_attended hlocked hs hC h
  · -- the manager wakes everybody, starts a worker that is up, or leaves the workers
    obtain ⟨hstop, htasks, -, hpending, -, hworkers⟩ := managerStep_frame h
    intro hstop' htasks'
    rw [hstop] at hstop'
    rw [htasks] at htasks'
    obtain ⟨-, hw⟩ | ⟨-, hw⟩ | ⟨hne, hw⟩ := hworkers
    · right; right
      rw [hw]
      exact asleep_not_mem_notifyAll s.workers
    · right; left
      rw [hw]
      exact ⟨.loopHead, List.mem_append_right _ (List.mem_singleton.mpr rfl), rfl⟩
    · rw [hw]
      obtain hp | hrest := hs hstop' htasks'
      · left
        rcases hp with hp | hp
        · exact .inl (by rw [hpending]; exact hp)
        · exact absurd hp hne
      · exact .inr hrest
  · -- the destructor has set the flag, or sets it now
    intro hstop' _
    obtain ⟨-, -, -, ⟨-, hset, -⟩ | ⟨hcalled, hkeep, -⟩⟩ := dtorStep_frame h
    · rw [hset] at hstop'
      exact nomatch hstop'
    · rw [hkeep] at hstop'
      exact absurd (hlocked.dtor_called hstop') hcalled

/-! ## The exit branch -/

private theorem leaving_of_not_attends {pc : WorkerPc} (h : pc.attends = false)
    (hne : pc ≠ .asleep) (hlive : pc.live = true) : pc.leaving = true := by
  cases pc with
  | asleep => exact absurd rfl hne
  | exited => exact nomatch hlive
  | exitCur | exitIdle | exitTok | exitLockIds | exitPush | exitUnlockIds | exitUnlockQueue => rfl
  | _ => exact nomatch h

private theorem holdsQueue_of_leaving {pc : WorkerPc} (h : pc.leaving = true) :
    pc.holdsQueue = true := by
  cases pc with
  | exitCur | exitIdle | exitTok | exitLockIds | exitPush | exitUnlockIds | exitUnlockQueue => rfl
  | _ => exact nomatch h

/-- A worker that takes the exit branch while `m_idsMutex` is free goes through it on its
    own, and ends with everything but its tokens as it was. -/
private theorem run_exit (min max exitThread : Int) {s : State} {i : Nat}
    (hpc : s.workers[i]? = some .checkExit) (htok : 0 < s.exitThread)
    (hids : s.idsMutex = none) :
    ∃ t, (system min max exitThread).run s (List.replicate 8 (.worker i)) = some t ∧
      t.workers = s.workers.set i .exited ∧ t.tasks = s.tasks ∧ t.stop = s.stop ∧
      t.pendingNotify = s.pendingNotify ∧ t.manager = s.manager := by
  have hlt : i < s.workers.length := (List.getElem?_eq_some_iff.mp hpc).1
  refine ⟨{ s with
    workers := s.workers.set i .exited, curThread := s.curThread - 1,
    idleThread := s.idleThread - 1, exitThread := s.exitThread - 1,
    ids := s.ids ++ [i], queueMutex := none }, ?_, rfl, rfl, rfl, rfl, rfl⟩
  simp only [List.replicate, Transition.run, system, step, workerStep, workerStepAt, State.goto,
    hpc, htok, hids, hlt, ↓reduceIte, Option.bind_some, List.getElem?_set, List.set_set]

/-- Along runs in which a worker takes the exit branch only when the queued tasks are
    attended, no task is stranded. A worker that takes the exit branch otherwise, while
    the manager is not cleaning up, strands the tasks by its own next steps. -/
theorem not_stranded_and_exit_strands (min max : Int) :
    (∀ s, (system min max 0).ReachableBy LeavesTaskAttended s → ¬Stranded s) ∧
    (∀ s i, (system min max 0).Reachable s → s.idsMutex = none →
      ¬LeavesTaskAttended s (.worker i) →
      ∃ t, (system min max 0).run s (List.replicate 8 (.worker i)) = some t ∧ Stranded t) := by
  constructor
  · intro s h
    have hinv := h.invariant (I := fun s => Locked s ∧ Attended s) ?_ ?_
    · exact hinv.2.not_stranded
    · intro s hs
      rw [show s = start min max 0 from hs]
      exact ⟨start_locked min max 0, fun _ htasks => absurd rfl htasks⟩
    · intro s a s' ⟨hlocked, hatt⟩ hC hstep
      have hstep : step s a = some s' := hstep
      exact ⟨step_locked hlocked hstep, step_attended hlocked hatt hC hstep⟩
  · intro s i hreach hids hnot
    have hlocked := reachable_locked hreach
    simp only [LeavesTaskAttended, Classical.not_forall, not_or, not_exists, not_and] at hnot
    obtain ⟨j, hj, hpc, hstop, htok, htasks, hpending, hothers, hasleep⟩ := hnot
    cases hj
    obtain ⟨t, hrun, hworkers, hqueue, hflag, hcount, hmanager⟩ := run_exit min max 0 hpc htok hids
    refine ⟨t, hrun, by rw [hflag, hstop], by rw [hqueue]; exact htasks, ?_, ?_, ?_⟩
    · -- the sleeper is live
      obtain ⟨k, hk⟩ := List.getElem?_of_mem (Classical.not_not.mp hasleep)
      have hki : i ≠ k := by
        rintro rfl
        rw [hpc] at hk
        exact nomatch hk
      refine ⟨.asleep, List.mem_of_getElem? (i := k) ?_, rfl⟩
      rw [hworkers, List.getElem?_set, if_neg hki, hk]
    · intro pc hmem hlive
      obtain ⟨k, hk⟩ := List.getElem?_of_mem hmem
      rw [hworkers] at hk
      obtain ⟨-, rfl⟩ | ⟨hki, hk⟩ := List.getElem?_set_cases hk
      · -- the worker itself has exited
        cases hlive
      · -- another worker is not up, and it is not leaving because it lacks the mutex
        apply Classical.byContradiction
        intro hne
        have hdown := hothers k pc (Ne.symm hki) hk
        have hleaving := leaving_of_not_attends (Bool.eq_false_iff.mpr hdown) hne hlive
        exact hki (hlocked.holder_unique hpc rfl hk (holdsQueue_of_leaving hleaving))
    · simp only [NotifyPending, hcount, hmanager]
      exact hpending

/-- A pool of one to two workers. The first task makes the manager start the second
    worker. Once the first worker is done the manager stores two tokens and notifies
    while nobody sleeps. Both workers go to sleep, a task comes, and the worker that its
    notification wakes takes the exit branch. -/
def strandedSchedule : List Action :=
  let waiting (i : Nat) := List.replicate 4 (Action.worker i)
  let exiting (i : Nat) := List.replicate 9 (Action.worker i)
  [Action.addTask ⟨0, true⟩, Action.notifyOne 0] ++ List.replicate 6 (Action.worker 0) ++
    List.replicate 9 Action.manager ++ List.replicate 2 (Action.worker 0) ++
    List.replicate 7 Action.manager ++ waiting 0 ++ waiting 1 ++
    [Action.addTask ⟨1, true⟩, Action.notifyOne 0] ++ exiting 0

theorem stranded_small :
    ¬∀ (min max : Int) (s : State), (system min max 0).Reachable s → ¬Stranded s := by
  intro h
  obtain ⟨s, hs, hstranded⟩ := Transition.exists_reachable_of_run (P := Stranded)
    (show (system 1 2 0).init (start 1 2 0) from rfl)
    (show ((system 1 2 0).run _ strandedSchedule).any _ = true by decide)
  exact h 1 2 s hs hstranded

end ThreadPool
