import AsyncLogStorage.ForStd.List
import AsyncLogStorage.Spec.ThreadPoolInvariant

/-!
# The tasks and the threads of the pool

What becomes of a task that is added, and what becomes of the thread object of a worker.

## Key results

- `reachable_accounted`: every task that was added is queued, held by a worker or completed
- `reachable_joined`: when the destructor has returned, every worker has ended
-/

namespace ThreadPool

/-! ## The tasks -/

/-- The task that a worker has taken and not completed. -/
def WorkerPc.task : WorkerPc → Option Task
  | .release task => task
  | .runDec task | .running task => some task
  | _ => none

/-- What holds of the tasks in every reachable state. -/
structure Accounted (s : State) : Prop where
  added : s.added = s.taken ++ s.tasks
  taken : ∀ t ∈ s.taken, t.callable = true →
    t ∈ s.completed ∨ ∃ pc ∈ s.workers, pc.task = some t
  completed : ∀ t ∈ s.completed, t ∈ s.taken
  held : ∀ pc ∈ s.workers, ∀ t, pc.task = some t → t ∈ s.taken

/-- What a worker step does to the tasks: it takes one, completes one, or leaves them. -/
theorem workerStepAt_tasks {s s' : State} {i : Nat} {pc : WorkerPc}
    (h : workerStepAt s i pc = some s') :
    s'.added = s.added ∧
      ((pc = .take ∧ s'.tasks = s.tasks.tail ∧ s'.taken = s.taken ++ s.tasks.head?.toList ∧
          s'.completed = s.completed) ∨
        (∃ t, pc = .running t ∧ s'.tasks = s.tasks ∧ s'.taken = s.taken ∧
          s'.completed = s.completed ++ [t]) ∨
        (pc ≠ .take ∧ (∀ t, pc ≠ .running t) ∧ s'.tasks = s.tasks ∧ s'.taken = s.taken ∧
          s'.completed = s.completed)) := by
  cases pc with
  | asleep | exited => cases h
  | acquire | woken | exitLockIds =>
    obtain ⟨-, hs⟩ := Option.ite_none_right_eq_some.mp h
    cases hs
    exact ⟨rfl, .inr (.inr ⟨by simp, by simp, rfl, rfl, rfl⟩)⟩
  | take =>
    simp only [workerStepAt] at h
    split at h
    · rename_i hnil
      cases h
      refine ⟨rfl, .inl ⟨rfl, ?_, ?_, rfl⟩⟩
      · show s.tasks = s.tasks.tail
        rw [hnil, List.tail_nil]
      · show s.taken = s.taken ++ s.tasks.head?.toList
        rw [hnil, List.head?_nil, Option.toList_none, List.append_nil]
    · rename_i task tasks hcons
      cases h
      refine ⟨rfl, .inl ⟨rfl, ?_, ?_, rfl⟩⟩
      · show tasks = s.tasks.tail
        rw [hcons, List.tail_cons]
      · show s.taken ++ [task] = s.taken ++ s.tasks.head?.toList
        rw [hcons, List.head?_cons, Option.toList_some]
  | running t =>
    cases h
    exact ⟨rfl, .inr (.inl ⟨t, rfl, rfl, rfl, rfl⟩)⟩
  | _ =>
    cases h
    exact ⟨rfl, .inr (.inr ⟨by simp, by simp, rfl, rfl, rfl⟩)⟩

theorem managerStep_tasks {s s' : State} (h : managerStep s = some s') :
    s'.added = s.added ∧ s'.taken = s.taken ∧ s'.completed = s.completed := by
  unfold managerStep at h
  repeat' split at h
  all_goals
    cases h
    try exact ⟨rfl, rfl, rfl⟩

theorem dtorStep_tasks {s s' : State} {sel : Nat} (h : dtorStep s sel = some s') :
    s'.added = s.added ∧ s'.taken = s.taken ∧ s'.completed = s.completed ∧
      s'.pendingNotify = s.pendingNotify := by
  unfold dtorStep at h
  repeat' split at h
  all_goals
    cases h
    try exact ⟨rfl, rfl, rfl, rfl⟩

/-- Only `addTask` adds, and what is completed stays so. -/
theorem step_added {s s' : State} {a : Action} (h : step s a = some s') :
    s'.added = s.added ++ (match a with | .addTask task => [task] | _ => []) ∧
      ∀ t ∈ s.completed, t ∈ s'.completed := by
  obtain ⟨task, rfl, -, rfl⟩ | ⟨sel, ws, rfl, -, -, rfl⟩ | ⟨i, rfl, h⟩ | ⟨rfl, h⟩ | ⟨sel, rfl, h⟩ :=
    step_cases h
  · exact ⟨rfl, fun _ ht => ht⟩
  · exact ⟨(List.append_nil _).symm, fun _ ht => ht⟩
  · obtain ⟨pc, -, hstep, -⟩ := workerStep_frame h
    obtain ⟨hadded, ⟨-, -, -, hcompleted⟩ | ⟨t₀, -, -, -, hcompleted⟩ | ⟨-, -, -, -, hcompleted⟩⟩ :=
      workerStepAt_tasks hstep
    · exact ⟨by rw [hadded, List.append_nil], fun t ht => by rw [hcompleted]; exact ht⟩
    · refine ⟨by rw [hadded, List.append_nil], fun t ht => ?_⟩
      rw [hcompleted]
      exact List.mem_append_left _ ht
    · exact ⟨by rw [hadded, List.append_nil], fun t ht => by rw [hcompleted]; exact ht⟩
  · obtain ⟨hadded, -, hcompleted⟩ := managerStep_tasks h
    exact ⟨by rw [hadded, List.append_nil], fun t ht => by rw [hcompleted]; exact ht⟩
  · obtain ⟨hadded, -, hcompleted, -⟩ := dtorStep_tasks h
    exact ⟨by rw [hadded, List.append_nil], fun t ht => by rw [hcompleted]; exact ht⟩

/-- A worker goes on with its task until it has completed it. -/
theorem WorkerPc.task_next {s : State} {pc : WorkerPc} {t : Task} (h : pc.task = some t)
    (hcall : t.callable = true) : (pc.next s).task = some t ∨ pc = .running t := by
  cases pc with
  | release task =>
    left
    rw [show task = some t from h]
    simp only [next, hcall, ↓reduceIte]
    rfl
  | runDec task => exact .inl h
  | running task => exact .inr (congrArg running (Option.some.inj h))
  | _ => cases h

/-- The task of a worker is the one it had, or the first of the queue. -/
theorem WorkerPc.task_of_next {s : State} {pc : WorkerPc} {t : Task}
    (h : (pc.next s).task = some t) : pc.task = some t ∨ (pc = .take ∧ s.tasks.head? = some t) := by
  have hgoes := pc.goes_next s
  generalize pc.next s = pc' at h hgoes
  cases hgoes with
  | take => exact .inr ⟨rfl, h⟩
  | run _ | runDec => exact .inl h
  | _ => cases h

theorem WorkerPc.task_notified (pc : WorkerPc) : pc.notified.task = pc.task := by
  cases pc <;> rfl

theorem mem_notifyAll_task {ws : List WorkerPc} {t : Task} :
    (∃ pc ∈ notifyAll ws, pc.task = some t) ↔ ∃ pc ∈ ws, pc.task = some t := by
  simp only [notifyAll, List.mem_map, exists_exists_and_eq_and, WorkerPc.task_notified]

theorem mem_notifyOne_task {ws ws' : List WorkerPc} {sel : Nat} {t : Task}
    (h : notifyOne ws sel = some ws') :
    (∃ pc ∈ ws', pc.task = some t) ↔ ∃ pc ∈ ws, pc.task = some t := by
  obtain ⟨hsel, rfl⟩ | ⟨-, rfl⟩ := notifyOne_cases h
  · constructor
    · rintro ⟨pc, hmem, htask⟩
      obtain hmem | rfl := List.mem_or_eq_of_mem_set hmem
      · exact ⟨pc, hmem, htask⟩
      · cases htask
    · rintro ⟨pc, hmem, htask⟩
      obtain hmem | rfl := List.mem_set_or_eq hmem hsel
      · exact ⟨pc, hmem, htask⟩
      · cases htask
  · exact Iff.rfl

/-- Workers that hold the same tasks as before keep the account. -/
private theorem Accounted.of_workers {s s' : State} (hs : Accounted s)
    (htasks : s'.tasks = s.tasks) (hadded : s'.added = s.added) (htaken : s'.taken = s.taken)
    (hcompleted : s'.completed = s.completed)
    (hworkers : ∀ t, (∃ pc ∈ s'.workers, pc.task = some t) ↔ ∃ pc ∈ s.workers, pc.task = some t) :
    Accounted s' := by
  refine ⟨?_, ?_, ?_, ?_⟩
  · rw [hadded, htaken, htasks, hs.added]
  · intro t ht hcall
    rw [htaken] at ht
    rw [hcompleted, hworkers]
    exact hs.taken t ht hcall
  · rw [hcompleted, htaken]
    exact hs.completed
  · intro pc hmem t ht
    obtain ⟨pc', hmem', ht'⟩ := (hworkers t).mp ⟨pc, hmem, ht⟩
    rw [htaken]
    exact hs.held pc' hmem' t ht'

section
variable {s s' : State} {i : Nat} {pc : WorkerPc}

theorem WorkerFrame.next_mem (hframe : WorkerFrame s s' i pc) (hpc : s.workers[i]? = some pc) :
    pc.next s ∈ s'.workers := by
  rw [hframe.workers]
  exact List.mem_set (List.getElem?_eq_some_iff.mp hpc).1 _

/-- A task that a worker holds is held after the step, unless it has been completed. -/
private theorem WorkerFrame.still_held (hframe : WorkerFrame s s' i pc)
    (hpc : s.workers[i]? = some pc) (t : Task) (hcall : t.callable = true)
    (h : ∃ q ∈ s.workers, q.task = some t) :
    (∃ q ∈ s'.workers, q.task = some t) ∨ pc = .running t := by
  obtain ⟨q, hmem, hq⟩ := h
  obtain hmem | rfl := List.mem_set_or_eq (b := pc.next s) hmem hpc
  · rw [← hframe.workers] at hmem
    exact .inl ⟨q, hmem, hq⟩
  · obtain hnext | hrun := WorkerPc.task_next (s := s) hq hcall
    · exact .inl ⟨_, hframe.next_mem hpc, hnext⟩
    · exact .inr hrun

/-- A task that a worker holds after the step was taken before, or it is the first one. -/
private theorem WorkerFrame.held_from (hs : Accounted s) (hframe : WorkerFrame s s' i pc)
    (hpc : s.workers[i]? = some pc) (q : WorkerPc) (hmem : q ∈ s'.workers) (t : Task)
    (hq : q.task = some t) : t ∈ s.taken ∨ (pc = .take ∧ s.tasks.head? = some t) := by
  rw [hframe.workers] at hmem
  obtain hmem | rfl := List.mem_or_eq_of_mem_set hmem
  · exact .inl (hs.held q hmem t hq)
  · obtain hold | hnew := WorkerPc.task_of_next hq
    · exact .inl (hs.held pc (List.mem_of_getElem? hpc) t hold)
    · exact .inr hnew

end

private theorem workerStep_accounted {s s' : State} {i : Nat} (hs : Accounted s)
    (h : workerStep s i = some s') : Accounted s' := by
  obtain ⟨pc, hpc, hstep, hframe⟩ := workerStep_frame h
  have hothers := hframe.still_held hpc
  have hheld := hframe.held_from hs hpc
  obtain ⟨hadded, ⟨rfl, htasks, htaken, hcompleted⟩ | ⟨t₀, rfl, htasks, htaken, hcompleted⟩ |
    ⟨htake, hrun, htasks, htaken, hcompleted⟩⟩ := workerStepAt_tasks hstep
  · -- the first task moves from the queue to the worker
    have hsplit : s.tasks.head?.toList ++ s.tasks.tail = s.tasks := by
      cases s.tasks <;> rfl
    refine ⟨?_, ?_, ?_, ?_⟩
    · rw [hadded, htaken, htasks, List.append_assoc, hsplit, hs.added]
    · intro t ht hcall
      rw [hcompleted]
      rw [htaken, List.mem_append] at ht
      obtain ht | ht := ht
      · refine (hs.taken t ht hcall).imp_right fun hheld => ?_
        exact (hothers t hcall hheld).resolve_right nofun
      · exact .inr ⟨_, hframe.next_mem hpc, Option.mem_toList.mp ht⟩
    · intro t ht
      rw [hcompleted] at ht
      rw [htaken]
      exact List.mem_append_left _ (hs.completed t ht)
    · intro q hmem t hq
      rw [htaken, List.mem_append]
      exact (hheld q hmem t hq).imp_right fun hnew => Option.mem_toList.mpr hnew.2
  · -- the task of the worker is completed
    refine ⟨?_, ?_, ?_, ?_⟩
    · rw [hadded, htaken, htasks, hs.added]
    · intro t ht hcall
      rw [hcompleted, List.mem_append, List.mem_singleton]
      rw [htaken] at ht
      obtain hdone | hheld := hs.taken t ht hcall
      · exact .inl (.inl hdone)
      · obtain hheld | hrun := hothers t hcall hheld
        · exact .inr hheld
        · cases hrun
          exact .inl (.inr rfl)
    · intro t ht
      rw [hcompleted, List.mem_append, List.mem_singleton] at ht
      rw [htaken]
      obtain ht | rfl := ht
      · exact hs.completed t ht
      · exact hs.held _ (List.mem_of_getElem? hpc) t rfl
    · intro q hmem t hq
      rw [htaken]
      exact (hheld q hmem t hq).resolve_right nofun
  · refine ⟨?_, ?_, ?_, ?_⟩
    · rw [hadded, htaken, htasks, hs.added]
    · intro t ht hcall
      rw [hcompleted]
      rw [htaken] at ht
      exact (hs.taken t ht hcall).imp_right fun hheld =>
        (hothers t hcall hheld).resolve_right (hrun t)
    · rw [hcompleted, htaken]
      exact hs.completed
    · intro q hmem t hq
      rw [htaken]
      exact (hheld q hmem t hq).resolve_right fun hnew => htake hnew.1

theorem step_accounted {s s' : State} {a : Action} (hs : Accounted s) (h : step s a = some s') :
    Accounted s' := by
  obtain ⟨task, -, -, rfl⟩ | ⟨sel, ws, -, -, hws, rfl⟩ | ⟨i, -, h⟩ | ⟨-, h⟩ | ⟨sel, -, h⟩ :=
    step_cases h
  · refine ⟨?_, hs.taken, hs.completed, hs.held⟩
    show s.added ++ [task] = s.taken ++ (s.tasks ++ [task])
    rw [hs.added, List.append_assoc]
  · exact hs.of_workers rfl rfl rfl rfl fun t => mem_notifyOne_task hws
  · exact workerStep_accounted hs h
  · obtain ⟨hadded, htaken, hcompleted⟩ := managerStep_tasks h
    obtain ⟨-, htasks, -, -, -, hworkers⟩ := managerStep_frame h
    refine hs.of_workers htasks hadded htaken hcompleted fun t => ?_
    obtain ⟨-, hw⟩ | ⟨-, hw⟩ | ⟨-, hw⟩ := hworkers
    · rw [hw]
      exact mem_notifyAll_task
    · simp [hw, WorkerPc.task, or_and_right, exists_or]
    · rw [hw]
  · obtain ⟨hadded, htaken, hcompleted, -⟩ := dtorStep_tasks h
    obtain ⟨htasks, -, -, hworkers⟩ := dtorStep_frame h
    refine hs.of_workers htasks hadded htaken hcompleted fun t => ?_
    obtain ⟨-, -, hw⟩ | ⟨-, -, hw | hw⟩ := hworkers
    · rw [hw]
    · rw [hw]
    · rw [hw]
      exact mem_notifyAll_task

theorem start_accounted (min max exitThread : Int) : Accounted (start min max exitThread) := by
  refine ⟨rfl, nofun, nofun, ?_⟩
  intro pc hmem t ht
  rw [List.eq_of_mem_replicate hmem] at ht
  cases ht

theorem waking_accounted {min max exitThread : Int} {s : State}
    (h : (wakingSystem min max exitThread).Reachable s) : Accounted s :=
  reachable_waking (start_accounted min max exitThread)
    (wakingStep_invariant (fun _ hs => ⟨hs.added, hs.taken, hs.completed, hs.held⟩) step_accounted)
    h

theorem reachable_accounted {min max exitThread : Int} {s : State}
    (h : (system min max exitThread).Reachable s) : Accounted s :=
  waking_accounted (waking_of_reachable h)

/-! ## The threads -/

/-- Worker `i` has ended, if there is one. -/
def HasEnded (s : State) (i : Nat) : Prop := ∀ pc, s.workers[i]? = some pc → pc = .exited

/-- What holds of the thread objects until the destructor is through. -/
structure Joins (s : State) : Prop where
  /-- A worker that runs has a joinable thread object, or is about to get it. -/
  thread : ∀ i, HasEnded s i ∨ (i, true) ∈ s.threads ∨ s.manager = .insert i
  erase : ∀ ids, s.manager = .reapErase ids → HasEnded s (ids.headD 0)
  manager_left : s.dtor = .clear ∨ s.dtor = .returned → s.manager = .exited
  returned : s.dtor = .returned → ∀ i, HasEnded s i

/-- Workers that have ended do not come back, so a step that changes only workers keeps
    the account of the threads. -/
private theorem Joins.of_workers {s s' : State} (hs : Joins s) (hthreads : s'.threads = s.threads)
    (hmanager : s'.manager = s.manager) (hdtor : s'.dtor = s.dtor)
    (hworkers : ∀ i, HasEnded s i → HasEnded s' i) : Joins s' := by
  refine ⟨fun i => ?_, fun ids hm => ?_, ?_, fun hd i => ?_⟩
  · rw [hthreads, hmanager]
    exact (hs.thread i).imp_left (hworkers i)
  · rw [hmanager] at hm
    exact hworkers _ (hs.erase ids hm)
  · rw [hmanager, hdtor]
    exact hs.manager_left
  · rw [hdtor] at hd
    exact hworkers i (hs.returned hd i)

theorem hasEnded_set {s s' : State} {i : Nat} {pc pc' : WorkerPc} (hpc : s.workers[i]? = some pc)
    (hne : pc ≠ .exited) (hw : s'.workers = s.workers.set i pc') {j : Nat} (h : HasEnded s j) :
    HasEnded s' j := by
  intro q hq
  rw [hw] at hq
  obtain ⟨rfl, -⟩ | ⟨-, hq⟩ := List.getElem?_set_cases hq
  · exact absurd (h pc hpc) hne
  · exact h q hq

theorem hasEnded_notifyAll {s s' : State} (hw : s'.workers = notifyAll s.workers) {j : Nat}
    (h : HasEnded s j) : HasEnded s' j := by
  intro q hq
  rw [hw, notifyAll, List.getElem?_map] at hq
  obtain ⟨pc, hpc, rfl⟩ := Option.map_eq_some_iff.mp hq
  rw [h pc hpc]
  rfl

/-- The manager does not touch a worker that has ended, unless it is the number of the thread
    that it starts. -/
private theorem managerStep_hasEnded {s s' : State} {i : Nat} (h : managerStep s = some s')
    (hended : HasEnded s i) : HasEnded s' i ∨ s'.manager = .insert i := by
  obtain ⟨-, -, -, -, -, ⟨-, hw⟩ | ⟨hm, hw⟩ | ⟨-, hw⟩⟩ := managerStep_frame h
  · exact .inl (hasEnded_notifyAll hw hended)
  · by_cases hi : i = s.workers.length
    · right
      rw [(managerStep_moves h).manager, hm, hi]
      rfl
    · left
      intro pc hpc
      rw [hw, List.getElem?_append] at hpc
      split at hpc
      · exact hended pc hpc
      · rw [List.getElem?_eq_none (by simp only [List.length_singleton]; omega)] at hpc
        cases hpc
  · left
    intro pc hpc
    rw [hw] at hpc
    exact hended pc hpc

private theorem hasEnded_of_exited {s : State} {i : Nat} (h : s.workers[i]? = some .exited) :
    HasEnded s i := by
  intro pc hpc
  rw [h] at hpc
  exact (Option.some.inj hpc).symm

private theorem managerStep_joins {s s' : State} (hs : Joins s) (h : managerStep s = some s') :
    Joins s' := by
  have hframe := managerStep_moves h
  have hdtor : s'.dtor = s.dtor := (managerStep_frame h).2.2.2.2.1
  refine ⟨fun i => ?_, fun ids hids => ?_, fun hd => ?_, fun hd => ?_⟩
  · -- a thread object goes only when its worker has ended
    have hkeep : HasEnded s i → HasEnded s' i ∨ (i, true) ∈ s'.threads ∨ s'.manager = .insert i :=
      fun hended => (managerStep_hasEnded h hended).imp_right .inr
    obtain hended | hjoinable | hm := hs.thread i
    · exact hkeep hended
    · obtain hmem | ⟨ids, hm | hm, rfl⟩ := s.manager.mem_threads hjoinable
      · rw [hframe.threads]
        exact .inr (.inl hmem)
      · exact hkeep (hasEnded_of_exited (hframe.joined ids hm))
      · exact hkeep (hs.erase ids hm)
    · rw [hframe.threads, hm]
      exact .inr (.inl (List.mem_append_right _ (List.mem_singleton.mpr rfl)))
  · have hended : HasEnded s (ids.headD 0) := by
      rw [hframe.manager] at hids
      obtain ⟨hm, hnone⟩ | hm := ManagerPc.next_eq_reapErase hids
      · -- a thread that is not joinable was joined before
        obtain hended | hjoinable | hinsert := hs.thread (ids.headD 0)
        · exact hended
        · exact absurd hjoinable hnone
        · rw [hm] at hinsert
          cases hinsert
      · exact hasEnded_of_exited (hframe.joined ids hm)
    exact (managerStep_hasEnded h hended).resolve_right (by simp [hids])
  -- the destructor gets past its join of the manager only when the manager has ended
  · rw [hdtor] at hd
    exact absurd (hs.manager_left hd) hframe.running
  · rw [hdtor] at hd
    exact absurd (hs.manager_left (.inr hd)) hframe.running

private theorem dtorStep_joins {s s' : State} {sel : Nat} (hs : Joins s)
    (h : dtorStep s sel = some s') : Joins s' ∨ s'.dtor = .terminated := by
  unfold dtorStep at h
  split at h
  -- the stop, and `notify_all`
  case h_1 hd =>
    cases h
    exact .inl ⟨hs.thread, hs.erase, nofun, nofun⟩
  case h_2 hd =>
    cases h
    refine .inl ⟨fun i => ?_, fun ids hm => ?_, nofun, nofun⟩
    · exact (hs.thread i).imp_left fun h => hasEnded_notifyAll rfl h
    · exact hasEnded_notifyAll rfl (hs.erase ids hm)
  -- the loop over `m_workers`
  case h_3 hd =>
    split at h
    · cases h
      exact .inl ⟨hs.thread, hs.erase, nofun, nofun⟩
    · split at h
      · split at h
        · cases h
        · split at h <;> cases h <;> exact .inl ⟨hs.thread, hs.erase, nofun, nofun⟩
      · cases h
  case h_4 tid visited hd =>
    obtain ⟨hexited, hs'⟩ := Option.ite_none_right_eq_some.mp h
    cases hs'
    refine .inl ⟨fun i => ?_, hs.erase, nofun, nofun⟩
    obtain hended | hjoinable | htid := hs.thread i
    · exact .inl hended
    · by_cases hi : i = tid
      · rw [hi]
        exact .inl (hasEnded_of_exited hexited)
      · exact .inr (.inl (List.mem_map.mpr ⟨(i, true), hjoinable, if_neg hi⟩))
    · exact .inr (.inr htid)
  case h_5 hd =>
    obtain ⟨hm, hs'⟩ := Option.ite_none_right_eq_some.mp h
    cases hs'
    exact .inl ⟨hs.thread, hs.erase, fun _ => hm, nofun⟩
  -- `m_workers.clear()`
  case h_6 hd =>
    cases h
    have hleft := hs.manager_left (.inl hd)
    by_cases hjoinable : s.threads.any (·.2) = true
    · right
      exact if_pos hjoinable
    · have hended : ∀ i, HasEnded s i := by
        intro i
        obtain hended | hmem | htid := hs.thread i
        · exact hended
        · exact absurd (List.any_eq_true.mpr ⟨_, hmem, rfl⟩) hjoinable
        · rw [hleft] at htid
          cases htid
      exact .inl ⟨fun i => .inl (hended i), hs.erase, fun _ => hleft, fun _ => hended⟩
  case h_7 => cases h
  case h_8 => cases h

/-- A worker leaves the thread objects, and what has been joined, to the others. -/
theorem workerStepAt_threads {s s' : State} {i : Nat} {pc : WorkerPc}
    (h : workerStepAt s i pc = some s') : s'.threads = s.threads ∧ s'.joins = s.joins := by
  cases pc with
  | asleep | exited => cases h
  | acquire | woken | exitLockIds =>
    obtain ⟨-, hs⟩ := Option.ite_none_right_eq_some.mp h
    cases hs
    exact ⟨rfl, rfl⟩
  | take =>
    simp only [workerStepAt] at h
    split at h
    · cases h
      exact ⟨rfl, rfl⟩
    · cases h
      exact ⟨rfl, rfl⟩
  | _ =>
    cases h
    exact ⟨rfl, rfl⟩

private theorem workerStep_joins {s s' : State} {i : Nat} (hs : Joins s)
    (h : workerStep s i = some s') : Joins s' := by
  obtain ⟨pc, hpc, hstep, hframe⟩ := workerStep_frame h
  have hne : pc ≠ .exited := by
    rintro rfl
    cases hstep
  exact hs.of_workers (workerStepAt_threads hstep).1 hframe.manager hframe.dtor fun j hj =>
    hasEnded_set hpc hne hframe.workers hj

theorem step_joins {s s' : State} {a : Action} (hs : Joins s ∨ s.dtor = .terminated)
    (h : step s a = some s') : Joins s' ∨ s'.dtor = .terminated := by
  obtain ⟨task, -, -, rfl⟩ | ⟨sel, ws, -, -, hws, rfl⟩ | ⟨i, -, h⟩ | ⟨-, h⟩ | ⟨sel, -, h⟩ :=
    step_cases h
  · exact hs.imp_left fun hs => hs.of_workers rfl rfl rfl fun _ h => h
  · refine hs.imp_left fun hs => hs.of_workers rfl rfl rfl fun i hended => ?_
    obtain ⟨hsel, rfl⟩ | ⟨-, rfl⟩ := notifyOne_cases hws
    · exact hasEnded_set hsel nofun rfl hended
    · exact hended
  · obtain ⟨pc, -, -, hframe⟩ := workerStep_frame h
    obtain hs | hterm := hs
    · exact .inl (workerStep_joins hs h)
    · exact .inr (hframe.dtor.trans hterm)
  · obtain hs | hterm := hs
    · exact .inl (managerStep_joins hs h)
    · exact .inr ((managerStep_frame h).2.2.2.2.1.trans hterm)
  · obtain hs | hterm := hs
    · exact dtorStep_joins hs h
    · simp only [dtorStep, hterm] at h
      cases h

/-- Only `m_workers.clear()` can terminate, and it does if a thread is still joinable. -/
theorem dtorStep_terminated {s s' : State} {sel : Nat} (h : dtorStep s sel = some s') :
    s'.dtor = .terminated ↔ s.dtor = .clear ∧ s.threads.any (·.2) = true := by
  unfold dtorStep at h
  split at h
  case h_6 hd =>
    cases h
    rw [hd]
    show (if _ then _ else _) = _ ↔ _
    by_cases hjoinable : s.threads.any (·.2) = true
    · rw [if_pos hjoinable]
      exact iff_of_true rfl ⟨rfl, hjoinable⟩
    · rw [if_neg hjoinable]
      exact iff_of_false nofun fun h => hjoinable h.2
  all_goals
    rename_i hd
    rw [hd]
    repeat' split at h
    all_goals
      cases h
      try exact iff_of_false nofun fun h => nomatch h.1

/-- The destructor is through. -/
theorem step_returned {s s' : State} {a : Action} (h : step s a = some s')
    (hd : s.dtor = .returned) : s'.dtor = .returned := by
  obtain ⟨task, -, -, rfl⟩ | ⟨sel, ws, -, -, -, rfl⟩ | ⟨i, -, h⟩ | ⟨-, h⟩ | ⟨sel, -, h⟩ :=
    step_cases h
  · exact hd
  · exact hd
  · obtain ⟨pc, -, -, hframe⟩ := workerStep_frame h
    rw [hframe.dtor, hd]
  · rw [(managerStep_frame h).2.2.2.2.1, hd]
  · simp only [dtorStep, hd] at h
    cases h

theorem start_joins (min max exitThread : Int) : Joins (start min max exitThread) := by
  refine ⟨fun i => ?_, nofun, nofun, nofun⟩
  by_cases hi : i < min.toNat
  · exact .inr (.inl (List.mem_map.mpr ⟨i, List.mem_range.mpr hi, rfl⟩))
  · left
    intro pc hpc
    have hlen : (start min max exitThread).workers.length = min.toNat := List.length_replicate
    rw [List.getElem?_eq_none (by omega)] at hpc
    cases hpc

/-- When the destructor has returned, every worker has ended. -/
theorem reachable_joined {min max exitThread : Int} {s : State}
    (h : (system min max exitThread).Reachable s) (hd : s.dtor = .returned) :
    ∀ pc ∈ s.workers, pc = .exited := by
  have hjoins := reachable_invariant (I := fun s => Joins s ∨ s.dtor = .terminated)
    (.inl (start_joins min max exitThread)) step_joins h
  intro pc hmem
  obtain ⟨i, hi⟩ := List.getElem?_of_mem hmem
  obtain hjoins | hterm := hjoins
  · exact hjoins.returned hd i pc hi
  · rw [hd] at hterm
    cases hterm

end ThreadPool
