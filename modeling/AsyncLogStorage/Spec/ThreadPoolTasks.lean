import AsyncLogStorage.Spec.ThreadPoolAccount

/-!
# Each task once

`Accounted` says where a task can be found; here its places are counted. A worker step
takes a task from the queue into the hands of the worker, or from its hands to the
completed tasks, so a task is in as many places as it was added times. The one
exception is an empty `std::function`, which the worker that took it drops.

## Key results

- `step_placesOf`: what a step does to the number of places of a task
- `reachable_conserved`: no callable task is lost, none is in two places, and the tasks are
  taken in the order in which they were added
-/

namespace ThreadPool

/-- The worker has the task in its hands. -/
def WorkerPc.holds (t : Task) (pc : WorkerPc) : Bool := decide (pc.task = some t)

/-- The number of times that a task is in the queue, in the hands of a worker or completed. -/
def State.placesOf (s : State) (t : Task) : Nat :=
  s.tasks.count t + s.workers.countP (WorkerPc.holds t) + s.completed.count t

/-- The claim of the pool on its tasks. -/
structure Conserved (s : State) : Prop where
  /-- A callable task is in exactly as many places as it was added times. -/
  exact : ∀ t, t.callable = true → s.placesOf t = s.added.count t
  /-- No task is in more. -/
  once : ∀ t, s.placesOf t ≤ s.added.count t
  /-- A worker that leaves or has ended holds no task. -/
  leaving : ∀ pc ∈ s.workers, pc.leaving = true ∨ pc = .exited → pc.task = none
  fifo : s.taken <+: s.added

theorem WorkerPc.holds_notified (t : Task) (pc : WorkerPc) :
    pc.notified.holds t = pc.holds t := by
  rw [holds, holds, WorkerPc.task_notified]

/-- Between `take` and the run a worker neither gets nor loses a callable task. -/
theorem WorkerPc.holds_next {s : State} {t : Task} {pc : WorkerPc} (htake : pc ≠ .take)
    (hrun : ∀ t, pc ≠ .running t) :
    ((pc.next s).holds t = true → pc.holds t = true) ∧
      (t.callable = true → pc.holds t = true → (pc.next s).holds t = true) := by
  simp only [holds, decide_eq_true_eq]
  constructor
  · intro h
    exact (WorkerPc.task_of_next h).resolve_right fun h => htake h.1
  · intro hcall h
    exact (WorkerPc.task_next h hcall).resolve_right (hrun t)

/-- A worker step loses no callable task and copies none. -/
private theorem workerStep_placesOf {s s' : State} {i : Nat} (t : Task)
    (h : workerStep s i = some s') :
    s'.placesOf t ≤ s.placesOf t ∧ (t.callable = true → s'.placesOf t = s.placesOf t) := by
  obtain ⟨pc, hpc, hstep, hframe⟩ := workerStep_frame h
  have hcount := hframe.countP (WorkerPc.holds t) hpc
  unfold State.placesOf
  obtain ⟨-, ⟨rfl, htasks, -, hcompleted⟩ | ⟨t₀, rfl, htasks, -, hcompleted⟩ |
    ⟨htake, hrun, htasks, -, hcompleted⟩⟩ := workerStepAt_tasks hstep
  · -- the first task moves from the queue to the worker
    have hsplit : s.tasks.count t =
        s.tasks.tail.count t + if (WorkerPc.next s .take).holds t = true then 1 else 0 := by
      cases htask : s.tasks with
      | nil => simp [WorkerPc.next, WorkerPc.holds, WorkerPc.task, htask]
      | cons first rest =>
        simp [WorkerPc.next, WorkerPc.holds, WorkerPc.task, htask, List.count_cons]
    have hbefore : WorkerPc.holds t .take = false := rfl
    simp only [hbefore, Bool.false_eq_true, ↓reduceIte] at hcount
    rw [htasks, hcompleted]
    omega
  · -- the task of the worker is completed
    have hafter : (WorkerPc.next s (.running t₀)).holds t = false := rfl
    have hbefore : WorkerPc.holds t (.running t₀) = (t₀ == t) := by
      simp [WorkerPc.holds, WorkerPc.task, Bool.beq_eq_decide_eq]
    rw [hafter, hbefore] at hcount
    rw [htasks, hcompleted, List.count_append, List.count_singleton]
    simp only [Bool.false_eq_true, ↓reduceIte] at hcount
    omega
  · obtain ⟨hback, hforth⟩ := WorkerPc.holds_next (s := s) (t := t) htake hrun
    rw [htasks, hcompleted]
    constructor
    · split at hcount
      · split at hcount <;> omega
      · rename_i hnot
        rw [if_neg fun h => hnot (hback h)] at hcount
        omega
    · intro hcall
      have hiff : (pc.next s).holds t = pc.holds t :=
        Bool.eq_iff_iff.mpr ⟨hback, hforth hcall⟩
      rw [hiff] at hcount
      omega

/-- Only `addTask` makes a place for a task, and only an empty one loses its place. -/
theorem step_placesOf {s s' : State} {a : Action} (t : Task) (h : step s a = some s') :
    s'.placesOf t + s.added.count t ≤ s.placesOf t + s'.added.count t ∧
      (t.callable = true → s'.placesOf t + s.added.count t = s.placesOf t + s'.added.count t) := by
  obtain ⟨task, -, -, rfl⟩ | ⟨sel, ws, -, -, hws, rfl⟩ | ⟨i, -, h⟩ | ⟨-, h⟩ | ⟨sel, -, h⟩ :=
    step_cases h
  · -- the new task is in the queue
    simp only [State.placesOf, List.count_append]
    constructor
    · omega
    · intro _
      omega
  · have hheld := countP_notifyOne (p := WorkerPc.holds t) (WorkerPc.holds_notified t) hws
    simp only [State.placesOf, hheld, Nat.le_refl, implies_true, and_self]
  · obtain ⟨pc, -, hstep, -⟩ := workerStep_frame h
    obtain ⟨hle, heq⟩ := workerStep_placesOf t h
    rw [(workerStepAt_tasks hstep).1]
    constructor
    · omega
    · intro hcall
      rw [heq hcall]
  · -- the manager wakes workers and starts them with empty hands
    obtain ⟨hadded, -, hcompleted⟩ := managerStep_tasks h
    obtain ⟨-, htasks, -, -, -, hworkers⟩ := managerStep_frame h
    have hheld : s'.workers.countP (WorkerPc.holds t) = s.workers.countP (WorkerPc.holds t) := by
      obtain ⟨-, hw⟩ | ⟨-, hw⟩ | ⟨-, hw⟩ := hworkers
      · rw [hw, countP_notifyAll (WorkerPc.holds_notified t)]
      · rw [hw, List.countP_append]
        rfl
      · rw [hw]
    simp only [State.placesOf, hadded, hcompleted, htasks, hheld, Nat.le_refl, implies_true,
      and_self]
  · obtain ⟨hadded, -, hcompleted, -⟩ := dtorStep_tasks h
    obtain ⟨htasks, -, -, hworkers⟩ := dtorStep_frame h
    have hheld : s'.workers.countP (WorkerPc.holds t) = s.workers.countP (WorkerPc.holds t) := by
      obtain ⟨-, -, hw⟩ | ⟨-, -, hw | hw⟩ := hworkers
      · rw [hw]
      · rw [hw]
      · rw [hw, countP_notifyAll (WorkerPc.holds_notified t)]
    simp only [State.placesOf, hadded, hcompleted, htasks, hheld, Nat.le_refl, implies_true,
      and_self]

theorem start_placesOf (min max exitThread : Int) (t : Task) :
    (start min max exitThread).placesOf t = 0 := by
  have hheld : (start min max exitThread).workers.countP (WorkerPc.holds t) = 0 := by
    apply List.countP_eq_zero.mpr
    intro pc hmem
    rw [List.eq_of_mem_replicate hmem]
    exact Bool.false_ne_true
  rw [State.placesOf, hheld]
  rfl

/-- A task is in no more places than it was added times, and a callable one in as many. -/
theorem reachable_placesOf (t : Task) {min max exitThread : Int} {s : State}
    (h : (wakingSystem min max exitThread).Reachable s) :
    s.placesOf t ≤ s.added.count t ∧ (t.callable = true → s.placesOf t = s.added.count t) := by
  apply reachable_waking (I := fun s => s.placesOf t ≤ s.added.count t ∧
    (t.callable = true → s.placesOf t = s.added.count t)) _ _ h
  · rw [start_placesOf]
    exact ⟨Nat.zero_le _, fun _ => rfl⟩
  · apply wakingStep_invariant (I := fun s => s.placesOf t ≤ s.added.count t ∧
      (t.callable = true → s.placesOf t = s.added.count t)) fun _ hs => hs
    intro s s' a hs hstep
    obtain ⟨hle, heq⟩ := step_placesOf t hstep
    constructor
    · omega
    · intro hcall
      have hbefore := hs.2 hcall
      have hafter := heq hcall
      omega

/-- For every bounds of the pool, in every reachable state: a callable task is in exactly one
    place for each time it was added, no task is in more, a worker that leaves holds none, and
    the tasks that were taken are the first ones that were added. -/
theorem reachable_conserved (min max exitThread : Int) {s : State}
    (h : (wakingSystem min max exitThread).Reachable s) : Conserved s := by
  have hplaces := fun t => reachable_placesOf t h
  refine ⟨fun t => (hplaces t).2, fun t => (hplaces t).1, ?_, ?_⟩
  · intro pc _ hleaving
    obtain hleaving | rfl := hleaving
    · cases pc <;> first | rfl | cases hleaving
    · rfl
  · exact ⟨s.tasks, (waking_accounted h).added.symm⟩

/-- A worker that nobody has notified wakes up, takes the first of two tasks and runs it. -/
def takeSchedule : List WakingAction :=
  List.replicate 4 (.pool (.worker 0)) ++
    [.pool (.addTask ⟨0, true⟩), .pool (.addTask ⟨1, true⟩), .wake 0] ++
    List.replicate 7 (.pool (.worker 0))

theorem conserved_small :
    ∃ s, (wakingSystem 1 1 0).run (start 1 1 0) takeSchedule = some s ∧
      s.completed = [⟨0, true⟩] ∧ s.tasks = [⟨1, true⟩] ∧ Conserved s := by
  have hrun : ((wakingSystem 1 1 0).run (start 1 1 0) takeSchedule).any (fun s => decide
      (s.completed = [⟨0, true⟩] ∧ s.tasks = [⟨1, true⟩])) = true := by decide
  obtain ⟨s, hs, hend⟩ := (Option.any_eq_true _ _).mp hrun
  obtain ⟨hcompleted, htasks⟩ := of_decide_eq_true hend
  exact ⟨s, hs, hcompleted, htasks, reachable_conserved 1 1 0 ⟨_, takeSchedule, rfl, hs⟩⟩

/-- A worker takes an empty `std::function` and drops it. -/
theorem empty_task_dropped :
    ¬∀ (min max exitThread : Int) (s : State), (system min max exitThread).Reachable s →
      ∀ t ∈ s.added, t ∈ s.tasks ∨ (∃ pc ∈ s.workers, pc.task = some t) ∨ t ∈ s.completed := by
  intro h
  have hinit : (system 1 1 0).init (start 1 1 0) := rfl
  obtain ⟨s, hs, hadded, htasks, hworkers, hcompleted⟩ := Transition.exists_reachable_of_run
    (P := fun s => ⟨0, false⟩ ∈ s.added ∧ s.tasks = [] ∧ s.workers = [.loopHead] ∧ s.completed = [])
    hinit (show ((system 1 1 0).run _ [.addTask ⟨0, false⟩, .worker 0, .worker 0, .worker 0,
      .worker 0, .worker 0]).any _ = true by decide)
  have hplace := h 1 1 0 s hs _ hadded
  rw [htasks, hworkers, hcompleted] at hplace
  obtain hqueued | ⟨pc, hmem, htask⟩ | hdone := hplace
  · cases hqueued
  · rw [List.mem_singleton.mp hmem] at htask
    cases htask
  · cases hdone

end ThreadPool
