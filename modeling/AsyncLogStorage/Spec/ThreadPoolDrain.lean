import AsyncLogStorage.Spec.ThreadPoolAccount

/-!
# What becomes of the queue at shutdown

A worker that looks at the queue after the stop takes one task at most, and then it ends.
So the queued tasks are all taken only as long as there are no more of them than workers
that still have to look.

## Key results

- `step_outOfReach`: a task with too few takers before it stays out of reach
- `reachable_woken`: a taker that sleeps with tasks queued is still to be notified
-/

namespace ThreadPool

/-! ## Workers that still take a task -/

/-- After the stop a worker here will look at the queue once more, and nobody else will. -/
def WorkerPc.mayTake : WorkerPc → Bool
  | .acquire | .testWait | .block | .asleep | .woken | .checkExit | .take => true
  | _ => false

/-- The workers that will look at the queue after the stop. -/
def takers (s : State) : Nat := s.workers.countP WorkerPc.mayTake

theorem WorkerPc.mayTake_notified (pc : WorkerPc) : pc.notified.mayTake = pc.mayTake := by
  cases pc <;> rfl

/-- After the stop a worker gives its place up by taking, or by the exit branch. -/
theorem WorkerPc.mayTake_next {s : State} {pc : WorkerPc} (hstop : s.stop = true) :
    (pc.next s).mayTake = true ↔
      pc.mayTake = true ∧ pc ≠ .take ∧ ¬(pc = .checkExit ∧ 0 < s.exitThread) := by
  have hgoes := pc.goes_next s
  generalize pc.next s = pc' at hgoes ⊢
  cases hgoes with
  | loopHead hrun | wait _ hrun =>
    rw [hstop] at hrun
    cases hrun
  | leave htok | stay htok => simp [htok, mayTake]
  | _ => simp [mayTake]

/-- A worker step after the stop: the worker takes the first task, goes through the exit
    branch, or leaves the queue and stays a taker if it was one. -/
theorem workerStep_takers {s s' : State} {i : Nat} (h : workerStep s i = some s')
    (hstop : s.stop = true) :
    (s.workers[i]? = some .take ∧ s'.tasks = s.tasks.tail ∧ takers s' + 1 = takers s) ∨
    (s.workers[i]? = some .checkExit ∧ 0 < s.exitThread ∧ s'.tasks = s.tasks ∧
      takers s' + 1 = takers s) ∨
    (¬(s.workers[i]? = some .checkExit ∧ 0 < s.exitThread) ∧ s'.tasks = s.tasks ∧
      takers s' = takers s) := by
  obtain ⟨pc, hpc, hstep, hframe⟩ := workerStep_frame h
  have hnext : (pc.next s).mayTake = true ↔ _ := WorkerPc.mayTake_next hstop
  have hcount : takers s' + (if pc.mayTake then 1 else 0) =
      takers s + (if (pc.next s).mayTake then 1 else 0) := hframe.countP WorkerPc.mayTake hpc
  by_cases htake : pc = .take
  · subst htake
    obtain ⟨-, ⟨-, htasks, -⟩ | ⟨t, hrun, -⟩ | ⟨hne, -⟩⟩ := workerStepAt_tasks hstep
    · exact .inl ⟨hpc, htasks, hcount⟩
    · cases hrun
    · exact absurd rfl hne
  · have htasks := hframe.tasks htake
    by_cases hexit : pc = .checkExit ∧ 0 < s.exitThread
    · obtain ⟨rfl, htok⟩ := hexit
      have hgone : ¬((WorkerPc.checkExit).next s).mayTake = true := fun h =>
        (hnext.mp h).2.2 ⟨rfl, htok⟩
      rw [if_neg hgone] at hcount
      exact .inr (.inl ⟨hpc, htok, htasks, hcount⟩)
    · refine .inr (.inr ⟨fun hexit' => hexit ?_, htasks, ?_⟩)
      · rw [hpc] at hexit'
        exact ⟨Option.some.inj hexit'.1, hexit'.2⟩
      · by_cases hmay : pc.mayTake = true
        · rw [if_pos hmay, if_pos (hnext.mpr ⟨hmay, htake, hexit⟩)] at hcount
          omega
        · rw [if_neg hmay, if_neg fun h => hmay (hnext.mp h).1] at hcount
          omega

theorem managerStep_takers {s s' : State} (h : managerStep s = some s') :
    takers s' = takers s := by
  obtain ⟨-, -, -, -, -, ⟨-, hw⟩ | ⟨-, hw⟩ | ⟨-, hw⟩⟩ := managerStep_frame h
  · simp only [takers, hw, countP_notifyAll WorkerPc.mayTake_notified]
  · -- a worker that is started after the stop sees it at once
    simp [takers, hw, List.countP_append, WorkerPc.mayTake]
  · simp only [takers, hw]

theorem dtorStep_takers {s s' : State} {sel : Nat} (h : dtorStep s sel = some s') :
    takers s' = takers s := by
  obtain ⟨-, -, -, ⟨-, -, hw⟩ | ⟨-, -, hw | hw⟩⟩ := dtorStep_frame h
  · simp only [takers, hw]
  · simp only [takers, hw]
  · simp only [takers, hw, countP_notifyAll WorkerPc.mayTake_notified]

/-- After the stop the task has no fewer tasks before it than there are takers. -/
def OutOfReach (t : Task) (s : State) : Prop :=
  s.stop = true ∧ ∃ pre post, s.tasks = pre ++ t :: post ∧ takers s ≤ pre.length

theorem exists_outOfReach {s : State} (hstop : s.stop = true) (h : takers s < s.tasks.length) :
    ∃ t ∈ s.tasks, OutOfReach t s := by
  refine ⟨s.tasks[takers s], List.getElem_mem h, hstop, s.tasks.take (takers s),
    s.tasks.drop (takers s + 1), ?_, ?_⟩
  · rw [← List.drop_eq_getElem_cons h, List.take_append_drop]
  · rw [List.length_take]
    omega

/-- Takers take from the front, and there are never more of them. -/
theorem step_outOfReach {s s' : State} {a : Action} {t : Task} (hs : OutOfReach t s)
    (h : step s a = some s') : OutOfReach t s' := by
  obtain ⟨hstop, pre, post, htasks, hle⟩ := hs
  refine ⟨step_stop h hstop, ?_⟩
  obtain ⟨task, -, -, rfl⟩ | ⟨sel, ws, -, -, hws, rfl⟩ | ⟨i, -, h⟩ | ⟨-, h⟩ | ⟨sel, -, h⟩ :=
    step_cases h
  · refine ⟨pre, post ++ [task], ?_, hle⟩
    show s.tasks ++ [task] = pre ++ t :: (post ++ [task])
    rw [htasks, List.append_assoc, List.cons_append]
  · refine ⟨pre, post, htasks, ?_⟩
    show ws.countP WorkerPc.mayTake ≤ pre.length
    rw [countP_notifyOne WorkerPc.mayTake_notified hws]
    exact hle
  · obtain ⟨-, htail, hcount⟩ | ⟨-, -, hsame, hcount⟩ | ⟨-, hsame, hcount⟩ :=
      workerStep_takers h hstop
    · -- one taker and one of the tasks before it go
      cases pre with
      | nil =>
        rw [List.length_nil] at hle
        omega
      | cons first pre =>
        refine ⟨pre, post, ?_, ?_⟩
        · rw [htail, htasks, List.cons_append, List.tail_cons]
        · rw [List.length_cons] at hle
          omega
    · exact ⟨pre, post, hsame.trans htasks, by omega⟩
    · exact ⟨pre, post, hsame.trans htasks, by omega⟩
  · rw [← managerStep_takers h] at hle
    exact ⟨pre, post, (managerStep_frame h).2.1.trans htasks, hle⟩
  · rw [← dtorStep_takers h] at hle
    exact ⟨pre, post, (dtorStep_frame h).1.trans htasks, hle⟩

/-! ## Workers that sleep after the stop -/

/-- The destructor has sent its `notify_all`. -/
def DtorPc.notified : DtorPc → Bool
  | .notCalled | .notifyAll => false
  | _ => true

/-- The worker is in `m_condition.wait`, or about to be. -/
def WorkerPc.rests : WorkerPc → Bool
  | .block | .asleep => true
  | _ => false

/-- What holds of the sleepers once the destructor has notified. -/
structure Woken (s : State) : Prop where
  /-- Only the worker that was about to sleep then can sleep. -/
  single : ∀ (i j : Nat) pci pcj, s.workers[i]? = some pci → pci.rests = true →
    s.workers[j]? = some pcj → pcj.rests = true → i = j
  /-- A task that comes later brings a notification of its own. -/
  pending : .asleep ∈ s.workers → s.tasks ≠ [] → 0 < s.pendingNotify

theorem WorkerPc.rests_next {s : State} {pc : WorkerPc} (hstop : s.stop = true)
    (h : (pc.next s).rests = true) (hne : pc ≠ .asleep) : pc = .block ∧ pc.next s = .asleep := by
  have hgoes := pc.goes_next s
  generalize pc.next s = pc' at h hgoes ⊢
  cases hgoes with
  | block => exact ⟨rfl, rfl⟩
  | asleep => exact absurd rfl hne
  | wait _ hrun =>
    rw [hstop] at hrun
    cases hrun
  | _ => cases h

/-- Fewer workers at rest keep the account. -/
private theorem Woken.of_workers {s s' : State} (hs : Woken s) (htasks : s'.tasks = s.tasks)
    (hpending : s'.pendingNotify = s.pendingNotify)
    (hworkers : ∀ (i : Nat) pc, s'.workers[i]? = some pc → pc.rests = true →
      s.workers[i]? = some pc) : Woken s' := by
  refine ⟨fun i j pci pcj hi hri hj hrj => ?_, fun hmem hne => ?_⟩
  · exact hs.single i j pci pcj (hworkers i pci hi hri) hri (hworkers j pcj hj hrj) hrj
  · obtain ⟨i, hi⟩ := List.getElem?_of_mem hmem
    rw [hpending]
    rw [htasks] at hne
    exact hs.pending (List.mem_of_getElem? (hworkers i _ hi rfl)) hne

/-- Nobody falls asleep by being woken. -/
private theorem getElem?_notifyAll_rests {ws : List WorkerPc} {i : Nat} {pc : WorkerPc}
    (h : (notifyAll ws)[i]? = some pc) (hr : pc.rests = true) : pc = .block ∧ ws[i]? = some pc := by
  simp only [notifyAll, List.getElem?_map] at h
  obtain ⟨pc₀, hpc₀, rfl⟩ := Option.map_eq_some_iff.mp h
  cases pc₀ with
  | block => exact ⟨rfl, hpc₀⟩
  | _ => cases hr

private theorem workerStep_woken {s s' : State} {i : Nat} (hlocked : Locked s) (hs : Woken s)
    (hstop : s.stop = true) (h : workerStep s i = some s') : Woken s' := by
  obtain ⟨pc, hpc, hstep, hframe⟩ := workerStep_frame h
  have hlt : i < s.workers.length := (List.getElem?_eq_some_iff.mp hpc).1
  have hne : pc ≠ .asleep := by
    rintro rfl
    cases hstep
  -- a worker at rest after the step was at rest before it
  have hback : ∀ (j : Nat) q, s'.workers[j]? = some q → q.rests = true →
      s.workers[j]? = some q ∨ (j = i ∧ pc = .block ∧ q = .asleep) := by
    intro j q hj hq
    rw [hframe.workers] at hj
    obtain ⟨rfl, rfl⟩ | ⟨-, hj⟩ := List.getElem?_set_cases hj
    · obtain ⟨hblock, hsleep⟩ := WorkerPc.rests_next hstop hq hne
      exact .inr ⟨rfl, hblock, hsleep⟩
    · exact .inl hj
  have hrest : ∀ (j : Nat) q, s'.workers[j]? = some q → q.rests = true →
      ∃ q', s.workers[j]? = some q' ∧ q'.rests = true := by
    intro j q hj hq
    obtain hold | ⟨rfl, rfl, -⟩ := hback j q hj hq
    · exact ⟨q, hold, hq⟩
    · exact ⟨.block, hpc, rfl⟩
  refine ⟨fun j k pcj pck hj hrj hk hrk => ?_, fun hmem htasks => ?_⟩
  · obtain ⟨qj, hqj, hrqj⟩ := hrest j pcj hj hrj
    obtain ⟨qk, hqk, hrqk⟩ := hrest k pck hk hrk
    exact hs.single j k qj qk hqj hrqj hqk hrqk
  · rw [hframe.pendingNotify]
    obtain ⟨j, hj⟩ := List.getElem?_of_mem hmem
    obtain hold | ⟨rfl, rfl, -⟩ := hback j _ hj rfl
    · refine hs.pending (List.mem_of_getElem? hold) fun hnil => htasks ?_
      obtain ⟨-, ⟨-, htail, -⟩ | ⟨-, -, hsame, -⟩ | ⟨-, -, hsame, -⟩⟩ := workerStepAt_tasks hstep
      · rw [htail, hnil, List.tail_nil]
      · rw [hsame, hnil]
      · rw [hsame, hnil]
    · -- it has seen an empty queue, and the mutex kept it so
      rw [hframe.tasks nofun] at htasks
      exact absurd (hlocked.block_empty j hpc) htasks

/-- A notification wakes the only sleeper. -/
private theorem notifyOne_woken {s : State} {sel : Nat} {ws : List WorkerPc} (hs : Woken s)
    (h : notifyOne s.workers sel = some ws) (pending : Nat) :
    Woken { s with workers := ws, pendingNotify := pending } := by
  obtain ⟨hsel, rfl⟩ | ⟨hnobody, rfl⟩ := notifyOne_cases h
  · have hback : ∀ (j : Nat) q, (s.workers.set sel .woken)[j]? = some q → q.rests = true →
        j ≠ sel ∧ s.workers[j]? = some q := by
      intro j q hj hq
      obtain ⟨-, rfl⟩ | ⟨hne, hj⟩ := List.getElem?_set_cases hj
      · cases hq
      · exact ⟨Ne.symm hne, hj⟩
    refine ⟨fun j k pcj pck hj hrj hk hrk => ?_, fun hmem _ => ?_⟩
    · exact hs.single j k pcj pck (hback j pcj hj hrj).2 hrj (hback k pck hk hrk).2 hrk
    · obtain ⟨j, hj⟩ := List.getElem?_of_mem hmem
      obtain ⟨hne, hj⟩ := hback j _ hj rfl
      exact absurd (hs.single j sel _ _ hj rfl hsel rfl) hne
  · exact ⟨hs.single, fun hmem _ => absurd hmem hnobody⟩

/-- The manager and the destructor put nobody to rest. -/
private theorem managerStep_woken {s s' : State} (hs : Woken s) (h : managerStep s = some s') :
    Woken s' := by
  obtain ⟨-, htasks, -, hpending, -, hworkers⟩ := managerStep_frame h
  apply hs.of_workers htasks hpending
  intro i pc hi hr
  obtain ⟨-, hw⟩ | ⟨-, hw⟩ | ⟨-, hw⟩ := hworkers
  · rw [hw] at hi
    exact (getElem?_notifyAll_rests hi hr).2
  · rw [hw, List.getElem?_append] at hi
    split at hi
    · exact hi
    · rw [List.mem_singleton.mp (List.mem_of_getElem? hi)] at hr
      cases hr
  · rwa [hw] at hi

private theorem dtorStep_woken {s s' : State} {sel : Nat} (hlocked : Locked s)
    (hs : s.dtor.notified = true → Woken s) (h : dtorStep s sel = some s')
    (hd : s'.dtor.notified = true) : Woken s' := by
  cases hd₀ : s.dtor with
  | notCalled =>
    simp only [dtorStep, hd₀] at h
    cases h
    cases hd
  | notifyAll =>
    -- everybody is woken but the worker that is about to sleep, which holds the mutex
    simp only [dtorStep, hd₀] at h
    cases h
    refine ⟨fun i j pci pcj hi hri hj hrj => ?_, fun hmem _ => ?_⟩
    · obtain ⟨rfl, hi⟩ := getElem?_notifyAll_rests hi hri
      obtain ⟨rfl, hj⟩ := getElem?_notifyAll_rests hj hrj
      exact hlocked.holder_unique hi rfl hj rfl
    · exact absurd hmem (asleep_not_mem_notifyAll s.workers)
  | _ =>
    obtain ⟨htasks, -, -, hworkers⟩ := dtorStep_frame h
    obtain ⟨-, -, -, hpending⟩ := dtorStep_tasks h
    have hwoken : Woken s := hs (by rw [hd₀]; rfl)
    apply hwoken.of_workers htasks hpending
    intro i pc hi hr
    obtain ⟨-, -, hw⟩ | ⟨-, -, hw | hw⟩ := hworkers
    · rwa [hw] at hi
    · rwa [hw] at hi
    · rw [hw] at hi
      exact (getElem?_notifyAll_rests hi hr).2

theorem step_woken {s s' : State} {a : Action} (hlocked : Locked s)
    (hs : s.dtor.notified = true → Woken s) (h : step s a = some s') :
    s'.dtor.notified = true → Woken s' := by
  intro hd
  obtain ⟨task, -, -, rfl⟩ | ⟨sel, ws, -, -, hws, rfl⟩ | ⟨i, -, h⟩ | ⟨-, h⟩ | ⟨sel, -, h⟩ :=
    step_cases h
  · exact ⟨(hs hd).single, fun _ _ => Nat.succ_pos _⟩
  · exact notifyOne_woken (hs hd) hws _
  · obtain ⟨pc, -, -, hframe⟩ := workerStep_frame h
    rw [hframe.dtor] at hd
    have hstop : s.stop = true := by
      cases hstop : s.stop with
      | true => rfl
      | false =>
        rw [hlocked.dtor_called hstop] at hd
        cases hd
    exact workerStep_woken hlocked (hs hd) hstop h
  · obtain ⟨-, -, -, -, hdtor, -⟩ := managerStep_frame h
    rw [hdtor] at hd
    exact managerStep_woken (hs hd) h
  · exact dtorStep_woken hlocked hs h hd

theorem reachable_woken {min max exitThread : Int} {s : State}
    (h : (system min max exitThread).Reachable s) (hd : s.dtor.notified = true) : Woken s := by
  refine (reachable_invariant (I := fun s => Locked s ∧ (s.dtor.notified = true → Woken s))
    ⟨start_locked min max exitThread, nofun⟩ ?_ h).2 hd
  intro s s' a ⟨hlocked, hs⟩ hstep
  exact ⟨step_locked hlocked hstep, step_woken hlocked hs hstep⟩

end ThreadPool
