import AsyncLogStorage.Spec.ThreadPoolRest
import Mathlib.Logic.Relation

/-!
# Reaping exited workers

The manager joins workers while it holds `m_idsMutex`, and a worker takes `m_idsMutex`
while it holds `m_queueMutex`. A worker leaves its id inside its section under
`m_idsMutex`, so whoever the manager finds there has only `m_queueMutex` to release.
Who waits for whom is then ordered, and no cycle can close.

## Key results

- `Mutexes.reaped`: what the workers that the manager joins have left to do
- `WaitsFor.rank_lt`: along the wait-for graph a rank falls
- `reachable_reaps`: no reachable state has a cycle of waiting threads
-/

namespace ThreadPool

/-! ## Who waits for whom -/

/-- The worker wants to enter its section under `m_queueMutex`. -/
def WorkerPc.wantsQueue : WorkerPc → Bool
  | .acquire | .woken => true
  | _ => false

/-- The first thread cannot go on before the second one has: it wants a mutex that the second
    one holds, or joins it. Nobody waits for a caller of `addTask`, which holds the mutex for
    one step, or for the destructor. -/
inductive WaitsFor (s : State) : Owner → Owner → Prop
  | queue {i j : Nat} (hwants : isAt WorkerPc.wantsQueue s.workers i = true)
      (hheld : s.queueMutex = some j) : WaitsFor s (.worker i) (.worker j)
  | ids {i : Nat} {owner : Owner} (hwants : s.workers[i]? = some .exitLockIds)
      (hheld : s.idsMutex = some owner) : WaitsFor s (.worker i) owner
  | lockIds {owner : Owner} (hwants : s.manager = .lockIds)
      (hheld : s.idsMutex = some owner) : WaitsFor s .manager owner
  | join {ids : List Nat} (hjoin : s.manager = .reapJoin ids)
      (hruns : s.workers[ids.headD 0]? ≠ some .exited) :
      WaitsFor s .manager (.worker (ids.headD 0))

/-- The order in which the threads wait for one another. -/
def WorkerPc.waitRank : WorkerPc → Nat
  | .acquire | .woken => 3
  | .exitLockIds => 2
  | _ => 0

def waitRank (s : State) : Owner → Nat
  | .worker i => (s.workers[i]?).elim 0 WorkerPc.waitRank
  | .manager => 1

theorem waitRank_worker {s : State} {i : Nat} {pc : WorkerPc} (h : s.workers[i]? = some pc) :
    waitRank s (.worker i) = pc.waitRank := by
  simp only [waitRank, h, Option.elim_some]

/-! ## The workers in `m_ids` -/

section
variable {s : State} (hs : Mutexes s)
include hs

/-- While the manager is in its section, the workers of `m_ids` have left theirs. They have the
    queue to release, or nothing at all. -/
theorem Mutexes.reaped (hm : s.manager.holdsIds = true) {id : Nat} (hid : id ∈ s.ids) :
    s.workers[id]? = some .exitUnlockQueue ∨ s.workers[id]? = some .exited := by
  obtain ⟨pc, hpc, hleft⟩ := exists_of_isAt (hs.ids id hid)
  cases pc with
  | exitUnlockIds =>
    -- it would hold the mutex that the manager holds
    have hworker := (hs.worker id).mpr (isAt_of_getElem? hpc)
    have hmanager := hs.manager.mpr hm
    rw [hworker] at hmanager
    cases hmanager
  | exitUnlockQueue => exact .inl hpc
  | exited => exact .inr hpc
  | _ => cases hleft

/-- The worker that the manager joins is one of them. -/
theorem Mutexes.headD_mem_ids (hm : s.manager.atHead = true) :
    s.manager.reaping.headD 0 ∈ s.ids := by
  cases hids : s.manager.reaping with
  | nil => exact absurd hids (hs.head hm)
  | cons id rest =>
    apply hs.reaping
    rw [hids]
    exact List.mem_cons_self

theorem Mutexes.joined {ids : List Nat} (hm : s.manager = .reapJoin ids) :
    s.workers[ids.headD 0]? = some .exitUnlockQueue ∨
      s.workers[ids.headD 0]? = some .exited := by
  have hmem : s.manager.reaping.headD 0 ∈ s.ids := hs.headD_mem_ids (by rw [hm]; rfl)
  rw [hm] at hmem
  exact hs.reaped (by rw [hm]; rfl) hmem

/-- A worker inside its section under `m_idsMutex` waits for nothing. -/
theorem Mutexes.waitRank_idsOwner {i : Nat} (h : s.idsMutex = some (.worker i)) :
    waitRank s (.worker i) = 0 := by
  obtain ⟨pc, hpc, hholds⟩ := exists_of_isAt ((hs.worker i).mp h)
  rw [waitRank_worker hpc]
  cases pc with
  | exitPush | exitUnlockIds => rfl
  | _ => cases hholds

/-- Whoever waits has a higher rank than the thread it waits for. -/
theorem WaitsFor.rank_lt {t u : Owner} (h : WaitsFor s t u) : waitRank s u < waitRank s t := by
  cases h with
  | queue hwants hheld =>
    obtain ⟨pci, hi, hwants⟩ := exists_of_isAt hwants
    obtain ⟨pcj, hj, hholds⟩ := exists_of_isAt (hs.queue _ hheld)
    have hhigh : pci.waitRank = 3 := by
      cases pci with
      | acquire | woken => rfl
      | _ => cases hwants
    -- the holder waits for `m_idsMutex` at most
    have hlow : pcj.waitRank ≤ 2 := by
      cases pcj with
      | acquire | woken => cases hholds
      | _ => simp [WorkerPc.waitRank]
    rw [waitRank_worker hi, waitRank_worker hj]
    omega
  | ids hwants hheld =>
    rw [waitRank_worker hwants]
    cases u with
    | worker j =>
      rw [hs.waitRank_idsOwner hheld]
      simp [WorkerPc.waitRank]
    | manager => simp [waitRank, WorkerPc.waitRank]
  | lockIds hwants hheld =>
    cases u with
    | worker j =>
      rw [hs.waitRank_idsOwner hheld]
      simp [waitRank]
    | manager =>
      -- the manager is not in its section yet
      have hholds := hs.manager.mp hheld
      rw [hwants] at hholds
      cases hholds
  | join hjoin hruns =>
    obtain hpc | hpc := hs.joined hjoin
    · rw [waitRank_worker hpc]
      simp [waitRank, WorkerPc.waitRank]
    · exact absurd hpc hruns

theorem WaitsFor.rank_lt_of_transGen {t u : Owner} (h : Relation.TransGen (WaitsFor s) t u) :
    waitRank s u < waitRank s t := by
  induction h with
  | single h => exact h.rank_lt hs
  | tail _ h ih =>
    have hstep := h.rank_lt hs
    omega

/-- The worker that the manager joins waits for nobody. -/
theorem Mutexes.joined_free {ids : List Nat} (hm : s.manager = .reapJoin ids) (t : Owner) :
    ¬WaitsFor s (.worker (ids.headD 0)) t := by
  intro hwaits
  have hlt := hwaits.rank_lt hs
  obtain hpc | hpc := hs.joined hm
  · rw [waitRank_worker hpc] at hlt
    simp [WorkerPc.waitRank] at hlt
  · rw [waitRank_worker hpc] at hlt
    simp [WorkerPc.waitRank] at hlt

/-- It has ended, or it ends by its next step. -/
theorem Mutexes.join_enabled {ids : List Nat} (hm : s.manager = .reapJoin ids) :
    (managerStep s).isSome = true ∨
      ∃ s', step s (.worker (ids.headD 0)) = some s' ∧ (managerStep s').isSome = true := by
  obtain hpc | hpc := hs.joined hm
  · right
    refine ⟨{ s.goto (ids.headD 0) .exited with queueMutex := none }, ?_, ?_⟩
    · simp only [step, workerStep, hpc, Option.bind_some, workerStepAt]
    · have hlt : ids.headD 0 < s.workers.length := (List.getElem?_eq_some_iff.mp hpc).1
      simp only [managerStep, State.goto, hm, List.getElem?_set_self hlt, ↓reduceIte,
        Option.isSome_some]
  · left
    simp only [managerStep, hm, hpc, ↓reduceIte, Option.isSome_some]

end

/-- In no reachable state does the manager join a worker that waits for anything: every worker it
    finds in `m_ids` has released `m_idsMutex` and needs no lock to end, and no threads wait for
    one another in a circle. -/
theorem reachable_reaps {min max exitThread : Int} {s : State}
    (h : (wakingSystem min max exitThread).Reachable s) :
    (s.manager.holdsIds = true → ∀ id ∈ s.ids,
      s.workers[id]? = some .exitUnlockQueue ∨ s.workers[id]? = some .exited) ∧
    (∀ ids, s.manager = .reapJoin ids → ids.headD 0 ∈ s.ids ∧
      (∀ t, ¬WaitsFor s (.worker (ids.headD 0)) t) ∧
      ((managerStep s).isSome = true ∨
        ∃ s', step s (.worker (ids.headD 0)) = some s' ∧ (managerStep s').isSome = true)) ∧
    ∀ t, ¬Relation.TransGen (WaitsFor s) t t := by
  have hs : Mutexes s := reachable_waking (start_mutexes min max exitThread)
    (wakingStep_invariant (fun _ hs => ⟨hs.queue, hs.worker, hs.manager, hs.ids, hs.reaping,
      hs.head⟩) step_mutexes) h
  refine ⟨fun hm id hid => hs.reaped hm hid, fun ids hm => ?_, fun t hcycle => ?_⟩
  · have hmem : s.manager.reaping.headD 0 ∈ s.ids := hs.headD_mem_ids (by rw [hm]; rfl)
    rw [hm] at hmem
    exact ⟨hmem, hs.joined_free hm, hs.join_enabled hm⟩
  · exact Nat.lt_irrefl _ (WaitsFor.rank_lt_of_transGen hs hcycle)

/-- The manager of an empty pool starts a worker, which goes to sleep. With one idle worker and a
    minimum of none it releases two tokens, the worker leaves, and the manager gets to the join. -/
def reapSchedule : List WakingAction :=
  List.replicate 9 (WakingAction.pool Action.manager) ++
    List.replicate 4 (WakingAction.pool (Action.worker 0)) ++
    List.replicate 7 (WakingAction.pool Action.manager) ++
    List.replicate 8 (WakingAction.pool (Action.worker 0)) ++
    List.replicate 4 (WakingAction.pool Action.manager)

/-- The manager is in its join, and the worker still holds the queue. -/
theorem reachable_reaps_one :
    ∃ s, (s.manager = .reapJoin [0] ∧ s.queueMutex = some 0 ∧ s.ids = [0]) ∧
      (s.workers[0]? = some .exitUnlockQueue ∨ s.workers[0]? = some .exited) ∧
      (∀ t, ¬WaitsFor s (.worker 0) t) ∧ ¬Relation.TransGen (WaitsFor s) .manager .manager := by
  have hrun : ((wakingSystem 0 1 0).run (start 0 1 0) reapSchedule).any (fun s =>
      decide (s.manager = .reapJoin [0] ∧ s.queueMutex = some 0 ∧ s.ids = [0])) = true := by
    decide +kernel
  obtain ⟨s, hreach, hs⟩ := Transition.exists_reachable_of_run rfl hrun
  obtain ⟨hreaped, hjoin, hcycle⟩ := reachable_reaps hreach
  refine ⟨s, hs, ?_, (hjoin [0] hs.1).2.1, hcycle .manager⟩
  apply hreaped
  · rw [hs.1]
    rfl
  · rw [hs.2.2]
    exact List.mem_singleton_self 0

end ThreadPool
