import AsyncLogStorage.Spec.LoggerShutdown
import AsyncLogStorage.Spec.ThreadPoolTasks

/-!
# The backup comes first

`serialize` waits for the backup task of an ERROR or FATAL record before it hands the record to
`Push`. So whatever the local log has of these records, the backup task of each has run, and
run once, wherever the pool's shutdown has got to. The other records never go to the pool.

## Key results

- `reachable_waking`: what spurious wake-ups keep as well
- `step_assigned`: which calls have a task, and from when on
- `backup_first`: what has been pushed has been backed up
-/

namespace Mylog.AsyncLogger

open ThreadPool (Task)

variable {s s' : State} {min max exitThread : Int}

/-! ## Spurious wake-ups -/

/-- What the start has and every step of the logger keeps holds in every reachable state, if it
    does not depend on which workers sleep. -/
theorem reachable_waking {I : State → Prop} (hstart : I (start min max exitThread))
    (hkeep : ∀ {s s' : State} {a : Action}, I s → step s a = some s' → I s')
    (hwake : ∀ {s : State} (i : Nat), I s → I { s with pool := s.pool.goto i .woken })
    (h : (wakingSystem min max exitThread).Reachable s) : I s := by
  apply h.invariant
  · intro s hs
    rw [show s = start min max exitThread from hs]
    exact hstart
  · intro s a s' hs hstep
    have hstep : wakingStep s a = some s' := hstep
    cases a with
    | logger a => exact hkeep hs hstep
    | wake i =>
      obtain ⟨-, hstep⟩ := Option.ite_none_left_eq_some.mp hstep
      obtain ⟨pool, hpool, rfl⟩ := Option.map_eq_some_iff.mp hstep
      obtain ⟨-, hpool⟩ := Option.ite_none_right_eq_some.mp hpool
      cases hpool
      exact hwake i hs

/-- What is reached without spurious wake-ups is reached on a machine that has them. -/
theorem waking_of_reachable (h : (system min max exitThread).Reachable s) :
    (wakingSystem min max exitThread).Reachable s :=
  reachable_invariant (I := (wakingSystem min max exitThread).Reachable)
    (Transition.Reachable.of_init _ rfl)
    (fun {_ _ a} hs hstep => hs.step (a := .logger a) hstep) h

/-- The pool does what a pool with spurious wake-ups does. -/
theorem waking_pool (h : (wakingSystem min max exitThread).Reachable s) :
    (ThreadPool.wakingSystem min max exitThread).Reachable s.pool := by
  apply h.invariant
    (I := fun s => (ThreadPool.wakingSystem min max exitThread).Reachable s.pool)
  · rintro s rfl
    exact Transition.Reachable.of_init _ rfl
  · intro s a s' hs hstep
    have hstep : wakingStep s a = some s' := hstep
    cases a with
    | logger a =>
      obtain ⟨b, hpool⟩ | hpool := step_pool hstep
      · exact hs.step (a := .pool b) hpool
      · rw [hpool]
        exact hs
    | wake i =>
      obtain ⟨-, hstep⟩ := Option.ite_none_left_eq_some.mp hstep
      obtain ⟨pool, hpool, rfl⟩ := Option.map_eq_some_iff.mp hstep
      exact hs.step (a := .wake i) hpool

theorem waking_consistent (h : (wakingSystem min max exitThread).Reachable s) : Consistent s :=
  reachable_waking (start_consistent min max exitThread) step_consistent
    (fun _ hs => ⟨hs.calls, hs.pushes, hs.pushed, hs.added, hs.nodup, hs.destroyed⟩) h

/-! ## The task of a call -/

/-- The levels whose records are backed up. -/
def Severe (m : LogMessage) : Prop := m.level_ = .ERROR ∨ m.level_ = .FATAL

instance (m : LogMessage) : Decidable (Severe m) := inferInstanceAs (Decidable (_ ∨ _))

/-- A call for a severe record has its task once it is past `addTask`, and no other call has one
    or waits for one. -/
def Call.Assigned (added : List Task) (i : Nat) (call : Call) : Prop :=
  if Severe call.logmessage then call.pc ≠ .addTask → backlogTask i ∈ added
  else backlogTask i ∉ added ∧ (call.pc = .flush ∨ call.pc = .returned)

/-- What holds of the calls in every reachable state. -/
def Assigned (s : State) : Prop :=
  ∀ (i : Nat) call, s.calls[i]? = some call → call.Assigned s.pool.added i

theorem start_assigned (min max exitThread : Int) : Assigned (start min max exitThread) := by
  intro i call hi
  cases hi

/-- Tasks of others change nothing. -/
theorem Call.Assigned.append {added new : List Task} {i : Nat} {call : Call}
    (h : call.Assigned added i) (hnew : backlogTask i ∉ new) : call.Assigned (added ++ new) i := by
  unfold Assigned at h ⊢
  split at h
  · rename_i hsevere
    rw [if_pos hsevere]
    exact fun hpc => List.mem_append_left new (h hpc)
  · rename_i hsevere
    rw [if_neg hsevere]
    refine ⟨fun hmem => ?_, h.2⟩
    obtain hmem | hmem := List.mem_append.mp hmem
    · exact h.1 hmem
    · exact hnew hmem

/-! ## Steps -/

/-- The pool does something that adds no task. -/
theorem Assigned.of_pool {b : ThreadPool.Action} {pool : ThreadPool.State} (h : Assigned s)
    (hstep : ThreadPool.step s.pool b = some pool) (hb : ∀ t, b ≠ .addTask t) :
    Assigned { s with pool := pool } := by
  have hadded := (ThreadPool.step_added hstep).1
  have hsame : pool.added = s.pool.added := by
    cases b with
    | addTask task => exact absurd rfl (hb task)
    | _ => simpa using hadded
  intro i call hi
  show call.Assigned pool.added i
  rw [hsame]
  exact h i call hi

/-- A call that has its task, or needs none, goes on. -/
theorem Assigned.goto (h : Assigned s) {i : Nat} {call : Call} {pc : CallPc}
    (hi : s.calls[i]? = some call) (hpast : call.pc ≠ .addTask)
    (hpc : call.pc = .flush ∨ call.pc = .returned → pc = .flush ∨ pc = .returned) :
    Assigned (s.goto i call pc) := by
  intro j callj hj
  obtain ⟨rfl, rfl⟩ | ⟨-, hj⟩ := List.getElem?_set_cases hj
  · have hcall := h i call hi
    unfold Call.Assigned at hcall ⊢
    split at hcall
    · rename_i hsevere
      rw [if_pos hsevere]
      exact fun _ => hcall hpast
    · rename_i hsevere
      rw [if_neg hsevere]
      exact ⟨hcall.1, hpc hcall.2⟩
  · exact h j callj hj

/-- A call adds its task. -/
theorem Assigned.add (h : Assigned s) {i : Nat} {call : Call} {pool : ThreadPool.State}
    (hi : s.calls[i]? = some call) (hpc : call.pc = .addTask)
    (hstep : ThreadPool.step s.pool (.addTask (backlogTask i)) = some pool) :
    Assigned { s.goto i call .notify with pool := pool } := by
  have hadded : pool.added = s.pool.added ++ [backlogTask i] := (ThreadPool.step_added hstep).1
  intro j callj hj
  show callj.Assigned pool.added j
  rw [hadded]
  obtain ⟨rfl, rfl⟩ | ⟨hne, hj⟩ := List.getElem?_set_cases hj
  · have hcall := h i call hi
    unfold Call.Assigned at hcall ⊢
    split at hcall
    · rename_i hsevere
      rw [if_pos hsevere]
      simp
    · simp [hpc] at hcall
  · refine (h j callj hj).append fun hmem => ?_
    exact hne (congrArg Task.id (List.mem_singleton.mp hmem)).symm

/-- A new call waits for its task, or needs none. -/
theorem Assigned.serialize (h : Assigned s) (hs : Consistent s) (m : LogMessage) :
    Assigned { s with calls := s.calls ++
      [⟨m, if m.level_ = .ERROR ∨ m.level_ = .FATAL then .addTask else .flush⟩] } := by
  have hnew : backlogTask s.calls.length ∉ s.pool.added := by
    intro hmem
    obtain ⟨i, hlt, heq⟩ := hs.added _ hmem
    have hid : s.calls.length = i := congrArg Task.id heq
    omega
  intro i call hi
  by_cases hlt : i < s.calls.length
  · rw [List.getElem?_append_left hlt] at hi
    exact h i call hi
  · have hlen := (List.getElem?_eq_some_iff.mp hi).1
    rw [List.length_append, List.length_singleton] at hlen
    obtain rfl : i = s.calls.length := by omega
    rw [List.getElem?_concat_length] at hi
    cases hi
    by_cases hsevere : Severe m
    · unfold Call.Assigned
      rw [if_pos hsevere]
      intro hpc
      exact absurd (if_pos hsevere) hpc
    · unfold Call.Assigned
      rw [if_neg hsevere]
      exact ⟨hnew, .inl (if_neg hsevere)⟩

/-- A step of a call. -/
theorem callStep_assigned {i sel : Nat} {call : Call} (h : Assigned s)
    (hi : s.calls[i]? = some call) (hstep : callStep s i call sel = some s') : Assigned s' := by
  obtain ⟨pool, hpc, -, hpool, rfl⟩ | ⟨pool, hpc, hpool, rfl⟩ | ⟨hpc, -, rfl⟩ |
    ⟨hpc, -, -, rfl⟩ | ⟨hpc, rfl⟩ := callStep_cases hstep
  · exact h.add hi hpc hpool
  · have hgoto : Assigned (s.goto i call .get) := h.goto hi (by simp [hpc]) (by simp [hpc])
    refine hgoto.of_pool hpool ?_
    intro t ht
    cases ht
  · exact h.goto hi (by simp [hpc]) (by simp [hpc])
  · exact h.goto hi (by simp [hpc]) (by simp [hpc])
  · have hgoto : Assigned (s.goto i call .returned) := h.goto hi (by simp [hpc]) (by simp)
    exact hgoto

theorem step_assigned {a : Action} (hs : Consistent s) (h : Assigned s)
    (hstep : step s a = some s') : Assigned s' := by
  cases a with
  | serialize m =>
    simp only [step] at hstep
    split at hstep
    · cases hstep
    · cases hstep
      exact h.serialize hs m
  | _ =>
    obtain ⟨m, pc, ha, -, -⟩ | ⟨i, sel, call, -, hi, hcall⟩ | ⟨b, pool, hb, hpool, rfl⟩ |
      ⟨-, -, -, rfl⟩ := step_cases hstep
    · cases ha
    · exact callStep_assigned h hi hcall
    · refine h.of_pool hpool ?_
      rintro t rfl
      cases hb
    · exact h

theorem waking_assigned (h : (wakingSystem min max exitThread).Reachable s) : Assigned s := by
  refine (reachable_waking (I := fun s => Consistent s ∧ Assigned s) ?_ ?_ ?_ h).2
  · exact ⟨start_consistent min max exitThread, start_assigned min max exitThread⟩
  · rintro s s' a ⟨hs, h⟩ hstep
    exact ⟨step_consistent hs hstep, step_assigned hs h hstep⟩
  · rintro s i ⟨hs, h⟩
    exact ⟨⟨hs.calls, hs.pushes, hs.pushed, hs.added, hs.nodup, hs.destroyed⟩, h⟩

/-- A severe record that has come to `Push` has been backed up. -/
theorem completed_of_severe (h : (wakingSystem min max exitThread).Reachable s) {i : Nat}
    {call : Call} (hi : s.calls[i]? = some call) (hsevere : Severe call.logmessage)
    (hpc : call.pc = .flush ∨ call.pc = .returned) : backlogTask i ∈ s.pool.completed := by
  have hcall := waking_assigned h i call hi
  have hmatch := (waking_consistent h).calls i call hi
  unfold Call.Assigned at hcall
  rw [if_pos hsevere] at hcall
  have hadded : backlogTask i ∈ s.pool.added := by
    apply hcall
    obtain hpc | hpc := hpc <;> simp [hpc]
  unfold Call.Matches at hmatch
  obtain hpc | hpc := hpc <;> rw [hpc] at hmatch <;> exact hmatch hadded

/-- No task is in two places. -/
theorem placesOf_le_one (h : (wakingSystem min max exitThread).Reachable s) (t : Task) :
    s.pool.placesOf t ≤ 1 := by
  have hle := (ThreadPool.reachable_placesOf t (waking_pool h)).1
  have hone := List.nodup_iff_count.mp (waking_consistent h).nodup t
  omega

/-! ## What is in the local log -/

/-- In every reachable state of the logger and its pool, at any point of a shutdown: `Push` has
    got the formatted record of each call that has returned once and of no other call, the
    backup task of an ERROR or FATAL record that it has got has run exactly once, and the pool
    has never been given a record of a lower level. -/
theorem backup_first (h : (wakingSystem min max exitThread).Reachable s) {i : Nat} {call : Call}
    (hi : s.calls[i]? = some call) :
    (s.pushed.filter (·.1 = i) =
      if call.pc = .returned then [(i, call.logmessage.format)] else []) ∧
    (Severe call.logmessage → call.pc = .flush ∨ call.pc = .returned →
      s.pool.completed.count (backlogTask i) = 1) ∧
    (¬Severe call.logmessage → backlogTask i ∉ s.pool.added) := by
  have hs := waking_consistent h
  have hcall := waking_assigned h i call hi
  refine ⟨hs.pushes i call hi, ?_, ?_⟩
  · intro hsevere hpc
    have hcompleted := completed_of_severe h hi hsevere hpc
    have hle := placesOf_le_one h (backlogTask i)
    unfold ThreadPool.State.placesOf at hle
    have hpos := List.count_pos_iff.mpr hcompleted
    omega
  · intro hlow
    unfold Call.Assigned at hcall
    rw [if_neg hlow] at hcall
    exact hcall.1

/-- An ERROR record and an INFO record, of which the second one is pushed first. The worker that
    backs the first one up has slept and woken up by itself. -/
def twoRecords : List WakingAction :=
  List.replicate 4 (.logger (.worker 0)) ++
    [.logger (.serialize ⟨.ERROR, [], 0, [], [], [], []⟩),
      .logger (.serialize ⟨.INFO, [], 0, [], [], [], []⟩), .logger (.call 0 0), .wake 0,
      .logger (.call 0 0), .logger (.call 1 0)] ++
    List.replicate 7 (.logger (.worker 0)) ++ [.logger (.call 0 0), .logger (.call 0 0)]

set_option maxRecDepth 4000 in
theorem backup_first_small : ∃ s call, (wakingSystem 1 1 0).Reachable s ∧ s.calls[0]? = some call ∧
    s.pushed.map Prod.fst = [1, 0] ∧ s.pool.completed.count (backlogTask 0) = 1 := by
  have hinit : (wakingSystem 1 1 0).init (start 1 1 0) := rfl
  obtain ⟨s, hs, hpushed, hlevels, hpcs⟩ := Transition.exists_reachable_of_run
    (P := fun s => s.pushed.map Prod.fst = [1, 0] ∧
      s.calls.map (fun call => call.logmessage.level_) = [.ERROR, .INFO] ∧
      s.calls.map Call.pc = [.returned, .returned]) hinit
    (show ((wakingSystem 1 1 0).run _ twoRecords).any _ = true by decide +kernel)
  have hlen : 0 < s.calls.length := by
    rw [← List.length_map Call.pc, hpcs]
    decide
  have hlevel : s.calls[0].logmessage.level_ = .ERROR := by
    have hget := congrArg (fun levels => levels[0]?) hlevels
    simpa [hlen] using hget
  have hpc : s.calls[0].pc = .returned := by
    have hget := congrArg (fun pcs => pcs[0]?) hpcs
    simpa [hlen] using hget
  have hi := List.getElem?_eq_getElem hlen
  exact ⟨s, _, hs, hi, hpushed, (backup_first hs hi).2.1 (.inl hlevel) (.inr hpc)⟩

end Mylog.AsyncLogger
