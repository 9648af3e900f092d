import AsyncLogStorage.Native.AsyncLogger
import AsyncLogStorage.Spec.ThreadPoolRest

/-!
# Records at the shutdown of the pool

An ERROR or FATAL record goes to `Push` only when its backup task has run. After the stop
each worker takes one task at most, and what is left in the queue makes `serialize` throw
or wait for ever.

## Key results

- `reachable_pool`: the pool of the logger runs as the pool does
- `reachable_consistent`: what each call has given to the pool and to `Push`
- `exists_run_atRest`: the calls and the threads can run until the pool is at rest
- `survives_iff`: in which runs every record comes through
-/

namespace Mylog.AsyncLogger

open ThreadPool (Task takers AtRest)

/-- No call has thrown, each one that has returned has handed its record to `Push` exactly
    once and no other has, and after the stop every queued task has a worker of its own
    that will look at the queue. -/
structure Survives (s : State) : Prop where
  not_terminated : s.pool.dtor ≠ .terminated
  calls : ∀ (i : Nat) call, s.calls[i]? = some call → call.pc ≠ .threw ∧
    s.pushed.filter (·.1 = i) =
      if call.pc = .returned then [(i, call.logmessage.format)] else []
  takers : s.pool.stop = true → s.pool.tasks.length ≤ takers s.pool

/-- The stop finds no more tasks queued than there are workers that will look at the queue,
    and after it a task is added, or one of these workers takes the exit branch, only if
    there is one worker more. And no joinable thread is left for `m_workers.clear()`. -/
def KeepsTakers (s : State) (a : Action) : Prop :=
  (step s a).isSome →
    match a with
    | .call i _ => s.pool.stop = true → (s.calls[i]?).map Call.pc = some .addTask →
        s.pool.tasks.length < takers s.pool
    | .worker i => s.pool.stop = true → s.pool.workers[i]? = some .checkExit →
        0 < s.pool.exitThread → s.pool.tasks.length < takers s.pool
    | .dtor _ => (s.pool.dtor = .notCalled → s.pool.tasks.length ≤ takers s.pool) ∧
        (s.pool.dtor = .clear → s.pool.threads.any (·.2) = false)
    | _ => True

/-! ## Inversion -/

/-- The step of the pool that an action of its threads is. -/
def Action.pool? : Action → Option ThreadPool.Action
  | .worker tid => some (.worker tid)
  | .manager => some .manager
  | .dtor sel => some (.dtor sel)
  | _ => none

/-- The kinds of steps of the system. -/
theorem step_cases {s s' : State} {a : Action} (h : step s a = some s') :
    (∃ m pc, a = .serialize m ∧ (pc = .addTask ∨ pc = .flush) ∧
      s' = { s with calls := s.calls ++ [⟨m, pc⟩] }) ∨
    (∃ i sel call, a = .call i sel ∧ s.calls[i]? = some call ∧ callStep s i call sel = some s') ∨
    (∃ b pool, a.pool? = some b ∧ ThreadPool.step s.pool b = some pool ∧
      s' = { s with pool := pool }) ∨
    (a = .destroy ∧ s.pool.dtor = .returned ∧ s.pool.pendingNotify = 0 ∧
      s' = { s with destroyed := true }) := by
  simp only [step] at h
  split at h
  · cases h
  · cases a with
    | serialize m =>
      refine .inl ⟨m, _, rfl, ?_, (Option.some.inj h).symm⟩
      split
      · exact .inl rfl
      · exact .inr rfl
    | call i sel =>
      obtain ⟨call, hcall, hs⟩ := Option.bind_eq_some_iff.mp h
      exact .inr (.inl ⟨i, sel, call, rfl, hcall, hs⟩)
    | destroy =>
      obtain ⟨⟨hd, -, hpending⟩, hs⟩ := Option.ite_none_right_eq_some.mp h
      exact .inr (.inr (.inr ⟨rfl, hd, hpending, (Option.some.inj hs).symm⟩))
    | worker tid =>
      obtain ⟨pool, hpool, rfl⟩ := Option.map_eq_some_iff.mp h
      exact .inr (.inr (.inl ⟨_, pool, rfl, hpool, rfl⟩))
    | manager =>
      obtain ⟨pool, hpool, rfl⟩ := Option.map_eq_some_iff.mp h
      exact .inr (.inr (.inl ⟨_, pool, rfl, hpool, rfl⟩))
    | dtor sel =>
      obtain ⟨pool, hpool, rfl⟩ := Option.map_eq_some_iff.mp h
      exact .inr (.inr (.inl ⟨_, pool, rfl, hpool, rfl⟩))

/-- The steps of a call. -/
theorem callStep_cases {s s' : State} {i sel : Nat} {call : Call}
    (h : callStep s i call sel = some s') :
    (∃ pool, call.pc = .addTask ∧ s.destroyed = false ∧
      ThreadPool.step s.pool (.addTask (backlogTask i)) = some pool ∧
      s' = { s.goto i call .notify with pool := pool }) ∨
    (∃ pool, call.pc = .notify ∧ ThreadPool.step s.pool (.notifyOne sel) = some pool ∧
      s' = { s.goto i call .get with pool := pool }) ∨
    (call.pc = .get ∧ backlogTask i ∈ s.pool.completed ∧ s' = s.goto i call .flush) ∨
    (call.pc = .get ∧ s.destroyed = true ∧ backlogTask i ∈ s.pool.tasks ∧
      s' = s.goto i call .threw) ∨
    (call.pc = .flush ∧
      s' = { s.goto i call .returned with
              pushed := s.pushed ++ [(i, call.logmessage.format)] }) := by
  unfold callStep at h
  split at h
  · rename_i hpc
    split at h
    · cases h
    · rename_i halive
      obtain ⟨pool, hpool, rfl⟩ := Option.map_eq_some_iff.mp h
      exact .inl ⟨pool, hpc, Bool.eq_false_iff.mpr halive, hpool, rfl⟩
  · rename_i hpc
    split at h
    · cases h
    · obtain ⟨pool, hpool, rfl⟩ := Option.map_eq_some_iff.mp h
      exact .inr (.inl ⟨pool, hpc, hpool, rfl⟩)
  · rename_i hpc
    split at h
    · rename_i hdone
      exact .inr (.inr (.inl ⟨hpc, hdone, (Option.some.inj h).symm⟩))
    · obtain ⟨⟨hdestroyed, hqueued⟩, hs⟩ := Option.ite_none_right_eq_some.mp h
      exact .inr (.inr (.inr (.inl ⟨hpc, hdestroyed, hqueued, (Option.some.inj hs).symm⟩)))
  · rename_i hpc
    exact .inr (.inr (.inr (.inr ⟨hpc, (Option.some.inj h).symm⟩)))
  · cases h
  · cases h

/-! ## The pool of the logger -/

/-- The pool makes a step of its own, or none. -/
theorem step_pool {s s' : State} {a : Action} (h : step s a = some s') :
    (∃ b, ThreadPool.step s.pool b = some s'.pool) ∨ s'.pool = s.pool := by
  obtain ⟨m, pc, -, -, rfl⟩ | ⟨i, sel, call, -, -, h⟩ | ⟨b, pool, -, hpool, rfl⟩ | ⟨-, -, -, rfl⟩ :=
    step_cases h
  · exact .inr rfl
  · obtain ⟨pool, -, -, hpool, rfl⟩ | ⟨pool, -, hpool, rfl⟩ | ⟨-, -, rfl⟩ | ⟨-, -, -, rfl⟩ |
      ⟨-, rfl⟩ := callStep_cases h
    · exact .inl ⟨_, hpool⟩
    · exact .inl ⟨_, hpool⟩
    · exact .inr rfl
    · exact .inr rfl
    · exact .inr rfl
  · exact .inl ⟨b, hpool⟩
  · exact .inr rfl

/-- What the start has and every step keeps holds in every reachable state. -/
theorem reachable_invariant {I : State → Prop} {min max exitThread : Int}
    (hstart : I (start min max exitThread))
    (hkeep : ∀ {s s' : State} {a : Action}, I s → step s a = some s' → I s') {s : State}
    (h : (system min max exitThread).Reachable s) : I s := by
  apply h.invariant
  · intro s hs
    rw [show s = start min max exitThread from hs]
    exact hstart
  · intro s a s' hs hstep
    have hstep : step s a = some s' := hstep
    exact hkeep hs hstep

/-- Every run of the logger is a run of its pool. -/
theorem reachable_pool {min max exitThread : Int} {s : State}
    (h : (system min max exitThread).Reachable s) :
    (ThreadPool.system min max exitThread).Reachable s.pool := by
  refine reachable_invariant (I := fun s => (ThreadPool.system min max exitThread).Reachable s.pool)
    (Transition.Reachable.of_init _ rfl) ?_ h
  intro s s' a hs hstep
  obtain ⟨b, hpool⟩ | hpool := step_pool hstep
  · exact hs.step hpool
  · rw [hpool]
    exact hs

/-! ## The calls -/

/-- Where a call is says whether its task has been added, and that it has run. -/
def Call.Matches (pool : ThreadPool.State) (i : Nat) (call : Call) : Prop :=
  match call.pc with
  | .addTask => backlogTask i ∉ pool.added
  | .notify | .get | .threw => backlogTask i ∈ pool.added
  | .flush | .returned => backlogTask i ∈ pool.added → backlogTask i ∈ pool.completed

/-- What holds of the calls in every reachable state. -/
structure Consistent (s : State) : Prop where
  calls : ∀ (i : Nat) call, s.calls[i]? = some call → call.Matches s.pool i
  pushes : ∀ (i : Nat) call, s.calls[i]? = some call →
    s.pushed.filter (·.1 = i) = if call.pc = .returned then [(i, call.logmessage.format)] else []
  pushed : ∀ p ∈ s.pushed, p.1 < s.calls.length
  added : ∀ t ∈ s.pool.added, ∃ i < s.calls.length, t = backlogTask i
  nodup : s.pool.added.Nodup
  destroyed : s.destroyed = true → s.pool.dtor = .returned

/-- What the pool does for others leaves a call where it is. -/
theorem Call.Matches.of_pool {pool pool' : ThreadPool.State} {i : Nat} {call : Call}
    {new : List Task} (h : call.Matches pool i) (hadded : pool'.added = pool.added ++ new)
    (hnew : backlogTask i ∉ new) (hcompleted : ∀ t ∈ pool.completed, t ∈ pool'.completed) :
    call.Matches pool' i := by
  have hmem : backlogTask i ∈ pool'.added ↔ backlogTask i ∈ pool.added := by
    rw [hadded, List.mem_append]
    exact or_iff_left hnew
  unfold Matches at h ⊢
  split at h
  · rw [hmem]
    exact h
  · rw [hmem]
    exact h
  · rw [hmem]
    exact h
  · rw [hmem]
    exact h
  · rw [hmem]
    exact fun hin => hcompleted _ (h hin)
  · rw [hmem]
    exact fun hin => hcompleted _ (h hin)

/-- A step of the pool that adds nothing. -/
private theorem Consistent.of_pool {s : State} {b : ThreadPool.Action} {pool : ThreadPool.State}
    (hs : Consistent s) (h : ThreadPool.step s.pool b = some pool) (hb : ∀ t, b ≠ .addTask t) :
    Consistent { s with pool := pool } := by
  obtain ⟨hadded, hcompleted⟩ := ThreadPool.step_added h
  have hnone : pool.added = s.pool.added ++ [] := by
    cases b with
    | addTask task => exact absurd rfl (hb task)
    | _ => exact hadded
  rw [List.append_nil] at hnone
  refine ⟨fun i call hi => ?_, hs.pushes, hs.pushed, ?_, ?_, fun hd => ?_⟩
  · exact (hs.calls i call hi).of_pool (by rw [hnone, List.append_nil]) List.not_mem_nil hcompleted
  · show ∀ t ∈ pool.added, _
    rw [hnone]
    exact hs.added
  · show pool.added.Nodup
    rw [hnone]
    exact hs.nodup
  · exact ThreadPool.step_returned h (hs.destroyed hd)

/-- A call goes on and pushes nothing. -/
private theorem Consistent.goto {s : State} {i : Nat} {call : Call} {pc : CallPc}
    (hs : Consistent s) (hi : s.calls[i]? = some call) (hold : call.pc ≠ .returned)
    (hpc : pc ≠ .returned) (hmatch : ({ call with pc := pc } : Call).Matches s.pool i) :
    Consistent (s.goto i call pc) := by
  have hlen : (s.goto i call pc).calls.length = s.calls.length := List.length_set
  refine ⟨fun j callj hj => ?_, fun j callj hj => ?_, ?_, ?_, hs.nodup, hs.destroyed⟩
  · obtain ⟨rfl, rfl⟩ | ⟨-, hj⟩ := List.getElem?_set_cases hj
    · exact hmatch
    · exact hs.calls j callj hj
  · obtain ⟨rfl, rfl⟩ | ⟨-, hj⟩ := List.getElem?_set_cases hj
    · have hnone := hs.pushes i call hi
      rw [if_neg hold] at hnone
      rw [if_neg hpc]
      exact hnone
    · exact hs.pushes j callj hj
  · rw [hlen]
    exact hs.pushed
  · rw [hlen]
    exact hs.added

theorem start_consistent (min max exitThread : Int) : Consistent (start min max exitThread) :=
  ⟨nofun, nofun, nofun, nofun, List.nodup_nil, nofun⟩

/-- A call adds its task, which is new to the pool. -/
private theorem Consistent.add {s : State} {i : Nat} {call : Call} {pool : ThreadPool.State}
    (hs : Consistent s) (hi : s.calls[i]? = some call) (hpc : call.pc = .addTask)
    (h : ThreadPool.step s.pool (.addTask (backlogTask i)) = some pool) :
    Consistent { s.goto i call .notify with pool := pool } := by
  have hlt : i < s.calls.length := (List.getElem?_eq_some_iff.mp hi).1
  have hlen : (s.calls.set i { call with pc := .notify }).length = s.calls.length :=
    List.length_set
  have hfresh : backlogTask i ∉ s.pool.added := by
    have hmatch := hs.calls i call hi
    unfold Call.Matches at hmatch
    rw [hpc] at hmatch
    exact hmatch
  obtain ⟨hadded, hcompleted⟩ := ThreadPool.step_added h
  refine ⟨fun j callj hj => ?_, fun j callj hj => ?_, ?_, fun t ht => ?_, ?_, fun hd => ?_⟩
  · obtain ⟨rfl, rfl⟩ | ⟨hij, hj⟩ := List.getElem?_set_cases hj
    · show backlogTask i ∈ pool.added
      rw [hadded]
      exact List.mem_append_right _ (List.mem_singleton.mpr rfl)
    · refine (hs.calls j callj hj).of_pool hadded (fun hmem => ?_) hcompleted
      exact hij (congrArg Task.id (List.mem_singleton.mp hmem)).symm
  · obtain ⟨rfl, rfl⟩ | ⟨-, hj⟩ := List.getElem?_set_cases hj
    · have hnone := hs.pushes i call hi
      rw [if_neg (by rw [hpc]; exact nofun)] at hnone
      exact hnone
    · exact hs.pushes j callj hj
  · show ∀ p ∈ s.pushed, p.1 < (s.calls.set i _).length
    rw [hlen]
    exact hs.pushed
  · show ∃ j < (s.calls.set i _).length, _
    rw [hlen]
    have ht : t ∈ pool.added := ht
    rw [hadded, List.mem_append, List.mem_singleton] at ht
    obtain ht | rfl := ht
    · exact hs.added t ht
    · exact ⟨i, hlt, rfl⟩
  · show pool.added.Nodup
    rw [hadded]
    refine List.nodup_append.mpr ⟨hs.nodup, List.pairwise_singleton _ _, fun t ht u hu heq => ?_⟩
    rw [heq, List.mem_singleton.mp hu] at ht
    exact hfresh ht
  · exact ThreadPool.step_returned h (hs.destroyed hd)

/-- A call pushes its record and returns. -/
private theorem Consistent.push {s : State} {i : Nat} {call : Call} (hs : Consistent s)
    (hi : s.calls[i]? = some call) (hpc : call.pc = .flush) :
    Consistent { s.goto i call .returned with
      pushed := s.pushed ++ [(i, call.logmessage.format)] } := by
  have hlt : i < s.calls.length := (List.getElem?_eq_some_iff.mp hi).1
  have hlen : (s.calls.set i { call with pc := .returned }).length = s.calls.length :=
    List.length_set
  have hmatch := hs.calls i call hi
  unfold Call.Matches at hmatch
  rw [hpc] at hmatch
  refine ⟨fun j callj hj => ?_, fun j callj hj => ?_, fun p hp => ?_, ?_, hs.nodup, hs.destroyed⟩
  · obtain ⟨rfl, rfl⟩ | ⟨-, hj⟩ := List.getElem?_set_cases hj
    · exact hmatch
    · exact hs.calls j callj hj
  · rw [List.filter_append]
    obtain ⟨rfl, rfl⟩ | ⟨hij, hj⟩ := List.getElem?_set_cases hj
    · rw [hs.pushes i call hi, if_neg (by rw [hpc]; exact nofun)]
      simp
    · rw [hs.pushes j callj hj]
      simp [hij]
  · show p.1 < (s.calls.set i _).length
    rw [hlen]
    obtain hp | hp := List.mem_append.mp hp
    · exact hs.pushed p hp
    · rw [List.mem_singleton.mp hp]
      exact hlt
  · show ∀ t ∈ s.pool.added, ∃ j < (s.calls.set i _).length, _
    rw [hlen]
    exact hs.added

private theorem callStep_consistent {s s' : State} {i sel : Nat} {call : Call} (hs : Consistent s)
    (hi : s.calls[i]? = some call) (h : callStep s i call sel = some s') : Consistent s' := by
  obtain ⟨pool, hpc, -, hpool, rfl⟩ | ⟨pool, hpc, hpool, rfl⟩ | ⟨hpc, hdone, rfl⟩ |
    ⟨hpc, -, -, rfl⟩ | ⟨hpc, rfl⟩ := callStep_cases h
  · exact hs.add hi hpc hpool
  · have hpool' := hs.of_pool hpool nofun
    refine Consistent.goto (s := { s with pool := pool }) hpool' hi (by rw [hpc]; exact nofun)
      nofun ?_
    have hmatch := hpool'.calls i call hi
    unfold Call.Matches at hmatch
    rw [hpc] at hmatch
    exact hmatch
  · exact hs.goto hi (by rw [hpc]; exact nofun) nofun fun _ => hdone
  · have hmatch := hs.calls i call hi
    unfold Call.Matches at hmatch
    rw [hpc] at hmatch
    exact hs.goto hi (by rw [hpc]; exact nofun) nofun hmatch
  · exact hs.push hi hpc

/-- A new call, which nobody knows yet. -/
private theorem Consistent.call {s : State} {m : LogMessage} {pc : CallPc} (hs : Consistent s)
    (hpc : pc = .addTask ∨ pc = .flush) :
    Consistent { s with calls := s.calls ++ [⟨m, pc⟩] } := by
  have hnew : backlogTask s.calls.length ∉ s.pool.added := by
    intro hmem
    obtain ⟨i, hlt, heq⟩ := hs.added _ hmem
    have hid : s.calls.length = i := congrArg Task.id heq
    omega
  have hsplit : ∀ (i : Nat) call, (s.calls ++ [⟨m, pc⟩])[i]? = some call →
      s.calls[i]? = some call ∨ (i = s.calls.length ∧ call = ⟨m, pc⟩) := by
    intro i call hi
    rw [List.getElem?_append] at hi
    split at hi
    · exact .inl hi
    · obtain ⟨hlt, heq⟩ := List.getElem?_eq_some_iff.mp hi
      rw [List.length_singleton] at hlt
      rw [List.getElem_singleton] at heq
      exact .inr ⟨by omega, heq.symm⟩
  refine ⟨fun i call hi => ?_, fun i call hi => ?_, fun p hp => ?_, fun t ht => ?_, hs.nodup,
    hs.destroyed⟩
  · obtain hi | ⟨rfl, rfl⟩ := hsplit i call hi
    · exact hs.calls i call hi
    · obtain rfl | rfl := hpc
      · exact hnew
      · exact fun hmem => absurd hmem hnew
  · obtain hi | ⟨rfl, rfl⟩ := hsplit i call hi
    · exact hs.pushes i call hi
    · have hnone : s.pushed.filter (·.1 = s.calls.length) = [] := by
        rw [List.filter_eq_nil_iff]
        intro p hp heq
        have hlt := hs.pushed p hp
        rw [of_decide_eq_true heq] at hlt
        omega
      rw [hnone]
      obtain rfl | rfl := hpc <;> rfl
  · have hlt := hs.pushed p hp
    show p.1 < (s.calls ++ [_]).length
    rw [List.length_append]
    omega
  · obtain ⟨i, hlt, rfl⟩ := hs.added t ht
    refine ⟨i, ?_, rfl⟩
    show i < (s.calls ++ [_]).length
    rw [List.length_append]
    omega

theorem step_consistent {s s' : State} {a : Action} (hs : Consistent s)
    (h : step s a = some s') : Consistent s' := by
  obtain ⟨m, pc, -, hpc, rfl⟩ | ⟨i, sel, call, -, hi, h⟩ | ⟨b, pool, hb, hpool, rfl⟩ |
    ⟨-, hd, -, rfl⟩ := step_cases h
  · exact hs.call hpc
  · exact callStep_consistent hs hi h
  · refine hs.of_pool hpool ?_
    rintro t rfl
    cases a <;> cases hb
  · exact ⟨hs.calls, hs.pushes, hs.pushed, hs.added, hs.nodup, fun _ => hd⟩

theorem reachable_consistent {min max exitThread : Int} {s : State}
    (h : (system min max exitThread).Reachable s) : Consistent s :=
  reachable_invariant (start_consistent min max exitThread) step_consistent h

/-! ## Callers inside `addTask` -/

/-- What holds of the callers that have added a task and not notified yet. -/
structure Notifying (s : State) : Prop where
  count : s.pool.pendingNotify = s.calls.countP fun call => call.pc = .notify
  /-- The pool outlives them. -/
  destroyed : s.destroyed = true → s.pool.pendingNotify = 0

theorem countP_set_pc {calls : List Call} {i : Nat} {call : Call} (pc : CallPc)
    (hi : calls[i]? = some call) :
    ((calls.set i { call with pc := pc }).countP fun call => call.pc = .notify) +
        (if call.pc = .notify then 1 else 0) =
      (calls.countP fun call => call.pc = .notify) + (if pc = .notify then 1 else 0) := by
  obtain ⟨hlt, hget⟩ := List.getElem?_eq_some_iff.mp hi
  have hpos : call.pc = .notify → 0 < calls.countP fun call => call.pc = .notify := fun h =>
    List.countP_pos_iff.mpr ⟨call, List.mem_of_getElem? hi, decide_eq_true h⟩
  rw [List.countP_set hlt, hget]
  by_cases hpc : call.pc = .notify
  · have := hpos hpc
    simp only [hpc, decide_true, ↓reduceIte, decide_eq_true_eq]
    omega
  · simp only [hpc, decide_false, Bool.false_eq_true, ↓reduceIte, decide_eq_true_eq, Nat.sub_zero,
      Nat.add_zero]

theorem step_notifying {s s' : State} {a : Action} (hs : Notifying s) (h : step s a = some s') :
    Notifying s' := by
  obtain ⟨m, pc, -, hpc, rfl⟩ | ⟨i, sel, call, -, hi, h⟩ | ⟨b, pool, hb, hpool, rfl⟩ |
    ⟨-, -, hpending, rfl⟩ := step_cases h
  · refine ⟨?_, hs.destroyed⟩
    show s.pool.pendingNotify = (s.calls ++ [Call.mk m pc]).countP _
    rw [List.countP_append, hs.count]
    obtain rfl | rfl := hpc <;> rfl
  · have hcount := hs.count
    obtain ⟨pool, hpc, halive, hpool, rfl⟩ | ⟨pool, hpc, hpool, rfl⟩ | ⟨hpc, -, rfl⟩ |
      ⟨hpc, -, -, rfl⟩ | ⟨hpc, rfl⟩ := callStep_cases h
    · obtain ⟨-, hs'⟩ := Option.ite_none_right_eq_some.mp hpool
      cases hs'
      have hset := countP_set_pc .notify hi
      rw [hpc] at hset
      refine ⟨?_, fun hd => ?_⟩
      · show s.pool.pendingNotify + 1 = (s.calls.set i _).countP _
        simp only [reduceCtorEq, ↓reduceIte] at hset
        omega
      · rw [show s.destroyed = true from hd] at halive
        cases halive
    · obtain ⟨hpos, hs'⟩ := Option.ite_none_right_eq_some.mp hpool
      obtain ⟨ws, -, rfl⟩ := Option.map_eq_some_iff.mp hs'
      have hset := countP_set_pc .get hi
      rw [hpc] at hset
      refine ⟨?_, fun hd => ?_⟩
      · show s.pool.pendingNotify - 1 = (s.calls.set i _).countP _
        simp only [reduceCtorEq, ↓reduceIte] at hset
        omega
      · show s.pool.pendingNotify - 1 = 0
        rw [hs.destroyed hd]
    · have hset := countP_set_pc .flush hi
      rw [hpc] at hset
      exact ⟨hcount.trans hset.symm, hs.destroyed⟩
    · have hset := countP_set_pc .threw hi
      rw [hpc] at hset
      exact ⟨hcount.trans hset.symm, hs.destroyed⟩
    · have hset := countP_set_pc .returned hi
      rw [hpc] at hset
      exact ⟨hcount.trans hset.symm, hs.destroyed⟩
  · have hsame : pool.pendingNotify = s.pool.pendingNotify := by
      obtain ⟨task, rfl, -, -⟩ | ⟨sel, ws, rfl, -, -, -⟩ | ⟨i, -, h⟩ | ⟨-, h⟩ | ⟨sel, -, h⟩ :=
        ThreadPool.step_cases hpool
      · cases a <;> cases hb
      · cases a <;> cases hb
      · obtain ⟨pc, -, -, hframe⟩ := ThreadPool.workerStep_frame h
        exact hframe.pendingNotify
      · exact (ThreadPool.managerStep_frame h).2.2.2.1
      · exact (ThreadPool.dtorStep_tasks h).2.2.2
    exact ⟨hsame.trans hs.count, fun hd => hsame.trans (hs.destroyed hd)⟩
  · exact ⟨hs.count, fun _ => hpending⟩

theorem reachable_notifying {min max exitThread : Int} {s : State}
    (h : (system min max exitThread).Reachable s) : Notifying s :=
  reachable_invariant ⟨rfl, nofun⟩ step_notifying h

/-- What the threads of the pool do to wind down is a step of the logger. -/
theorem exists_step_of_windsDown {s : State} {b : ThreadPool.Action} {pool : ThreadPool.State}
    (hs : Notifying s) (hterm : s.pool.dtor ≠ .terminated) (hb : b.windsDown = true)
    (h : ThreadPool.step s.pool b = some pool) : ∃ a s', step s a = some s' ∧ s'.pool = pool := by
  cases b with
  | addTask task => cases hb
  | dtor sel => cases hb
  | worker i =>
    refine ⟨.worker i, { s with pool := pool }, ?_, rfl⟩
    simp only [step, hterm, ↓reduceIte, State.poolStep, h, Option.map_some]
  | manager =>
    refine ⟨.manager, { s with pool := pool }, ?_, rfl⟩
    simp only [step, hterm, ↓reduceIte, State.poolStep, h, Option.map_some]
  | notifyOne sel =>
    -- some caller has still to notify
    obtain ⟨hpos, -⟩ := Option.ite_none_right_eq_some.mp h
    have halive : ¬s.destroyed = true := fun hd => by
      rw [hs.destroyed hd] at hpos
      omega
    rw [hs.count] at hpos
    obtain ⟨call, hmem, hpc⟩ := List.countP_pos_iff.mp hpos
    obtain ⟨i, hi⟩ := List.getElem?_of_mem hmem
    refine ⟨.call i sel, { s.goto i call .get with pool := pool }, ?_, rfl⟩
    have hpool : ThreadPool.step (s.goto i call .get).pool (.notifyOne sel) = some pool := h
    simp only [step, hterm, ↓reduceIte, hi, Option.bind_some, callStep, of_decide_eq_true hpc,
      halive, Bool.false_eq_true, State.poolStep, hpool, Option.map_some]

/-- After the stop the calls and the threads that are there can run until the pool is at rest. -/
theorem exists_run_atRest {min max exitThread : Int} {s : State}
    (hreach : (system min max exitThread).Reachable s) (hstop : s.pool.stop = true)
    (hd : s.pool.dtor.notified = true) (hterm : s.pool.dtor ≠ .terminated) :
    ∃ as s', (system min max exitThread).run s as = some s' ∧ AtRest s'.pool := by
  obtain ⟨bs, pool, hwinds, hrun, hrest⟩ :=
    ThreadPool.exists_run_atRest (reachable_pool hreach) hstop hd
  clear hstop hd
  induction bs generalizing s with
  | nil =>
    cases hrun
    exact ⟨[], s, rfl, hrest⟩
  | cons b bs ih =>
    obtain ⟨pool₁, hpool₁, hrun⟩ := (Transition.run_cons_eq_some _).mp hrun
    have hpool₁ : ThreadPool.step s.pool b = some pool₁ := hpool₁
    obtain ⟨hb, hwinds⟩ := List.forall_mem_cons.mp hwinds
    obtain ⟨a, s₁, hs₁, rfl⟩ :=
      exists_step_of_windsDown (reachable_notifying hreach) hterm hb hpool₁
    have hreach₁ : (system min max exitThread).Reachable s₁ := hreach.step hs₁
    obtain ⟨as, s', hrun', hrest'⟩ := ih hreach₁
      (by rw [ThreadPool.dtor_of_windsDown hb hpool₁]; exact hterm) hwinds hrun
    exact ⟨a :: as, s', (Transition.run_cons_eq_some _).mpr ⟨s₁, hs₁, hrun'⟩, hrest'⟩

/-! ## One step -/

theorem survives_iff_of_consistent {s : State} (hs : Consistent s) :
    Survives s ↔ s.pool.dtor ≠ .terminated ∧
      (∀ (i : Nat) call, s.calls[i]? = some call → call.pc ≠ .threw) ∧
      (s.pool.stop = true → s.pool.tasks.length ≤ takers s.pool) := by
  constructor
  · intro h
    exact ⟨h.not_terminated, fun i call hi => (h.calls i call hi).1, h.takers⟩
  · rintro ⟨hterm, hthrew, htakers⟩
    exact ⟨hterm, fun i call hi => ⟨hthrew i call hi, hs.pushes i call hi⟩, htakers⟩

/-- No task is left when the pool goes, as long as every queued task has its worker. -/
theorem tasks_of_destroyed {min max exitThread : Int} {s : State}
    (hreach : (ThreadPool.system min max exitThread).Reachable s.pool) (hs : Consistent s)
    (hsurvives : Survives s) (hd : s.destroyed = true) : s.pool.tasks = [] := by
  have hreturned := hs.destroyed hd
  have hstop : s.pool.stop = true := by
    cases hstop : s.pool.stop with
    | true => rfl
    | false =>
      have hcalled := (ThreadPool.reachable_locked hreach).dtor_called hstop
      rw [hreturned] at hcalled
      cases hcalled
  have hnone : takers s.pool = 0 := by
    refine List.countP_eq_zero.mpr fun pc hmem => ?_
    rw [ThreadPool.reachable_joined hreach hreturned pc hmem]
    exact nofun
  have hle := hsurvives.takers hstop
  rw [hnone] at hle
  exact List.length_eq_zero_iff.mp (by omega)

/-- A step of the pool keeps the promise of the queue, or is one that breaks it. -/
private theorem pool_survives_iff {s s' : State} {a : Action} {b : ThreadPool.Action}
    {pool : ThreadPool.State} (hb : a.pool? = some b) (h : ThreadPool.step s.pool b = some pool)
    (hs : Survives s) (hstep : step s a = some s') :
    (pool.dtor ≠ .terminated ∧ (pool.stop = true → pool.tasks.length ≤ takers pool)) ↔
      KeepsTakers s a := by
  have hdone : (step s a).isSome = true := by
    rw [hstep]
    rfl
  have hterm := hs.not_terminated
  cases a with
  | serialize m => cases hb
  | call i sel => cases hb
  | destroy => cases hb
  | worker i =>
    cases hb
    have hworker : ThreadPool.workerStep s.pool i = some pool := h
    obtain ⟨pc, -, -, hframe⟩ := ThreadPool.workerStep_frame hworker
    simp only [KeepsTakers, hdone, true_implies, hframe.dtor, hframe.stop, ne_eq, hterm,
      not_false_eq_true, true_and]
    cases hstop : s.pool.stop with
    | false => exact iff_of_true nofun nofun
    | true =>
      have hle := hs.takers hstop
      simp only [true_implies]
      obtain ⟨htake, htail, hcount⟩ | ⟨hexit, htok, hsame, hcount⟩ | ⟨hother, hsame, hcount⟩ :=
        ThreadPool.workerStep_takers hworker hstop
      · -- the worker takes its task
        rw [htail, List.length_tail, htake]
        exact iff_of_true (by omega) nofun
      · simp only [hexit, htok, hsame, true_implies]
        omega
      · rw [hsame, hcount]
        exact iff_of_true hle fun hexit htok => absurd ⟨hexit, htok⟩ hother
  | manager =>
    cases hb
    have hmanager : ThreadPool.managerStep s.pool = some pool := h
    obtain ⟨hstop, htasks, -, -, hdtor, -⟩ := ThreadPool.managerStep_frame hmanager
    rw [hdtor, hstop, htasks, ThreadPool.managerStep_takers hmanager]
    exact iff_of_true ⟨hterm, hs.takers⟩ fun _ => trivial
  | dtor sel =>
    cases hb
    have hdtor : ThreadPool.dtorStep s.pool sel = some pool := h
    obtain ⟨htasks, -, -, hstop⟩ := ThreadPool.dtorStep_frame hdtor
    simp only [KeepsTakers, hdone, true_implies, ne_eq, ThreadPool.dtorStep_terminated hdtor,
      htasks, ThreadPool.dtorStep_takers hdtor, not_and, Bool.not_eq_true]
    rw [and_comm]
    refine and_congr_left fun _ => ?_
    obtain ⟨hcall, hset, -⟩ | ⟨hcalled, hkeep, -⟩ := hstop
    · -- the stop
      simp only [hset, hcall, true_implies]
    · rw [hkeep]
      exact iff_of_true hs.takers fun hcall => absurd hcall hcalled

/-- A step of a call breaks the promise if its task is one too many. -/
private theorem callStep_survives_iff {min max exitThread : Int} {s s' : State} {i sel : Nat}
    {call : Call} (hreach : (ThreadPool.system min max exitThread).Reachable s.pool)
    (hs : Consistent s) (hsurvives : Survives s) (hi : s.calls[i]? = some call)
    (h : callStep s i call sel = some s') (hstep : step s (.call i sel) = some s') :
    (s'.pool.dtor ≠ .terminated ∧
      (∀ (j : Nat) callj, s'.calls[j]? = some callj → callj.pc ≠ .threw) ∧
      (s'.pool.stop = true → s'.pool.tasks.length ≤ takers s'.pool)) ↔
      KeepsTakers s (.call i sel) := by
  have hset : ∀ {pc : CallPc}, pc ≠ .threw →
      ∀ (j : Nat) callj, (s.calls.set i { call with pc := pc })[j]? = some callj →
        callj.pc ≠ .threw := by
    intro pc hpc j callj hj
    obtain ⟨-, rfl⟩ | ⟨-, hj⟩ := List.getElem?_set_cases hj
    · exact hpc
    · exact (hsurvives.calls j callj hj).1
  have hkeeps : call.pc ≠ .addTask → KeepsTakers s (.call i sel) := by
    intro hpc _ _ hadd
    rw [hi] at hadd
    exact absurd (Option.some.inj hadd) hpc
  obtain ⟨pool, hpc, -, hpool, rfl⟩ | ⟨pool, hpc, hpool, rfl⟩ | ⟨hpc, -, rfl⟩ |
    ⟨-, hdestroyed, hqueued, -⟩ | ⟨hpc, rfl⟩ := callStep_cases h
  · -- one more task, and no more takers
    obtain ⟨-, hs'⟩ := Option.ite_none_right_eq_some.mp hpool
    cases hs'
    have hdone : (step s (.call i sel)).isSome = true := by
      rw [hstep]
      rfl
    simp only [KeepsTakers, hdone, hi, Option.map_some, hpc, true_implies]
    constructor
    · rintro ⟨-, -, hle⟩ hstop
      have hle : (s.pool.tasks ++ [backlogTask i]).length ≤ takers s.pool := hle hstop
      rw [List.length_append, List.length_singleton] at hle
      omega
    · intro hlt
      refine ⟨hsurvives.not_terminated, hset nofun, fun hstop => ?_⟩
      show (s.pool.tasks ++ [backlogTask i]).length ≤ takers s.pool
      have := hlt hstop
      rw [List.length_append, List.length_singleton]
      omega
  · obtain ⟨-, hs'⟩ := Option.ite_none_right_eq_some.mp hpool
    obtain ⟨ws, hws, rfl⟩ := Option.map_eq_some_iff.mp hs'
    have hcount : ws.countP ThreadPool.WorkerPc.mayTake = takers s.pool :=
      ThreadPool.countP_notifyOne ThreadPool.WorkerPc.mayTake_notified hws
    refine iff_of_true ⟨hsurvives.not_terminated, hset nofun, fun hstop => ?_⟩
      (hkeeps (by rw [hpc]; exact nofun))
    show s.pool.tasks.length ≤ ws.countP ThreadPool.WorkerPc.mayTake
    rw [hcount]
    exact hsurvives.takers hstop
  · exact iff_of_true ⟨hsurvives.not_terminated, hset nofun, hsurvives.takers⟩
      (hkeeps (by rw [hpc]; exact nofun))
  · -- the queue would have been empty
    rw [tasks_of_destroyed hreach hs hsurvives hdestroyed] at hqueued
    cases hqueued
  · exact iff_of_true ⟨hsurvives.not_terminated, hset nofun, hsurvives.takers⟩
      (hkeeps (by rw [hpc]; exact nofun))

/-- A step keeps the promise exactly if it leaves enough takers. -/
theorem step_survives_iff {min max exitThread : Int} {s s' : State} {a : Action}
    (hreach : (ThreadPool.system min max exitThread).Reachable s.pool) (hs : Consistent s)
    (hsurvives : Survives s) (h : step s a = some s') : Survives s' ↔ KeepsTakers s a := by
  rw [survives_iff_of_consistent (step_consistent hs h)]
  have hthrew : ∀ (i : Nat) call, s.calls[i]? = some call → call.pc ≠ .threw := fun i call hi =>
    (hsurvives.calls i call hi).1
  obtain ⟨m, pc, rfl, hpc, rfl⟩ | ⟨i, sel, call, rfl, hi, hcall⟩ | ⟨b, pool, hb, hpool, rfl⟩ |
    ⟨rfl, -, -, rfl⟩ := step_cases h
  · refine iff_of_true ⟨hsurvives.not_terminated, fun i call hi => ?_, hsurvives.takers⟩
      fun _ => trivial
    obtain hmem | hmem := List.mem_append.mp (List.mem_of_getElem? hi)
    · obtain ⟨j, hj⟩ := List.getElem?_of_mem hmem
      exact hthrew j call hj
    · rw [List.mem_singleton.mp hmem]
      obtain rfl | rfl := hpc <;> exact nofun
  · exact callStep_survives_iff hreach hs hsurvives hi hcall h
  · rw [← pool_survives_iff hb hpool hsurvives h]
    exact ⟨fun h => ⟨h.1, h.2.2⟩, fun h => ⟨h.1, hthrew, h.2⟩⟩
  · exact iff_of_true ⟨hsurvives.not_terminated, hthrew, hsurvives.takers⟩ fun _ => trivial

/-! ## The end of the workers -/

/-- A pool that came to rest with enough takers has run every task. -/
theorem completed_of_atRest {min max exitThread : Int} {pool : ThreadPool.State}
    (hreach : (ThreadPool.system min max exitThread).Reachable pool)
    (htakers : pool.tasks.length ≤ takers pool) (hrest : AtRest pool) {t : Task}
    (ht : t ∈ pool.added) (hcallable : t.callable = true) : t ∈ pool.completed := by
  have haccount := ThreadPool.reachable_accounted hreach
  have hnil : pool.tasks = [] := by
    apply Classical.byContradiction
    intro hne
    have hlen := List.length_pos_iff.mpr hne
    -- a taker that is left sleeps, and would still be notified
    obtain ⟨pc, hmem, hmay⟩ := List.countP_pos_iff.mp (Nat.lt_of_lt_of_le hlen htakers)
    obtain rfl | rfl := hrest.workers pc hmem
    · have hpending := (ThreadPool.reachable_woken hreach hrest.notified).pending hmem hne
      rw [hrest.pendingNotify] at hpending
      omega
    · cases hmay
  rw [haccount.added, hnil, List.append_nil] at ht
  obtain hdone | ⟨pc, hmem, hheld⟩ := haccount.taken t ht hcallable
  · exact hdone
  · obtain rfl | rfl := hrest.workers pc hmem <;> cases hheld

/-- A call whose task has run comes back with its record pushed. -/
theorem run_call {min max exitThread : Int} {s : State} {i : Nat} {call : Call}
    (hi : s.calls[i]? = some call) (hpc : call.pc = .get) (hterm : s.pool.dtor ≠ .terminated)
    (hdone : backlogTask i ∈ s.pool.completed) :
    ∃ s', (system min max exitThread).run s [.call i 0, .call i 0] = some s' ∧
      s'.calls[i]? = some { call with pc := .returned } ∧
      s'.pushed = s.pushed ++ [(i, call.logmessage.format)] := by
  have hlt : i < s.calls.length := (List.getElem?_eq_some_iff.mp hi).1
  have hget : step s (.call i 0) = some (s.goto i call .flush) := by
    simp only [step, hterm, ↓reduceIte, hi, Option.bind_some, callStep, hpc, hdone]
  have hi' : (s.goto i call .flush).calls[i]? = some { call with pc := .flush } :=
    List.getElem?_set_self hlt
  have hterm' : (s.goto i call .flush).pool.dtor ≠ .terminated := hterm
  have hflush : step (s.goto i call .flush) (.call i 0) =
      some { (s.goto i call .flush).goto i { call with pc := .flush } .returned with
        pushed := s.pushed ++ [(i, call.logmessage.format)] } := by
    simp only [step, hterm', ↓reduceIte, hi', Option.bind_some, callStep]
    rfl
  refine ⟨{ s with
    calls := s.calls.set i { call with pc := .returned }
    pushed := s.pushed ++ [(i, call.logmessage.format)] }, ?_, List.getElem?_set_self hlt, rfl⟩
  rw [Transition.run_cons, show (system min max exitThread).step = step from rfl, hget,
    Option.bind_some, Transition.run_cons, show (system min max exitThread).step = step from rfl,
    hflush]
  simp only [State.goto, List.set_set, Option.bind_some, Transition.run_nil]

/-- A call whose task is queued has not come back. -/
theorem not_returned_of_queued {min max exitThread : Int} {s : State} {i : Nat}
    (hreach : (system min max exitThread).Reachable s) (hqueued : backlogTask i ∈ s.pool.tasks) :
    ∃ call, s.calls[i]? = some call ∧ call.pc ≠ .returned := by
  have hs := reachable_consistent hreach
  have haccount := ThreadPool.reachable_accounted (reachable_pool hreach)
  have hadded : backlogTask i ∈ s.pool.added := by
    rw [haccount.added]
    exact List.mem_append_right _ hqueued
  obtain ⟨j, hlt, heq⟩ := hs.added _ hadded
  have hij : i = j := congrArg Task.id heq
  refine ⟨s.calls[i], List.getElem?_eq_getElem (by omega), fun hpc => ?_⟩
  -- a task that was taken is not in the queue any more
  have hmatch := hs.calls i s.calls[i] (List.getElem?_eq_getElem (by omega))
  unfold Call.Matches at hmatch
  rw [hpc] at hmatch
  have htaken := haccount.completed _ (hmatch hadded)
  have hnodup := hs.nodup
  rw [haccount.added] at hnodup
  exact (List.nodup_append.mp hnodup).2.2 _ htaken _ hqueued rfl

/-- With too few takers some call never comes back. -/
theorem exists_never_returns {min max exitThread : Int} {s : State}
    (hreach : (system min max exitThread).Reachable s) (hstop : s.pool.stop = true)
    (hfew : takers s.pool < s.pool.tasks.length) :
    ∃ i : Nat, ∀ as s', (system min max exitThread).run s as = some s' →
      ∃ call : Call, s'.calls[i]? = some call ∧ call.pc ≠ .returned := by
  obtain ⟨t, hmem, hout⟩ := ThreadPool.exists_outOfReach hstop hfew
  have hadded : t ∈ s.pool.added := by
    rw [(ThreadPool.reachable_accounted (reachable_pool hreach)).added]
    exact List.mem_append_right _ hmem
  obtain ⟨i, -, rfl⟩ := (reachable_consistent hreach).added t hadded
  refine ⟨i, fun as s' hrun => ?_⟩
  have hout' : ThreadPool.OutOfReach (backlogTask i) s'.pool := by
    refine Transition.run_invariant (C := fun _ _ => True)
      (I := fun s => ThreadPool.OutOfReach (backlogTask i) s.pool) ?_ hout
      (Transition.allSteps_of_forall (D := fun _ => True) (fun _ _ => trivial) s) hrun
    intro s a s' hs _ hstep
    obtain ⟨b, hpool⟩ | hpool := step_pool hstep
    · exact ThreadPool.step_outOfReach hs hpool
    · rw [hpool]
      exact hs
  obtain ⟨-, pre, post, htasks, -⟩ := hout'
  refine not_returned_of_queued (hreach.run hrun) ?_
  rw [htasks]
  exact List.mem_append_right _ List.mem_cons_self

/-- An ERROR record whose task is queued when the only worker sees the stop: the queue goes with
    the pool, and `serialize` throws. -/
def lostRecordSchedule : List Action :=
  [Action.serialize ⟨.ERROR, [], 0, [], [], [], []⟩, Action.call 0 0, Action.dtor 0,
    Action.worker 0, Action.call 0 0] ++ List.replicate 4 (Action.dtor 0) ++
  [Action.manager, Action.dtor 0, Action.dtor 0, Action.destroy, Action.call 0 0]

end Mylog.AsyncLogger
