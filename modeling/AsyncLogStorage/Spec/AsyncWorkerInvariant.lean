import AsyncLogStorage.Native.AsyncWorker

/-!
# What a step of the log worker can do

Inversion lemmas for `AsyncWorker.step`, one for each kind of step, and the
invariant that holds in both modes whatever is pushed: the consumer buffer is
empty except between a swap and the `Reset` after it, and no swap happens before
`stop_` is set.

## Key results

- `step_cases`: the six kinds of steps
- `pushSection_cases`, `workerStep_cases`: what `Push` and `ThreadEntry` do in one step
- `reachable_phase`: the invariant `Phase` in every reachable state
-/

namespace Mylog.AsyncWorker

variable {cfg : LogConfig} {type : AsyncType}

/-! ## Inversion -/

/-- The outcomes of a section of `Push` under the mutex. -/
inductive PushOutcome (cfg : LogConfig) (type : AsyncType) (s : State) (i : Nat)
    (data : Bytes) : State → Prop where
  /-- `Push` returns without writing: the worker stops, or `resize` threw. -/
  | leave (h : s.stop = true ∨ s.productor.push cfg data = none) :
      PushOutcome cfg type s i data { s with producers := s.producers.set i .idle }
  /-- There is no room, so the producer blocks. -/
  | block (htype : type = .asyncSafe) (hstop : s.stop = false)
      (hfull : s.productor.writeableSize < data.length) :
      PushOutcome cfg type s i data { s with producers := s.producers.set i (.asleep data) }
  /-- The record is written. -/
  | write (b : Buffer) (hpush : s.productor.push cfg data = some b)
      (hsafe : type = .asyncSafe → s.stop = false ∧ data.length ≤ s.productor.writeableSize) :
      PushOutcome cfg type s i data
        { s with
          productor := b
          producers := s.producers.set i .notify
          accepted := s.accepted ++ [(i, data)]
          acceptedBeforeStop :=
            if s.stop then s.acceptedBeforeStop else s.acceptedBeforeStop ++ [(i, data)] }

/-- `write` either writes the record or leaves `Push` by an exception. -/
private theorem write_outcome (s : State) (i : Nat) (data : Bytes)
    (hsafe : type = .asyncSafe → s.stop = false ∧ data.length ≤ s.productor.writeableSize) :
    PushOutcome cfg type s i data (write cfg s i data) := by
  unfold write
  cases hpush : s.productor.push cfg data with
  | none => exact .leave (.inr hpush)
  | some b => exact .write b hpush hsafe

/-- Every section of `Push` ends in one of the three ways. -/
theorem pushSection_cases (s : State) (i : Nat) (data : Bytes) :
    PushOutcome cfg type s i data (pushSection cfg type s i data) := by
  unfold pushSection
  by_cases htype : type = .asyncSafe
  · rw [if_pos htype]
    by_cases hstop : s.stop = true
    · rw [if_pos (.inr hstop), if_pos hstop]
      exact .leave (.inl hstop)
    · have hrun : s.stop = false := by simpa using hstop
      by_cases hroom : data.length ≤ s.productor.writeableSize
      · rw [if_pos (.inl hroom), if_neg hstop]
        exact write_outcome s i data fun _ => ⟨hrun, hroom⟩
      · rw [if_neg (not_or.mpr ⟨hroom, hstop⟩)]
        exact .block htype hrun (by omega)
  · rw [if_neg htype]
    exact write_outcome s i data fun h => absurd h htype

/-- The kinds of steps of the system. -/
theorem step_cases {s s' : State} {a : Action} (h : step cfg type s a = some s') :
    (∃ i data, sectionOf s a = some (i, data) ∧ PushOutcome cfg type s i data s') ∨
    (∃ i, a = .notifyConsumer i ∧ s.producers[i]? = some .notify ∧
      s' = { s with producers := s.producers.set i .idle, worker := s.worker.notified }) ∨
    (∃ sel, a = .worker sel ∧ workerStep type s sel = some s') ∨
    (a = .stopSet ∧ s.stopCaller = .notCalled ∧
      s' = { s with stop := true, stopCaller := .notify }) ∨
    (a = .stopNotify ∧ s.stopCaller = .notify ∧
      s' = { s with stopCaller := .join, worker := s.worker.notified }) ∨
    (a = .stopJoin ∧ s.stopCaller = .join ∧ s.worker = .exited ∧
      s' = { s with stopCaller := .returned }) := by
  cases a with
  | push i data =>
    obtain ⟨p, hp, rfl⟩ := Option.map_eq_some_iff.mp h
    exact .inl ⟨p.1, p.2, hp, pushSection_cases s p.1 p.2⟩
  | wake i =>
    obtain ⟨p, hp, rfl⟩ := Option.map_eq_some_iff.mp h
    exact .inl ⟨p.1, p.2, hp, pushSection_cases s p.1 p.2⟩
  | notifyConsumer i =>
    obtain ⟨hi, hs⟩ := Option.ite_none_right_eq_some.mp h
    exact .inr (.inl ⟨i, rfl, hi, (Option.some.inj hs).symm⟩)
  | worker sel => exact .inr (.inr (.inl ⟨sel, rfl, h⟩))
  | stopSet =>
    obtain ⟨hi, hs⟩ := Option.ite_none_right_eq_some.mp h
    exact .inr (.inr (.inr (.inl ⟨rfl, hi, (Option.some.inj hs).symm⟩)))
  | stopNotify =>
    obtain ⟨hi, hs⟩ := Option.ite_none_right_eq_some.mp h
    exact .inr (.inr (.inr (.inr (.inl ⟨rfl, hi, (Option.some.inj hs).symm⟩))))
  | stopJoin =>
    obtain ⟨hi, hs⟩ := Option.ite_none_right_eq_some.mp h
    exact .inr (.inr (.inr (.inr (.inr ⟨rfl, hi.1, hi.2, (Option.some.inj hs).symm⟩))))

/-- An action that has a section to run is enabled. -/
theorem step_of_section {s : State} {a : Action} {i : Nat} {data : Bytes}
    (h : sectionOf s a = some (i, data)) :
    step cfg type s a = some (pushSection cfg type s i data) := by
  cases a with
  | push j record => rw [step, h, Option.map_some]
  | wake j => rw [step, h, Option.map_some]
  | notifyConsumer | worker | stopSet | stopNotify | stopJoin => exact nomatch h

/-- What `cond_productor_.notify_one()` does to the producers. -/
theorem notifyOneProductor_cases {ps ps' : List ProducerPc} {sel : Nat}
    (h : notifyOneProductor ps sel = some ps') :
    ps' = ps ∨ ∃ data, ps[sel]? = some (.asleep data) ∧ ps' = ps.set sel (.woken data) := by
  unfold notifyOneProductor at h
  split at h
  · split at h
    · rename_i data hsel
      exact .inr ⟨data, hsel, (Option.some.inj h).symm⟩
    · exact nomatch h
  · exact .inl (Option.some.inj h).symm

/-- The state after the swap, which wakes a producer in `ASYNC_UNSAFE` mode only. -/
theorem waitSection_cases {s s' : State} {sel : Nat} (h : waitSection type s sel = some s') :
    ((s.consumer.isEmpty = false ∨ s.stop = true) ∧ ∃ ps,
      (type = .asyncSafe → ps = s.producers) ∧
      (ps = s.producers ∨ ∃ data, s.producers[sel]? = some (.asleep data) ∧
        ps = s.producers.set sel (.woken data)) ∧
      s' = { s with productor := s.consumer, consumer := s.productor, worker := .callback,
                    producers := ps }) ∨
    (s.consumer.isEmpty = true ∧ s.stop = false ∧ s' = { s with worker := .asleep }) := by
  unfold waitSection at h
  split at h
  · rename_i hpred
    have hpred' : s.consumer.isEmpty = false ∨ s.stop = true := by
      simpa only [Bool.or_eq_true, Bool.not_eq_eq_eq_not, Bool.not_true] using hpred
    refine .inl ⟨hpred', ?_⟩
    split at h
    · rename_i htype
      obtain ⟨ps, hps, rfl⟩ := Option.map_eq_some_iff.mp h
      have hunsafe : type ≠ .asyncSafe := by rw [htype]; nofun
      exact ⟨ps, fun hsafe => absurd hsafe hunsafe, notifyOneProductor_cases hps, rfl⟩
    · exact ⟨s.producers, fun _ => rfl, .inl rfl, (Option.some.inj h).symm⟩
  · rename_i hpred
    simp only [Bool.or_eq_true, Bool.not_eq_eq_eq_not, Bool.not_true, not_or, Bool.not_eq_false,
      Bool.not_eq_true] at hpred
    exact .inr ⟨hpred.1, hpred.2, (Option.some.inj h).symm⟩

/-- The steps of `ThreadEntry`. -/
theorem workerStep_cases {s s' : State} {sel : Nat} (h : workerStep type s sel = some s') :
    (s.worker = .loopHead ∧ s' = { s with worker := if s.stop then .exited else .locking }) ∨
    ((s.worker = .locking ∨ s.worker = .woken) ∧ waitSection type s sel = some s') ∨
    (s.worker = .callback ∧
      s' = { s with worker := .reset, flushed := s.flushed ++ s.consumer.readable }) ∨
    (s.worker = .reset ∧ s' = { s with worker := .checkStop, consumer := s.consumer.reset }) ∨
    (s.worker = .checkStop ∧
      s' = { s with worker := if s.stop then .checkEmpty else .loopHead }) ∨
    (s.worker = .checkEmpty ∧
      s' = { s with worker := if s.productor.isEmpty then .exited else .loopHead }) := by
  unfold workerStep at h
  cases hw : s.worker with
  | loopHead => rw [hw] at h; exact .inl ⟨rfl, (Option.some.inj h).symm⟩
  | locking => rw [hw] at h; exact .inr (.inl ⟨.inl rfl, h⟩)
  | asleep => rw [hw] at h; exact nomatch h
  | woken => rw [hw] at h; exact .inr (.inl ⟨.inr rfl, h⟩)
  | callback => rw [hw] at h; exact .inr (.inr (.inl ⟨rfl, (Option.some.inj h).symm⟩))
  | reset => rw [hw] at h; exact .inr (.inr (.inr (.inl ⟨rfl, (Option.some.inj h).symm⟩)))
  | checkStop =>
    rw [hw] at h; exact .inr (.inr (.inr (.inr (.inl ⟨rfl, (Option.some.inj h).symm⟩))))
  | checkEmpty =>
    rw [hw] at h; exact .inr (.inr (.inr (.inr (.inr ⟨rfl, (Option.some.inj h).symm⟩))))
  | exited => rw [hw] at h; exact nomatch h

/-- A step of the worker leaves the stop and what was accepted. -/
theorem workerStep_frame {s s' : State} {sel : Nat} (h : workerStep type s sel = some s') :
    s'.stop = s.stop ∧ s'.accepted = s.accepted ∧
      s'.acceptedBeforeStop = s.acceptedBeforeStop := by
  obtain ⟨-, rfl⟩ | ⟨-, h⟩ | ⟨-, rfl⟩ | ⟨-, rfl⟩ | ⟨-, rfl⟩ | ⟨-, rfl⟩ := workerStep_cases h
  · exact ⟨rfl, rfl, rfl⟩
  · obtain ⟨-, ps, -, -, rfl⟩ | ⟨-, -, rfl⟩ := waitSection_cases h
    · exact ⟨rfl, rfl, rfl⟩
    · exact ⟨rfl, rfl, rfl⟩
  all_goals exact ⟨rfl, rfl, rfl⟩

/-- `stop_` is never cleared. -/
theorem step_stop {s s' : State} {a : Action} (hs : s.stop = true)
    (h : step cfg type s a = some s') : s'.stop = true := by
  obtain ⟨i, data, -, hout⟩ | ⟨i, -, -, rfl⟩ | ⟨sel, -, h⟩ | ⟨-, -, rfl⟩ | ⟨-, -, rfl⟩ |
    ⟨-, -, -, rfl⟩ := step_cases h
  · cases hout <;> exact hs
  · exact hs
  · rw [(workerStep_frame h).1]
    exact hs
  · rfl
  · exact hs
  · exact hs

/-! ## The phases of the worker -/

/-- The worker has not swapped the buffers in this turn of its loop. -/
def WorkerPc.beforeSwap : WorkerPc → Bool
  | .loopHead | .locking | .asleep | .woken => true
  | _ => false

@[simp] theorem WorkerPc.beforeSwap_notified (pc : WorkerPc) :
    pc.notified.beforeSwap = pc.beforeSwap := by
  cases pc <;> rfl

/-- A notification moves the worker out of its sleep and nowhere else. -/
theorem WorkerPc.notified_eq {pc pc' : WorkerPc} (h : pc.notified = pc') (hne : pc' ≠ .woken) :
    pc = pc' := by
  cases pc <;> simp_all [WorkerPc.notified]

/-- The invariant of both modes, whatever is pushed. -/
structure Phase (s : State) : Prop where
  /-- Only a buffer that was swapped in and not reset yet can hold something. -/
  consumer_empty : s.worker ≠ .callback → s.worker ≠ .reset → s.consumer.isEmpty = true
  /-- Before the stop the worker has not swapped yet. -/
  before_swap : s.stop = false → s.worker.beforeSwap = true
  stop_called : s.stop = false ↔ s.stopCaller = .notCalled
  productor_size : s.productor.buffer.length ≤ vectorMaxSize
  consumer_size : s.consumer.buffer.length ≤ vectorMaxSize
  /-- Nothing is handed to the callback before the stop. -/
  unflushed : s.stop = false → s.flushed = [] ∧ s.acceptedBeforeStop = s.accepted

/-- When the worker looks at its wait predicate there is nothing in the consumer buffer. -/
theorem Phase.consumer_empty_of_wait {s : State} (hs : Phase s)
    (hw : s.worker = .locking ∨ s.worker = .woken) : s.consumer.isEmpty = true := by
  rcases hw with hw | hw
  · exact hs.consumer_empty (by simp [hw]) (by simp [hw])
  · exact hs.consumer_empty (by simp [hw]) (by simp [hw])

/-- So the predicate holds after the stop only. -/
theorem Phase.stop_of_swap {s : State} (hs : Phase s)
    (hw : s.worker = .locking ∨ s.worker = .woken)
    (hpred : s.consumer.isEmpty = false ∨ s.stop = true) : s.stop = true := by
  have hempty := hs.consumer_empty_of_wait hw
  exact hpred.resolve_left (by simp [hempty])

theorem start_phase {b : Buffer} (hb : Buffer.new cfg = some b) (n : Nat) : Phase (start b n) := by
  obtain ⟨hwf, hr, hw, -⟩ := Buffer.new_wf hb
  refine ⟨fun _ _ => ?_, fun _ => rfl, by simp [start], hwf.size_le, hwf.size_le,
    fun _ => ⟨rfl, rfl⟩⟩
  simp only [start, Buffer.isEmpty, hr, hw, beq_self_eq_true]

/-- A push keeps the vector below the largest size there is. -/
private theorem push_size {b b' : Buffer} {data : Bytes} (hb : b.buffer.length ≤ vectorMaxSize)
    (h : b.push cfg data = some b') : b'.buffer.length ≤ vectorMaxSize := by
  obtain ⟨g, hg, rfl⟩ := Buffer.push_eq_some.mp h
  simp only [List.length_overwrite]
  obtain ⟨-, rfl⟩ | ⟨-, hmax, rfl⟩ := Buffer.toBeEnough_cases hg
  · exact hb
  · simpa only [List.length_resize] using hmax

private theorem workerStep_phase {s s' : State} {sel : Nat} (hs : Phase s)
    (h : workerStep type s sel = some s') : Phase s' := by
  obtain ⟨hw, rfl⟩ | ⟨hw, h⟩ | ⟨hw, rfl⟩ | ⟨hw, rfl⟩ | ⟨hw, rfl⟩ | ⟨hw, rfl⟩ := workerStep_cases h
  · -- the loop head
    have hempty := hs.consumer_empty (by simp [hw]) (by simp [hw])
    refine { hs with consumer_empty := fun _ _ => hempty, before_swap := fun hstop => ?_ }
    have hstop : s.stop = false := hstop
    simp only [hstop, Bool.false_eq_true, ↓reduceIte, WorkerPc.beforeSwap]
  · obtain ⟨hpred, ps, -, -, rfl⟩ | ⟨-, -, rfl⟩ := waitSection_cases h
    · -- the swap: the consumer was empty, so `stop_` is set
      have hstop := hs.stop_of_swap hw hpred
      refine ⟨fun h => absurd rfl h, fun hf => ?_, hs.stop_called, hs.consumer_size,
        hs.productor_size, hs.unflushed⟩
      have hf : s.stop = false := hf
      rw [hstop] at hf
      exact nomatch hf
    · -- back to sleep
      have hempty := hs.consumer_empty_of_wait hw
      exact { hs with consumer_empty := fun _ _ => hempty, before_swap := fun _ => rfl }
  all_goals
    -- after the swap, so the stop has come
    have hstop : s.stop = true := by
      have := hs.before_swap
      simpa [hw, WorkerPc.beforeSwap] using this
  · -- the callback
    exact { hs with consumer_empty := fun _ h => absurd rfl h,
                    before_swap := by simp [hstop], unflushed := by simp [hstop] }
  · -- the reset
    exact { hs with consumer_empty := fun _ _ => Buffer.isEmpty_reset _,
                    before_swap := by simp [hstop], consumer_size := hs.consumer_size }
  -- the two halves of the last check
  all_goals
    have hempty := hs.consumer_empty (by simp [hw]) (by simp [hw])
    exact { hs with consumer_empty := fun _ _ => hempty, before_swap := by simp [hstop] }

/-- Before the stop a step of the worker leaves the producer buffer. -/
theorem workerStep_productor {s s' : State} {sel : Nat} (hs : Phase s) (hstop : s.stop = false)
    (h : workerStep type s sel = some s') : s'.productor = s.productor := by
  obtain ⟨-, rfl⟩ | ⟨hw, h⟩ | ⟨-, rfl⟩ | ⟨-, rfl⟩ | ⟨-, rfl⟩ | ⟨-, rfl⟩ := workerStep_cases h
  · rfl
  · obtain ⟨hpred, ps, -, -, rfl⟩ | ⟨-, -, rfl⟩ := waitSection_cases h
    · have hset := hs.stop_of_swap hw hpred
      rw [hstop] at hset
      cases hset
    · rfl
  all_goals rfl

theorem step_phase {s s' : State} {a : Action} (hs : Phase s)
    (h : step cfg type s a = some s') : Phase s' := by
  obtain ⟨i, data, -, hout⟩ | ⟨i, -, -, rfl⟩ | ⟨sel, -, h⟩ | ⟨-, -, rfl⟩ | ⟨-, hcall, rfl⟩ |
    ⟨-, hcall, -, rfl⟩ := step_cases h
  · cases hout with
    | leave => exact { hs with }
    | block => exact { hs with }
    | write b hpush =>
      -- an accepted record, which counts as one before the stop
      refine { hs with productor_size := push_size hs.productor_size hpush, unflushed := ?_ }
      intro hstop
      have hstop : s.stop = false := hstop
      obtain ⟨hflushed, hacc⟩ := hs.unflushed hstop
      simp only [hstop, Bool.false_eq_true, ↓reduceIte, hflushed, hacc, and_self]
  · -- the notification by a producer, which moves the worker from `asleep` to `woken`
    refine { hs with consumer_empty := fun h₁ h₂ => hs.consumer_empty ?_ ?_, before_swap := ?_ }
    · intro hw; exact h₁ (by simp [hw, WorkerPc.notified])
    · intro hw; exact h₂ (by simp [hw, WorkerPc.notified])
    · simpa only [WorkerPc.beforeSwap_notified] using hs.before_swap
  · exact workerStep_phase hs h
  · -- `stop_` is set, so nothing is asked of the worker from here on
    exact { hs with before_swap := nofun, stop_called := by simp, unflushed := nofun }
  · -- the notification by `Stop`
    have hstop : s.stop = true := by simpa [hcall] using hs.stop_called
    refine { hs with consumer_empty := fun h₁ h₂ => hs.consumer_empty ?_ ?_,
                     before_swap := by simp [hstop], stop_called := by simp [hstop] }
    · intro hw; exact h₁ (by simp [hw, WorkerPc.notified])
    · intro hw; exact h₂ (by simp [hw, WorkerPc.notified])
  · -- the join
    have hstop : s.stop = true := by simpa [hcall] using hs.stop_called
    exact { hs with stop_called := by simp [hstop] }

/-- The invariant holds in every reachable state. -/
theorem reachable_phase {s : State} (h : (system cfg type).Reachable s) : Phase s := by
  apply h.invariant
  · intro s hs
    obtain ⟨b, n, hb, rfl⟩ := hs
    exact start_phase hb n
  · intro s a s' hs hstep
    have hstep : step cfg type s a = some s' := hstep
    exact step_phase hs hstep

/-- A property holds all along a run exactly when the steps of the run meet what it takes to
    keep it, which may be worked out under the invariant. -/
theorem always_iff_allSteps_of_phase {P : State → Prop} {C : State → Action → Prop}
    (hdisabled : ∀ {s : State} {a : Action}, step cfg type s a = none → C s a)
    (hstep : ∀ {s s' : State} {a : Action}, Phase s → P s → step cfg type s a = some s' →
      (P s' ↔ C s a))
    {s₀ : State} (h : (system cfg type).init s₀) (hP : P s₀) (as : List Action) :
    (system cfg type).Always P s₀ as ↔ (system cfg type).AllSteps C s₀ as := by
  have hs : Phase s₀ := reachable_phase (Transition.Reachable.of_init _ h)
  apply Transition.always_iff_allSteps (I := Phase) _ _ _ hs hP
  · intro s a s' hs h
    have h : step cfg type s a = some s' := h
    exact step_phase hs h
  · intro s a hnone
    exact hdisabled hnone
  · intro s a s' hs hP h
    exact hstep hs hP h

end Mylog.AsyncWorker
