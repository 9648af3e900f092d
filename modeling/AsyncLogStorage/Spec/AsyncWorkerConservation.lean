import AsyncLogStorage.Spec.AsyncWorkerInvariant

/-!
# Conservation and draining of the log worker

What was handed to the callback, what was swapped in and not handed over yet and
what the producer buffer holds are together the accepted records in lock order, as
long as every record fits after `ToBeEnough`. In `ASYNC_SAFE` mode a record waits
for room, so it fits unless the sum `linear_growth + buffersize` wraps and the
growth step shrinks the vector.

Draining on `Stop` fails where `stop_` is set before the worker has evaluated
`while (!stop_)` for the first time: it leaves the loop without a swap.

## Key results

- `conserves_iff`: the bytes are conserved along a run exactly when no growth step wraps
- `drained_iff`: after a stop everything accepted before it is flushed exactly when
  the worker had entered its loop or there was nothing to flush
-/

namespace Mylog.AsyncWorker

variable {cfg : LogConfig} {type : AsyncType}

/-! ## Conservation -/

/-- The bytes that were swapped in and not handed to the callback yet. -/
def State.pendingBytes (s : State) : Bytes :=
  if s.worker = .callback then s.consumer.readable else []

/-- No byte is lost, duplicated or out of place, and both buffers keep their positions
    in order and inside the vector. -/
structure Conserves (s : State) : Prop where
  bytes : s.flushed ++ s.pendingBytes ++ s.productor.readable = bytesOf s.accepted
  productor_read : s.productor.readPos ≤ s.productor.writePos
  productor_write : s.productor.writePos ≤ s.productor.buffer.length
  consumer_read : s.consumer.readPos ≤ s.consumer.writePos
  consumer_write : s.consumer.writePos ≤ s.consumer.buffer.length

/-- A record that is written fits into the vector that `ToBeEnough` leaves. -/
def Fits (cfg : LogConfig) (type : AsyncType) (s : State) (a : Action) : Prop :=
  ∀ i data g, sectionOf s a = some (i, data) →
    (type = .asyncSafe → s.stop = false ∧ data.length ≤ s.productor.writeableSize) →
    s.productor.toBeEnough cfg data.length = some g →
    s.productor.writePos + data.length ≤ g.buffer.length

/-- A record that fills the buffer makes it grow by a sum that does not wrap. -/
def NoWrap (cfg : LogConfig) (s : State) (a : Action) : Prop :=
  ∀ i data, sectionOf s a = some (i, data) → s.stop = false →
    data.length = s.productor.writeableSize →
    s.productor.buffer.length < cfg.threshold.toNat ∨
      cfg.linearGrowth.toNat + s.productor.buffer.length < SizeT.modulus

theorem Conserves.productor_wf {s : State} (h : Conserves s) (hs : Phase s) :
    s.productor.Wf :=
  ⟨h.productor_read, h.productor_write, hs.productor_size⟩

theorem Conserves.consumer_wf {s : State} (h : Conserves s) (hs : Phase s) :
    s.consumer.Wf :=
  ⟨h.consumer_read, h.consumer_write, hs.consumer_size⟩

/-- Outside `callback` nothing is pending. -/
theorem State.pendingBytes_eq_nil {s : State} (h : s.worker ≠ .callback) :
    s.pendingBytes = [] :=
  if_neg h

/-- A notification does not move the worker into or out of its callback. -/
private theorem pendingBytes_notified (s : State) (ps : List ProducerPc) (c : StopPc) :
    ({ s with producers := ps, stopCaller := c, worker := s.worker.notified } : State).pendingBytes
      = s.pendingBytes := by
  have hiff : s.worker.notified = .callback ↔ s.worker = .callback := by
    constructor
    · intro h
      exact WorkerPc.notified_eq h nofun
    · intro h
      rw [h]
      rfl
  simp only [State.pendingBytes, hiff]

theorem start_conserves {b : Buffer} (hb : Buffer.new cfg = some b) (n : Nat) :
    Conserves (start b n) := by
  obtain ⟨hwf, -, hw, -⟩ := Buffer.new_wf hb
  have hread : b.readable = [] := by
    rw [hwf.readable_eq, hw, Nat.zero_sub, List.take_zero]
  refine ⟨?_, hwf.read_le, hwf.write_le, hwf.read_le, hwf.write_le⟩
  show [] ++ [] ++ b.readable = []
  rw [hread]
  rfl

private theorem workerStep_conserves {s s' : State} {sel : Nat} (hs : Phase s)
    (hP : Conserves s) (h : workerStep type s sel = some s') : Conserves s' := by
  obtain ⟨hw, rfl⟩ | ⟨hw, h⟩ | ⟨hw, rfl⟩ | ⟨hw, rfl⟩ | ⟨hw, rfl⟩ | ⟨hw, rfl⟩ := workerStep_cases h
  · -- the loop head: nothing pending before and after
    refine { hP with bytes := ?_ }
    have hbytes := hP.bytes
    rw [State.pendingBytes_eq_nil (by simp [hw])] at hbytes
    rw [State.pendingBytes_eq_nil (by show ite _ _ _ ≠ _; split <;> nofun)]
    exact hbytes
  · have hbytes := hP.bytes
    have hne : s.worker ≠ .callback := by rcases hw with hw | hw <;> simp [hw]
    rw [State.pendingBytes_eq_nil hne] at hbytes
    obtain ⟨-, ps, -, -, rfl⟩ | ⟨-, -, rfl⟩ := waitSection_cases h
    · -- the swap: the full buffer becomes pending, the empty one takes the next records
      refine ⟨?_, hP.consumer_read, hP.consumer_write, hP.productor_read, hP.productor_write⟩
      have hempty := (hP.consumer_wf hs).isEmpty_iff.mp (hs.consumer_empty_of_wait hw)
      show s.flushed ++ s.productor.readable ++ s.consumer.readable = bytesOf s.accepted
      rw [hempty, ← hbytes, List.append_nil, List.append_nil]
    · -- back to sleep
      refine { hP with bytes := ?_ }
      rw [State.pendingBytes_eq_nil (by simp)]
      exact hbytes
  · -- the callback takes what is pending
    refine { hP with bytes := ?_ }
    have hbytes := hP.bytes
    simp only [State.pendingBytes, hw, ↓reduceIte] at hbytes
    rw [State.pendingBytes_eq_nil (by simp), List.append_nil]
    exact hbytes
  · -- the reset: the consumer buffer has been handed over
    refine ⟨?_, hP.productor_read, hP.productor_write, Nat.le_refl 0, Nat.zero_le _⟩
    have hbytes := hP.bytes
    rw [State.pendingBytes_eq_nil (by simp [hw])] at hbytes
    rw [State.pendingBytes_eq_nil (by simp)]
    exact hbytes
  -- the two halves of the last check move no bytes
  all_goals
    refine { hP with bytes := ?_ }
    have hbytes := hP.bytes
    rw [State.pendingBytes_eq_nil (by simp [hw])] at hbytes
    rw [State.pendingBytes_eq_nil (by show ite _ _ _ ≠ _; split <;> nofun)]
    exact hbytes

/-- A step whose record fits keeps the bytes, in both modes. -/
theorem step_conserves {s s' : State} {a : Action} (hs : Phase s) (hP : Conserves s)
    (hfit : Fits cfg type s a) (h : step cfg type s a = some s') : Conserves s' := by
  obtain ⟨i, data, hsec, hout⟩ | ⟨i, -, -, rfl⟩ | ⟨sel, -, h⟩ | ⟨-, -, rfl⟩ | ⟨-, -, rfl⟩ |
    ⟨-, -, -, rfl⟩ := step_cases h
  · cases hout with
    | leave => exact { hP with }
    | block => exact { hP with }
    | write b hpush hsafe =>
      -- the record goes to the end of the producer buffer
      obtain ⟨g, hg, -⟩ := Buffer.push_eq_some.mp hpush
      obtain ⟨hwf, hread⟩ :=
        Buffer.push_spec (hP.productor_wf hs) hg (hfit i data g hsec hsafe hg) hpush
      refine { hP with bytes := ?_, productor_read := hwf.read_le, productor_write := hwf.write_le }
      show s.flushed ++ s.pendingBytes ++ b.readable = bytesOf (s.accepted ++ [(i, data)])
      rw [hread, ← List.append_assoc, hP.bytes, bytesOf_append, bytesOf_singleton]
  · -- the notification by a producer
    refine { hP with bytes := ?_ }
    have hpending := pendingBytes_notified s (s.producers.set i .idle) s.stopCaller
    show s.flushed ++ State.pendingBytes _ ++ s.productor.readable = bytesOf s.accepted
    rw [hpending]
    exact hP.bytes
  · exact workerStep_conserves hs hP h
  · exact { hP with }
  · -- the notification by `Stop`
    refine { hP with bytes := ?_ }
    have hpending := pendingBytes_notified s s.producers .join
    show s.flushed ++ State.pendingBytes _ ++ s.productor.readable = bytesOf s.accepted
    rw [hpending]
    exact hP.bytes
  · exact { hP with }

/-- In `ASYNC_SAFE` mode the wait leaves room, so only a growth step that wraps makes
    a record not fit. -/
private theorem fits_of_noWrap {s : State} {a : Action} (hs : Phase s) (hP : Conserves s)
    (hC : NoWrap cfg s a) : Fits cfg .asyncSafe s a := by
  intro i data g hsec hsafe hg
  obtain ⟨hstop, hle⟩ := hsafe rfl
  have hwf := hP.productor_wf hs
  have hroom := hwf.writeableSize_eq
  have hwrite := hP.productor_write
  obtain ⟨-, rfl⟩ | ⟨hge, hmax, rfl⟩ := Buffer.toBeEnough_cases hg
  · omega
  · -- the record fills the buffer, and the growth step must not shrink the vector
    have hlen : data.length = s.productor.writeableSize := by omega
    have hgrown : s.productor.buffer.length ≤ s.productor.grownSize cfg := by
      rw [Buffer.grownSize_eq]
      have hsize := hs.productor_size
      have hfits : s.productor.buffer.length + s.productor.growth cfg < SizeT.modulus := by
        unfold Buffer.growth
        split
        · have : vectorMaxSize + vectorMaxSize < SizeT.modulus := by decide
          omega
        · have := hC i data hsec hstop hlen
          omega
      rw [SizeT.add_eq hfits]
      omega
    simp only [List.length_resize]
    omega

/-- A growth step that wraps leaves the write position past the end of the vector. -/
private theorem noWrap_of_conserves {s : State} {a : Action} {i : Nat} {data : Bytes} {b : Buffer}
    (hs : Phase s) (hP : Conserves s) (hsec : sectionOf s a = some (i, data))
    (hpush : s.productor.push cfg data = some b) (hb : b.writePos ≤ b.buffer.length) :
    NoWrap cfg s a := by
  intro j record hsec' hstop hlen
  rw [hsec] at hsec'
  cases hsec'
  have hwf := hP.productor_wf hs
  have hroom := hwf.writeableSize_eq
  have hwrite := hP.productor_write
  have hlt := hwf.size_lt
  obtain ⟨g, hg, rfl⟩ := Buffer.push_eq_some.mp hpush
  obtain ⟨hless, -⟩ | ⟨-, -, rfl⟩ := Buffer.toBeEnough_cases hg
  · omega
  · -- had the sum wrapped, the new size would be below the position that was reached
    apply Classical.byContradiction
    intro hwrap
    obtain ⟨hth, hsum⟩ := not_or.mp hwrap
    have hgrowth : s.productor.growth cfg = cfg.linearGrowth.toNat := if_neg hth
    have hlin : cfg.linearGrowth.toNat < SizeT.modulus := cfg.linearGrowth.toNat_lt
    have hshrunk : s.productor.grownSize cfg < s.productor.buffer.length := by
      rw [Buffer.grownSize_eq, hgrowth, SizeT.add_eq_of_wrap hlt hlin (by omega)]
      omega
    have hpos : SizeT.add s.productor.writePos data.length = s.productor.buffer.length := by
      rw [SizeT.add_eq (by omega)]
      omega
    simp only [List.length_overwrite, List.length_resize, hpos] at hb
    omega

private theorem step_conserves_iff {s s' : State} {a : Action} (hs : Phase s) (hP : Conserves s)
    (h : step cfg .asyncSafe s a = some s') : Conserves s' ↔ NoWrap cfg s a := by
  constructor
  · intro hP'
    obtain ⟨i, data, hsec, hout⟩ | ⟨i, rfl, -, -⟩ | ⟨sel, rfl, -⟩ | ⟨rfl, -, -⟩ | ⟨rfl, -, -⟩ |
      ⟨rfl, -, -, -⟩ := step_cases h
    · cases hout with
      | leave hleave =>
        -- `Stop` has been called, or the growth step asked for more than `max_size()`
        intro j record hsec' hstop hlen
        rw [hsec] at hsec'
        cases hsec'
        rcases hleave with hleave | hthrow
        · rw [hstop] at hleave; exact nomatch hleave
        · by_cases hth : s.productor.buffer.length < cfg.threshold.toNat
          · exact .inl hth
          · right
            have hmax := (Buffer.push_eq_none.mp hthrow).2
            have hgrowth : s.productor.growth cfg = cfg.linearGrowth.toNat := if_neg hth
            have hlin : cfg.linearGrowth.toNat < SizeT.modulus := cfg.linearGrowth.toNat_lt
            have hlt := (hP.productor_wf hs).size_lt
            have hsize := hs.productor_size
            apply Classical.byContradiction
            intro hsum
            rw [Buffer.grownSize_eq, hgrowth, SizeT.add_eq_of_wrap hlt hlin (by omega)] at hmax
            omega
      | block _ _ hfull =>
        intro j record hsec' _ hlen
        rw [hsec] at hsec'
        cases hsec'
        omega
      | write b hpush => exact noWrap_of_conserves hs hP hsec hpush hP'.productor_write
    all_goals exact nofun
  · intro hC
    exact step_conserves hs hP (fits_of_noWrap hs hP hC) h

/-- In `ASYNC_SAFE` mode a run conserves the bytes and the positions in all its states
    exactly when no record that fills the buffer makes the growth sum wrap. -/
theorem conserves_iff (cfg : LogConfig) {s₀ : State} (as : List Action)
    (h : (system cfg .asyncSafe).init s₀) :
    (system cfg .asyncSafe).Always Conserves s₀ as ↔
      (system cfg .asyncSafe).AllSteps (NoWrap cfg) s₀ as := by
  have hP : Conserves s₀ := by
    obtain ⟨b, n, hb, rfl⟩ := h
    exact start_conserves hb n
  apply always_iff_allSteps_of_phase _ step_conserves_iff h hP
  -- a call in its section can go on
  intro s a hstep i data hsec
  rw [step_of_section hsec] at hstep
  cases hstep

/-- A buffer of one byte that grows by `linear_growth = -1`. -/
def wrapConfig : LogConfig where
  bufferSize := 1
  threshold := 0
  linearGrowth := 18446744073709551615

instance (cfg : LogConfig) (s : State) (a : Action) : Decidable (NoWrap cfg s a) :=
  decidable_of_iff (∀ p ∈ sectionOf s a, s.stop = false → p.2.length = s.productor.writeableSize →
    s.productor.buffer.length < cfg.threshold.toNat ∨
      cfg.linearGrowth.toNat + s.productor.buffer.length < SizeT.modulus)
    (by simp only [NoWrap, Option.mem_def, Prod.forall])

/-- A record shorter than the buffer asks for no growth. It is flushed after the stop. -/
theorem conserves_short :
    (system { wrapConfig with bufferSize := 2 } .asyncSafe).Always Conserves
      (start ⟨[0, 0], 0, 0⟩ 1)
      [.worker 0, .push 0 [65], .notifyConsumer 0, .stopSet, .worker 0, .worker 0, .worker 0] :=
  (conserves_iff { wrapConfig with bufferSize := 2 } _ ⟨_, 1, rfl, rfl⟩).mpr (by decide)

theorem conserves_wrapped :
    ¬∀ (cfg : LogConfig) (s : State), (system cfg .asyncSafe).Reachable s → Conserves s := by
  intro h
  have hinit : (system wrapConfig .asyncSafe).init (start ⟨[0], 0, 0⟩ 1) := ⟨_, 1, rfl, rfl⟩
  obtain ⟨s, hs, hwrite⟩ := Transition.exists_reachable_of_run
    (P := fun s => s.productor.buffer.length < s.productor.writePos) hinit
    (show ((system wrapConfig .asyncSafe).run _ [.push 0 [65]]).any _ = true by decide)
  have hP := (h wrapConfig s hs).productor_write
  omega

/-! ## Draining -/

/-- A worker that has exited has handed over everything accepted before the stop, and
    nothing that was not accepted. -/
def Drained (s : State) : Prop :=
  s.worker = .exited →
    bytesOf s.acceptedBeforeStop <+: s.flushed ∧ s.flushed <+: bytesOf s.accepted

/-- `stop_` is set once the worker has entered its loop, or when there is nothing to flush. -/
def StopsRunning (s : State) (a : Action) : Prop :=
  a = .stopSet → s.worker ≠ .loopHead ∨ bytesOf s.accepted = []

/-- The worker is in its loop and has not swapped yet. -/
def WorkerPc.willSwap (pc : WorkerPc) : Prop := pc = .locking ∨ pc = .asleep ∨ pc = .woken

/-- The invariant of runs that stop a running worker. -/
structure Draining (type : AsyncType) (s : State) : Prop where
  phase : Phase s
  conserves : Conserves s
  before_prefix : s.acceptedBeforeStop <+: s.accepted
  /-- In `ASYNC_SAFE` mode nothing is accepted after the stop. -/
  before_eq : type = .asyncSafe → s.acceptedBeforeStop = s.accepted
  /-- After the stop one more swap comes, or it has come and took everything along. -/
  swapped : s.stop = true → s.worker.willSwap ∨
    bytesOf s.acceptedBeforeStop <+: s.flushed ++ s.pendingBytes

private theorem bytesOf_prefix {xs ys : List (Nat × Bytes)} (h : xs <+: ys) :
    bytesOf xs <+: bytesOf ys := by
  obtain ⟨zs, rfl⟩ := h
  rw [bytesOf_append]
  exact List.prefix_append _ _

private theorem WorkerPc.willSwap_notified {pc : WorkerPc} (h : pc.willSwap) :
    pc.notified.willSwap := by
  rcases h with rfl | rfl | rfl
  · exact .inl rfl
  · exact .inr (.inr rfl)
  · exact .inr (.inr rfl)

/-- After the stop everything is on its way once the worker is past its last swap. -/
private theorem Draining.handed {s : State} (hs : Draining type s) (hstop : s.stop = true)
    (hw : ¬s.worker.willSwap) : bytesOf s.acceptedBeforeStop <+: s.flushed ++ s.pendingBytes :=
  (hs.swapped hstop).resolve_left hw

private theorem workerStep_swapped {s s' : State} {sel : Nat} (hs : Draining type s)
    (h : workerStep type s sel = some s') :
    s'.stop = true → s'.worker.willSwap ∨
      bytesOf s'.acceptedBeforeStop <+: s'.flushed ++ s'.pendingBytes := by
  intro hstop'
  have hstop : s.stop = true := by rw [← (workerStep_frame h).1]; exact hstop'
  obtain ⟨hw, rfl⟩ | ⟨hw, h⟩ | ⟨hw, rfl⟩ | ⟨hw, rfl⟩ | ⟨hw, rfl⟩ | ⟨hw, rfl⟩ := workerStep_cases h
  · -- the loop head leaves the loop, so everything has been handed over by now
    right
    have hpre := hs.handed hstop (by simp [WorkerPc.willSwap, hw])
    rw [State.pendingBytes_eq_nil (by simp [hw])] at hpre
    rw [State.pendingBytes_eq_nil (by simp [hstop])]
    exact hpre
  · obtain ⟨hpred, ps, -, -, rfl⟩ | ⟨-, hstop, rfl⟩ := waitSection_cases h
    · right
      -- all that was accepted is in the buffer that is swapped in
      have hbytes := hs.conserves.bytes
      rw [State.pendingBytes_eq_nil (by rcases hw with hw | hw <;> simp [hw]),
        List.append_nil] at hbytes
      show bytesOf s.acceptedBeforeStop <+: s.flushed ++ s.productor.readable
      rw [hbytes]
      exact bytesOf_prefix hs.before_prefix
    · exact .inl (.inr (.inl rfl))
  · -- the callback takes what is pending
    right
    have hpre := hs.handed hstop (by simp [WorkerPc.willSwap, hw])
    rw [State.pendingBytes_eq_nil (by simp), List.append_nil]
    simpa only [State.pendingBytes, hw, ↓reduceIte] using hpre
  · -- the reset
    right
    have hpre := hs.handed hstop (by simp [WorkerPc.willSwap, hw])
    rw [State.pendingBytes_eq_nil (by simp [hw])] at hpre
    rw [State.pendingBytes_eq_nil (by simp)]
    exact hpre
  -- the two halves of the last check
  all_goals
    right
    have hpre := hs.handed hstop (by simp [WorkerPc.willSwap, hw])
    rw [State.pendingBytes_eq_nil (by simp [hw])] at hpre
    rw [State.pendingBytes_eq_nil (by show ite _ _ _ ≠ _; split <;> nofun)]
    exact hpre

theorem step_draining {s s' : State} {a : Action} (hs : Draining type s)
    (hfit : Fits cfg type s a) (hC : StopsRunning s a) (h : step cfg type s a = some s') :
    Draining type s' := by
  have hphase := step_phase hs.phase h
  have hcons := step_conserves hs.phase hs.conserves hfit h
  obtain ⟨i, data, hsec, hout⟩ | ⟨i, -, -, rfl⟩ | ⟨sel, -, h⟩ | ⟨rfl, hcall, rfl⟩ | ⟨-, -, rfl⟩ |
    ⟨-, -, -, rfl⟩ := step_cases h
  · cases hout with
    | leave => exact { hs with phase := hphase, conserves := hcons }
    | block => exact { hs with phase := hphase, conserves := hcons }
    | write b hpush hsafe =>
      -- after the stop a record is accepted in `ASYNC_UNSAFE` mode only
      refine ⟨hphase, hcons, ?_, ?_, ?_⟩
      · show (if s.stop then s.acceptedBeforeStop else s.acceptedBeforeStop ++ [(i, data)]) <+:
          s.accepted ++ [(i, data)]
        split
        · exact hs.before_prefix.trans (List.prefix_append _ _)
        · rename_i hstop
          have hbefore := (hs.phase.unflushed (by simpa using hstop)).2
          simp only [hbefore, List.prefix_rfl]
      · intro htype
        simp only [(hsafe htype).1, Bool.false_eq_true, ↓reduceIte, hs.before_eq htype]
      · intro hstop
        have hstop : s.stop = true := hstop
        simp only [hstop, ↓reduceIte]
        exact hs.swapped hstop
  · -- the notification by a producer
    refine { hs with phase := hphase, conserves := hcons, swapped := fun hstop => ?_ }
    have hpending := pendingBytes_notified s (s.producers.set i .idle) s.stopCaller
    rw [hpending]
    exact (hs.swapped hstop).imp_left WorkerPc.willSwap_notified
  · obtain ⟨-, haccepted, hbefore⟩ := workerStep_frame h
    refine ⟨hphase, hcons, ?_, ?_, workerStep_swapped hs h⟩
    · rw [haccepted, hbefore]
      exact hs.before_prefix
    · rw [haccepted, hbefore]
      exact hs.before_eq
  · -- the stop: before it the worker has not swapped
    have hstop : s.stop = false := hs.phase.stop_called.mpr hcall
    refine { hs with phase := hphase, conserves := hcons, swapped := fun _ => ?_ }
    have hbefore := hs.phase.before_swap hstop
    show s.worker.willSwap ∨ bytesOf s.acceptedBeforeStop <+: s.flushed ++ s.pendingBytes
    rcases hC rfl with hrun | hnone
    · left
      cases hw : s.worker with
      | loopHead => exact absurd hw hrun
      | locking => exact .inl rfl
      | asleep => exact .inr (.inl rfl)
      | woken => exact .inr (.inr rfl)
      | callback | reset | checkStop | checkEmpty | exited =>
        simp [hw, WorkerPc.beforeSwap] at hbefore
    · right
      rw [(hs.phase.unflushed hstop).2, hnone]
      exact List.nil_prefix
  · -- the notification by `Stop`
    refine { hs with phase := hphase, conserves := hcons, swapped := fun hstop => ?_ }
    have hpending := pendingBytes_notified s s.producers .join
    rw [hpending]
    exact (hs.swapped hstop).imp_left WorkerPc.willSwap_notified
  · exact { hs with phase := hphase, conserves := hcons }

theorem Draining.drained {s : State} (hs : Draining type s) : Drained s := by
  intro hw
  have hpending : s.pendingBytes = [] := State.pendingBytes_eq_nil (by simp [hw])
  have hstop : s.stop = true := by
    cases hstop : s.stop with
    | true => rfl
    | false =>
      have := hs.phase.before_swap hstop
      rw [hw] at this
      exact nomatch this
  constructor
  · have hpre := hs.handed hstop (by simp [WorkerPc.willSwap, hw])
    rwa [hpending, List.append_nil] at hpre
  · rw [← hs.conserves.bytes, hpending, List.append_nil]
    exact List.prefix_append _ _

/-- In `ASYNC_SAFE` mode the flushed bytes are exactly the accepted ones. -/
theorem Draining.flushed_eq {s : State} (hs : Draining .asyncSafe s)
    (hw : s.worker = .exited) : s.flushed = bytesOf s.acceptedBeforeStop := by
  obtain ⟨hle, hge⟩ := hs.drained hw
  rw [← hs.before_eq rfl] at hge
  exact hge.eq_of_length (Nat.le_antisymm hge.length_le hle.length_le)

theorem start_draining {b : Buffer} (hb : Buffer.new cfg = some b) (n : Nat) :
    Draining type (start b n) :=
  ⟨start_phase hb n, start_conserves hb n, List.prefix_refl _, fun _ => rfl, nofun⟩

/-- Before the stop the invariant holds wherever the records fit. -/
private theorem draining_of_fits {s : State}
    (h : (system cfg type).ReachableBy (Fits cfg type) s) (hstop : s.stop = false) :
    Draining type s := by
  have hinv := h.invariant (I := fun s => Phase s ∧ Conserves s) ?_ ?_
  · obtain ⟨hphase, hcons⟩ := hinv
    have hbefore := (hphase.unflushed hstop).2
    refine ⟨hphase, hcons, ?_, fun _ => hbefore, ?_⟩
    · simp only [hbefore, List.prefix_rfl]
    · intro h
      rw [hstop] at h
      exact nomatch h
  · intro s hs
    obtain ⟨b, n, hb, rfl⟩ := hs
    exact ⟨start_phase hb n, start_conserves hb n⟩
  · intro s a s' hs hfit hstep
    have hstep : step cfg type s a = some s' := hstep
    exact ⟨step_phase hs.1 hstep, step_conserves hs.1 hs.2 hfit hstep⟩

/-- A worker that has not entered its loop when `stop_` is set leaves at once. -/
private theorem exists_not_drained {s s' : State} (hs : Draining type s)
    (hstep : step cfg type s .stopSet = some s') (hw : s.worker = .loopHead)
    (hbytes : bytesOf s.accepted ≠ []) :
    ∃ t, (system cfg type).run s' [.worker 0] = some t ∧ ¬Drained t := by
  obtain ⟨hcall, hs'⟩ := Option.ite_none_right_eq_some.mp hstep
  have hstop : s.stop = false := hs.phase.stop_called.mpr hcall
  obtain ⟨hflushed, hbefore⟩ := hs.phase.unflushed hstop
  cases hs'
  refine ⟨{ s with stop := true, stopCaller := .notify, worker := .exited }, ?_, ?_⟩
  · simp [Transition.run, system, step, workerStep, hw]
  · intro hdrained
    have hpre : bytesOf s.acceptedBeforeStop <+: s.flushed := (hdrained rfl).1
    rw [hflushed, hbefore] at hpre
    exact hbytes (List.prefix_nil.mp hpre)

/-- Along runs whose records fit, stopping a worker that has entered its loop drains it;
    in `ASYNC_SAFE` mode the flushed bytes are then those accepted before the stop. When
    `stop_` is set, what follows drains the worker in every schedule exactly when it has
    entered its loop or nothing was accepted. -/
theorem drained_iff (cfg : LogConfig) (type : AsyncType) :
    (∀ s, (system cfg type).ReachableBy (fun s a => Fits cfg type s a ∧ StopsRunning s a) s →
      Drained s ∧ (type = .asyncSafe → s.worker = .exited →
        s.flushed = bytesOf s.acceptedBeforeStop)) ∧
    (∀ s s', (system cfg type).ReachableBy (Fits cfg type) s →
      step cfg type s .stopSet = some s' →
      ((∀ as t, (system cfg type).AllSteps (Fits cfg type) s' as →
        (system cfg type).run s' as = some t → Drained t) ↔
        s.worker ≠ .loopHead ∨ bytesOf s.accepted = [])) := by
  constructor
  · intro s h
    have hs : Draining type s := by
      apply h.invariant
      · intro s hs
        obtain ⟨b, n, hb, rfl⟩ := hs
        exact start_draining hb n
      · intro s a s' hs hC hstep
        have hstep : step cfg type s a = some s' := hstep
        exact step_draining hs hC.1 hC.2 hstep
    refine ⟨hs.drained, ?_⟩
    rintro rfl
    exact hs.flushed_eq
  · intro s s' hreach hstep
    have hcall := (Option.ite_none_right_eq_some.mp hstep).1
    have hstop : s.stop = false :=
      (reachable_phase hreach.reachable).stop_called.mpr hcall
    have hs := draining_of_fits hreach hstop
    constructor
    · intro hall
      apply Classical.byContradiction
      intro hnot
      obtain ⟨hw, hbytes⟩ := not_or.mp hnot
      obtain ⟨t, hrun, ht⟩ := exists_not_drained hs hstep (Classical.not_not.mp hw) hbytes
      exact ht (hall [.worker 0] t ⟨fun _ _ _ hsec => (nomatch hsec), fun _ _ => trivial⟩ hrun)
    · intro hC as t hfit hrun
      -- after the stop there is no second one, so every later step meets the condition
      have hs' : Draining type s' :=
        step_draining (a := .stopSet) hs (fun _ _ _ hsec => nomatch hsec) (fun _ => hC) hstep
      have hstop' : s'.stop = true := by
        cases (Option.ite_none_right_eq_some.mp hstep).2
        rfl
      have hinv := Transition.run_invariant (T := system cfg type) (C := Fits cfg type)
        (I := fun t => Draining type t ∧ t.stop = true) ?_ ⟨hs', hstop'⟩ hfit hrun
      · exact hinv.1.drained
      · rintro t a t' ⟨ht, hstopped⟩ hfit hstep
        have hstep : step cfg type t a = some t' := hstep
        have hne : a ≠ .stopSet := by
          rintro rfl
          have hcall := (Option.ite_none_right_eq_some.mp hstep).1
          rw [ht.phase.stop_called.mpr hcall] at hstopped
          exact nomatch hstopped
        exact ⟨step_draining ht hfit (fun h => absurd h hne) hstep, step_stop hstopped hstep⟩

theorem drained_small :
    ¬∀ (cfg : LogConfig) (type : AsyncType) (s : State),
      (system cfg type).Reachable s → Drained s := by
  intro h
  have hinit : (system smallConfig .asyncSafe).init (start ⟨[0, 0, 0, 0], 0, 0⟩ 1) :=
    ⟨_, 1, rfl, rfl⟩
  obtain ⟨s, hs, hw, hbytes, hflushed⟩ := Transition.exists_reachable_of_run
    (P := fun s => s.worker = .exited ∧ bytesOf s.acceptedBeforeStop = [65] ∧ s.flushed = [])
    hinit
    (show ((system smallConfig .asyncSafe).run _
      [.push 0 [65], .notifyConsumer 0, .stopSet, .worker 0]).any _ = true by decide)
  have hpre := (h smallConfig .asyncSafe s hs hw).1
  rw [hbytes, hflushed] at hpre
  exact nomatch List.prefix_nil.mp hpre

end Mylog.AsyncWorker
