import AsyncLogStorage.Spec.AsyncWorkerInvariant

/-!
# Wake-ups of the log worker and its producers

The worker waits for `!buffer_consumer_.IsEmpty() || stop_`, but `Push` fills
`buffer_productor_`, and the consumer buffer is empty whenever the predicate is
evaluated. So a notification that says "there is data" puts the worker back to
sleep. Producers that wait for room are woken by nobody: `Stop` does not signal
`cond_productor_`, and the swap signals it in `ASYNC_UNSAFE` mode only, in which
no producer ever waits.

## Key results

- `worker_asleep_on_data_iff`: the worker can fall asleep on data exactly when there is some
- `producers_awake_iff`: no producer is left asleep along a run exactly when no step of it
  makes room or stops while one sleeps
-/

namespace Mylog.AsyncWorker

variable {cfg : LogConfig} {type : AsyncType}

/-! ## The worker -/

/-- A notification on `cond_consumer_` is still to be sent. -/
def NotifyPending (s : State) : Prop :=
  .notify ∈ s.producers ∨ s.stopCaller = .notify

instance {s : State} : Decidable (NotifyPending s) :=
  inferInstanceAs (Decidable (_ ∨ _))

/-- The worker sleeps although there is data, nobody has stopped it, and nobody is
    about to wake it. -/
def SleepsOnData (s : State) : Prop :=
  s.stop = false ∧ s.worker = .asleep ∧ ¬NotifyPending s ∧ s.productor.isEmpty = false

instance {s : State} : Decidable (SleepsOnData s) :=
  inferInstanceAs (Decidable (_ ∧ _))

/-- The step writes no bytes, unless the worker has been stopped: a record whose
    section runs is empty or finds no room and blocks. -/
def WritesOnlyAfterStop (type : AsyncType) (s : State) (a : Action) : Prop :=
  ∀ i data, sectionOf s a = some (i, data) →
    s.stop = true ∨ data = [] ∨ (type = .asyncSafe ∧ s.productor.writeableSize < data.length)

/-- Steps that only move the worker and deliver notifications. -/
def Action.quiet : Action → Prop
  | .notifyConsumer _ => True
  | .worker _ => True
  | _ => False

/-- An empty record leaves both positions at the start of the buffer. -/
private theorem push_nil_pos {b b' : Buffer} (hw : b.writePos = 0) (hr : b.readPos = 0)
    (h : b.push cfg [] = some b') : b'.writePos = 0 ∧ b'.readPos = 0 := by
  obtain ⟨g, hg, rfl⟩ := Buffer.push_eq_some.mp h
  have hpos : g.writePos = 0 ∧ g.readPos = 0 := by
    obtain ⟨-, rfl⟩ | ⟨-, -, rfl⟩ := Buffer.toBeEnough_cases hg
    · exact ⟨hw, hr⟩
    · exact ⟨hw, hr⟩
  exact ⟨by simp [hpos.1, SizeT.add], hpos.2⟩

/-- Before the stop the producer buffer is untouched. -/
private structure Untouched (s : State) : Prop where
  phase : Phase s
  pos : s.stop = false → s.productor.writePos = 0 ∧ s.productor.readPos = 0

private theorem step_untouched {s s' : State} {a : Action} (hs : Untouched s)
    (hC : WritesOnlyAfterStop type s a) (h : step cfg type s a = some s') : Untouched s' := by
  refine ⟨step_phase hs.phase h, ?_⟩
  obtain ⟨i, data, hsec, hout⟩ | ⟨i, -, -, rfl⟩ | ⟨sel, -, h⟩ | ⟨-, -, rfl⟩ | ⟨-, -, rfl⟩ |
    ⟨-, -, -, rfl⟩ := step_cases h
  · cases hout with
    | leave => exact hs.pos
    | block => exact hs.pos
    | write b hpush hsafe =>
      intro hstop
      have hstop : s.stop = false := hstop
      obtain ⟨hw, hr⟩ := hs.pos hstop
      -- the record is empty: it comes before the stop, and it found room
      obtain hc | hc | ⟨htype, hfull⟩ := hC i data hsec
      · rw [hstop] at hc; exact nomatch hc
      · subst hc; exact push_nil_pos hw hr hpush
      · have := (hsafe htype).2; omega
  · exact hs.pos
  · -- before the stop the worker does not swap
    intro hstop
    rw [(workerStep_frame h).1] at hstop
    rw [workerStep_productor hs.phase hstop h]
    exact hs.pos hstop
  · exact nofun
  · exact hs.pos
  · exact hs.pos

/-- In a run that writes nothing before the stop the worker sleeps on no data. -/
private theorem not_sleepsOnData_of_untouched {s : State} (hs : Untouched s) :
    ¬SleepsOnData s := by
  rintro ⟨hstop, -, -, hdata⟩
  obtain ⟨hw, hr⟩ := hs.pos hstop
  simp [Buffer.isEmpty, hw, hr] at hdata

private theorem start_untouched {s : State} (h : (system cfg type).init s) : Untouched s := by
  obtain ⟨b, n, hb, rfl⟩ := h
  obtain ⟨-, hr, hw, -⟩ := Buffer.new_wf hb
  exact ⟨start_phase hb n, fun _ => ⟨hw, hr⟩⟩

/-- All pending notifications of producers can be delivered one after the other. -/
private theorem exists_run_notify (cfg : LogConfig) (type : AsyncType) (s : State) :
    ∃ bs s', (∀ b ∈ bs, b.quiet) ∧ (system cfg type).run s bs = some s' ∧
      .notify ∉ s'.producers ∧ s'.productor = s.productor ∧ s'.consumer = s.consumer ∧
      s'.stop = s.stop ∧ s'.stopCaller = s.stopCaller ∧
      s'.worker.beforeSwap = s.worker.beforeSwap := by
  -- induction on the number of producers that stand at `notify`
  generalize hn : s.producers.count .notify = n
  induction n generalizing s with
  | zero =>
    exact ⟨[], s, by simp, rfl, List.count_eq_zero.mp hn, rfl, rfl, rfl, rfl, rfl⟩
  | succ n ih =>
    have hmem : ProducerPc.notify ∈ s.producers := List.count_pos_iff.mp (by omega)
    obtain ⟨i, hi, hget⟩ := List.mem_iff_getElem.mp hmem
    let s₁ : State := { s with producers := s.producers.set i .idle, worker := s.worker.notified }
    have hcount : s₁.producers.count .notify = n := by
      show (s.producers.set i .idle).count .notify = n
      rw [List.count_set hi, hget]
      simp only [beq_self_eq_true, ↓reduceIte, hn]
      simp
    have hstep : (system cfg type).step s (.notifyConsumer i) = some s₁ := by
      show step cfg type s (.notifyConsumer i) = some s₁
      have hi' : s.producers[i]? = some .notify := by rw [List.getElem?_eq_getElem hi, hget]
      simp only [step, hi', ↓reduceIte, s₁]
    obtain ⟨bs, s', hquiet, hrun, hnone, hp, hc, hstop, hcall, hpc⟩ := ih s₁ hcount
    refine ⟨.notifyConsumer i :: bs, s', ?_, ?_, hnone, hp, hc, hstop, hcall, ?_⟩
    · intro b hb
      rcases List.mem_cons.mp hb with rfl | hb
      · trivial
      · exact hquiet b hb
    · exact (Transition.run_cons_eq_some _).mpr ⟨s₁, hstep, hrun⟩
    · rw [hpc]
      exact WorkerPc.beforeSwap_notified s.worker

/-- Before the stop the worker runs into its wait and stays there. -/
private theorem exists_run_asleep (cfg : LogConfig) (type : AsyncType) {s : State}
    (hpc : s.worker.beforeSwap = true)
    (hstop : s.stop = false) (hempty : s.consumer.isEmpty = true) :
    ∃ bs, (∀ b ∈ bs, b.quiet) ∧
      (system cfg type).run s bs = some { s with worker := .asleep } := by
  have hquiet : ∀ n, ∀ b ∈ List.replicate n (Action.worker 0), b.quiet := by
    intro n b hb
    rw [List.eq_of_mem_replicate hb]
    trivial
  have hwait : ∀ t : State, t.worker = .locking ∨ t.worker = .woken → t.stop = false →
      t.consumer.isEmpty = true →
      (system cfg type).step t (.worker 0) = some { t with worker := .asleep } := by
    intro t hw ht hc
    show workerStep type t 0 = _
    rcases hw with hw | hw <;>
      simp only [workerStep, hw, waitSection, hc, ht, Bool.not_true, Bool.or_self,
        Bool.false_eq_true, ↓reduceIte]
  cases hw : s.worker with
  | loopHead =>
    have hhead : (system cfg type).step s (.worker 0) = some { s with worker := .locking } := by
      show workerStep type s 0 = _
      simp only [workerStep, hw, hstop, Bool.false_eq_true, ↓reduceIte]
    refine ⟨List.replicate 2 (.worker 0), hquiet 2, ?_⟩
    exact (Transition.run_cons_eq_some _).mpr ⟨_, hhead,
      (Transition.run_cons_eq_some _).mpr ⟨_, hwait _ (.inl rfl) hstop hempty, rfl⟩⟩
  | locking =>
    refine ⟨List.replicate 1 (.worker 0), hquiet 1, ?_⟩
    exact (Transition.run_cons_eq_some _).mpr ⟨_, hwait s (.inl hw) hstop hempty, rfl⟩
  | woken =>
    refine ⟨List.replicate 1 (.worker 0), hquiet 1, ?_⟩
    exact (Transition.run_cons_eq_some _).mpr ⟨_, hwait s (.inr hw) hstop hempty, rfl⟩
  | asleep =>
    refine ⟨[], by simp, ?_⟩
    rw [Transition.run_nil, ← hw]
  | callback | reset | checkStop | checkEmpty | exited => simp [hw, WorkerPc.beforeSwap] at hpc

/-- Before the stop no quiet step touches the producer buffer. -/
private theorem quiet_productor {s s' : State} {bs : List Action} (hs : Phase s)
    (hstop : s.stop = false) (hquiet : ∀ b ∈ bs, b.quiet)
    (hrun : (system cfg type).run s bs = some s') : s'.productor = s.productor := by
  have hinv := Transition.run_invariant (T := system cfg type) (C := fun _ b => b.quiet)
    (I := fun t => Phase t ∧ t.stop = false ∧ t.productor = s.productor) ?_
    ⟨hs, hstop, rfl⟩ (Transition.allSteps_of_forall hquiet s) hrun
  · exact hinv.2.2
  · rintro t b t' ⟨ht, htstop, htp⟩ hb hstep
    have hstep : step cfg type t b = some t' := hstep
    have ht' := step_phase ht hstep
    obtain ⟨i, data, hsec, -⟩ | ⟨i, -, -, rfl⟩ | ⟨sel, -, h⟩ | ⟨rfl, -, -⟩ | ⟨rfl, -, -⟩ |
      ⟨rfl, -, -, -⟩ := step_cases hstep
    · -- neither is a section of `Push`
      cases b <;> simp [Action.quiet, sectionOf] at hb hsec
    · exact ⟨ht', htstop, htp⟩
    · have hstop' := (workerStep_frame h).1
      have hproductor := workerStep_productor ht htstop h
      exact ⟨ht', hstop'.trans htstop, hproductor.trans htp⟩
    -- the steps of `Stop` are not quiet
    all_goals cases hb

/-- Before the stop the worker can be put to sleep on whatever the producer buffer holds. -/
private theorem exists_run_sleepsOnData {s : State} (hreach : (system cfg type).Reachable s)
    (hstop : s.stop = false) (hdata : s.productor.isEmpty = false) :
    ∃ bs s', (∀ b ∈ bs, b.quiet) ∧ (system cfg type).run s bs = some s' ∧ SleepsOnData s' := by
  -- deliver the notifications, then let the worker run into its wait
  obtain ⟨bs, s₁, hbs, hrun₁, hnone, hp, -, hst, -, hpc⟩ := exists_run_notify cfg type s
  have hphase : Phase s₁ := reachable_phase (hreach.run hrun₁)
  have hpc₁ : s₁.worker.beforeSwap = true := by
    rw [hpc]
    exact (reachable_phase hreach).before_swap hstop
  have hstop₁ : s₁.stop = false := by rw [hst, hstop]
  have hempty : s₁.consumer.isEmpty = true := by
    apply hphase.consumer_empty
    · intro hw; simp [hw, WorkerPc.beforeSwap] at hpc₁
    · intro hw; simp [hw, WorkerPc.beforeSwap] at hpc₁
  obtain ⟨cs, hcs, hrun₂⟩ := exists_run_asleep cfg type hpc₁ hstop₁ hempty
  refine ⟨bs ++ cs, { s₁ with worker := .asleep }, ?_, ?_, hstop₁, rfl, ?_, ?_⟩
  · intro b hb
    rcases List.mem_append.mp hb with hb | hb
    · exact hbs b hb
    · exact hcs b hb
  · rw [Transition.run_append, hrun₁, Option.bind_some, hrun₂]
  · intro hpending
    rcases hpending with hmem | hcall
    · exact hnone hmem
    · have hcall : s₁.stopCaller = .notify := hcall
      rw [hphase.stop_called.mp hstop₁] at hcall
      cases hcall
  · show s₁.productor.isEmpty = false
    rw [hp, hdata]

/-- `ThreadEntry` never sleeps on data along runs that write nothing before the stop.
    Every other run can go on to where it does: from any reachable state in which the worker
    has not been stopped and the producer buffer holds something, delivering the pending
    notifications and letting the worker run puts it to sleep on that data. -/
theorem worker_asleep_on_data_iff (cfg : LogConfig) (type : AsyncType) :
    (∀ s, (system cfg type).ReachableBy (WritesOnlyAfterStop type) s → ¬SleepsOnData s) ∧
    (∀ s, (system cfg type).Reachable s → s.stop = false →
      ((∀ bs s', (∀ b ∈ bs, b.quiet) → (system cfg type).run s bs = some s' →
        ¬SleepsOnData s') ↔ s.productor.isEmpty = true)) := by
  constructor
  · intro s hs
    apply not_sleepsOnData_of_untouched
    exact hs.invariant (fun s h => start_untouched h) fun s a s' hs hC hstep =>
      step_untouched hs hC hstep
  · intro s hreach hstop
    constructor
    · intro hnever
      cases hdata : s.productor.isEmpty with
      | true => rfl
      | false =>
        obtain ⟨bs, s', hquiet, hrun, hsleep⟩ := exists_run_sleepsOnData hreach hstop hdata
        exact absurd hsleep (hnever bs s' hquiet hrun)
    · intro hempty bs s' hquiet hrun hsleep
      have hp := quiet_productor (reachable_phase hreach) hstop hquiet hrun
      have hdata := hsleep.2.2.2
      rw [hp, hempty] at hdata
      exact nomatch hdata

/-- The worker goes to sleep, a producer writes one byte and notifies it, and it goes
    back to sleep. -/
def sleepSchedule : List Action :=
  [.worker 0, .worker 0, .push 0 [65], .notifyConsumer 0, .worker 0]

theorem worker_asleep_on_data_small :
    ¬∀ (cfg : LogConfig) (type : AsyncType) (s : State),
      (system cfg type).Reachable s → ¬SleepsOnData s := by
  intro h
  have hinit : (system smallConfig .asyncSafe).init (start ⟨[0, 0, 0, 0], 0, 0⟩ 1) :=
    ⟨_, 1, rfl, rfl⟩
  obtain ⟨s, hs, hsleep⟩ := Transition.exists_reachable_of_run (P := SleepsOnData) hinit
    (show ((system smallConfig .asyncSafe).run _ sleepSchedule).any _ = true by decide)
  exact h smallConfig .asyncSafe s hs hsleep

/-! ## The producers

`cond_productor_` is signalled by the swap only, within its step, so a
notification on it is never pending: a producer that is asleep after a step is
asleep for good unless a later step signals. -/

/-- A producer sleeps in `cond_productor_.wait` although its predicate holds. -/
def ProducerPc.mayProceed (s : State) : ProducerPc → Prop
  | .asleep data => data.length ≤ s.productor.writeableSize ∨ s.stop = true
  | _ => False

instance {s : State} {p : ProducerPc} : Decidable (p.mayProceed s) :=
  match p with
  | .asleep _ => inferInstanceAs (Decidable (_ ∨ _))
  | .idle | .woken _ | .notify => isFalse id

/-- Some producer is left asleep once it may proceed. -/
def LeftAsleep (s : State) : Prop := ∃ p ∈ s.producers, p.mayProceed s

instance {s : State} : Decidable (LeftAsleep s) :=
  inferInstanceAs (Decidable (∃ p ∈ s.producers, p.mayProceed s))

theorem leftAsleep_iff {s : State} :
    LeftAsleep s ↔ ∃ data, .asleep data ∈ s.producers ∧
      (data.length ≤ s.productor.writeableSize ∨ s.stop = true) := by
  constructor
  · rintro ⟨p, hp, hmay⟩
    cases p with
    | asleep data => exact ⟨data, hp, hmay⟩
    | idle | woken | notify => exact hmay.elim
  · rintro ⟨data, hp, hmay⟩
    exact ⟨.asleep data, hp, hmay⟩

/-- The step lets no sleeping producer proceed: `Stop` is not called while one sleeps,
    and a push that fills the buffer and so grows it adds less room than any sleeper
    waits for. -/
def UnblocksNobody (cfg : LogConfig) (s : State) (a : Action) : Prop :=
  (a = .stopSet → s.stopCaller = .notCalled → ∀ data, .asleep data ∉ s.producers) ∧
  (∀ i data, sectionOf s a = some (i, data) → s.stop = false →
    data.length = s.productor.writeableSize → s.productor.grownSize cfg ≤ vectorMaxSize →
    ∀ waiting, .asleep waiting ∈ s.producers → s.productor.growth cfg < waiting.length)

/-- A producer that is not asleep may be replaced by one that is not. -/
private theorem asleep_mem_set (pc : ProducerPc) {ps : List ProducerPc} {i : Nat} {data : Bytes}
    (hpc : pc.isAsleep = false) (hi : ∀ p, ps[i]? = some p → p.isAsleep = false) :
    .asleep data ∈ ps.set i pc ↔ .asleep data ∈ ps := by
  simp only [List.mem_iff_getElem?, List.getElem?_set]
  apply exists_congr
  intro j
  by_cases hij : i = j
  · subst hij
    have hne : ps[i]? ≠ some (.asleep data) := by
      intro h
      have := hi _ h
      exact nomatch this
    simp only [↓reduceIte, hne, iff_false]
    split
    · intro h
      cases h
      exact nomatch hpc
    · exact nofun
  · rw [if_neg hij]

/-- The producer whose section runs is not asleep. -/
private theorem sectionOf_awake {s : State} {a : Action} {i : Nat} {data : Bytes}
    (h : sectionOf s a = some (i, data)) (p : ProducerPc) (hp : s.producers[i]? = some p) :
    p.isAsleep = false := by
  unfold sectionOf at h
  split at h
  · obtain ⟨⟨hidle, -⟩, heq⟩ := Option.ite_none_right_eq_some.mp h
    cases heq
    rw [hidle] at hp
    cases hp
    rfl
  · split at h
    · rename_i hwoken
      cases h
      rw [hwoken] at hp
      cases hp
      rfl
    · exact nomatch h
  · exact nomatch h

/-- A section of `Push` keeps everybody's sleep justified exactly when it meets the
    condition. -/
private theorem push_leftAsleep_iff {s s' : State} {a : Action} {i : Nat} {data : Bytes}
    (hs : Phase s) (hP : ¬LeftAsleep s) (hsec : sectionOf s a = some (i, data))
    (hout : PushOutcome cfg .asyncSafe s i data s') :
    ¬LeftAsleep s' ↔ UnblocksNobody cfg s a := by
  have hsize : s.productor.buffer.length < SizeT.modulus :=
    Nat.lt_of_le_of_lt hs.productor_size (by decide)
  have hawake := sectionOf_awake hsec
  have hstopSet : a ≠ .stopSet := by rintro rfl; exact nomatch hsec
  have hC : UnblocksNobody cfg s a ↔ (s.stop = false →
      data.length = s.productor.writeableSize → s.productor.grownSize cfg ≤ vectorMaxSize →
      ∀ waiting, .asleep waiting ∈ s.producers → s.productor.growth cfg < waiting.length) := by
    simp only [UnblocksNobody, hstopSet, hsec, false_implies, true_and, Option.some.injEq,
      Prod.mk.injEq, and_imp, forall_apply_eq_imp_iff, forall_eq']
  rw [hC]
  simp only [leftAsleep_iff, not_exists, not_and, not_or] at hP ⊢
  cases hout with
  | leave h =>
    -- nothing was written, so nobody has more room than before
    simp only [asleep_mem_set .idle rfl hawake]
    refine iff_of_true hP fun hstop hlen hmax => ?_
    rcases h with h | h
    · rw [hstop] at h; exact nomatch h
    · have := (Buffer.push_eq_none.mp h).2; omega
  | block _ hstop hfull =>
    -- the one who goes to sleep has no room, and the others are as before
    refine iff_of_true (fun waiting hmem => ?_) fun _ hlen => by omega
    rcases List.mem_or_eq_of_mem_set hmem with hmem | heq
    · exact hP waiting hmem
    · cases heq
      exact ⟨Nat.not_le.mpr hfull, by simp [hstop]⟩
  | write b hpush hsafe =>
    obtain ⟨hstop, hle⟩ := hsafe rfl
    have hroom := Buffer.push_writeableSize hsize hle hpush
    simp only [asleep_mem_set .notify rfl hawake, hstop, Bool.false_eq_true,
      not_false_eq_true, and_true, hroom, forall_const]
    by_cases hlen : data.length = s.productor.writeableSize
    · -- the buffer was filled, so it has grown
      have hmax : s.productor.grownSize cfg ≤ vectorMaxSize := by
        apply Nat.le_of_not_lt
        intro hgt
        have hnone := Buffer.push_eq_none.mpr ⟨Nat.le_of_eq hlen.symm, hgt⟩
        rw [hpush] at hnone
        exact nomatch hnone
      simp only [hlen, ↓reduceIte, hmax, forall_const, Nat.not_le]
    · -- it was not filled, so there is less room than before
      simp only [hlen, ↓reduceIte, false_implies, iff_true]
      intro waiting hmem
      have := (hP waiting hmem).1
      omega

private theorem step_leftAsleep_iff {s s' : State} {a : Action} (hs : Phase s)
    (hP : ¬LeftAsleep s) (h : step cfg .asyncSafe s a = some s') :
    ¬LeftAsleep s' ↔ UnblocksNobody cfg s a := by
  obtain ⟨i, data, hsec, hout⟩ | ⟨i, rfl, hi, rfl⟩ | ⟨sel, rfl, h⟩ | ⟨rfl, hcall, rfl⟩ |
    ⟨rfl, -, rfl⟩ | ⟨rfl, -, -, rfl⟩ := step_cases h
  · exact push_leftAsleep_iff hs hP hsec hout
  · -- the notification by a producer, which was not asleep
    have hawake : ∀ p, s.producers[i]? = some p → p.isAsleep = false := by
      intro p hp
      rw [hi] at hp
      cases hp
      rfl
    refine iff_of_true ?_ ⟨nofun, nofun⟩
    simp only [leftAsleep_iff, asleep_mem_set .idle rfl hawake] at hP ⊢
    exact hP
  · refine iff_of_true ?_ ⟨nofun, nofun⟩
    obtain ⟨-, rfl⟩ | ⟨hw, h⟩ | ⟨-, rfl⟩ | ⟨-, rfl⟩ | ⟨-, rfl⟩ | ⟨-, rfl⟩ := workerStep_cases h
    · exact hP
    · obtain ⟨hpred, ps, hps, -, rfl⟩ | ⟨-, -, rfl⟩ := waitSection_cases h
      · -- the swap comes after the stop, when nobody may sleep any more
        have hstop := hs.stop_of_swap hw hpred
        rw [leftAsleep_iff]
        rintro ⟨data, hmem, -⟩
        have hmem : .asleep data ∈ ps := hmem
        rw [hps rfl] at hmem
        exact hP (leftAsleep_iff.mpr ⟨data, hmem, .inr hstop⟩)
      · exact hP
    all_goals exact hP
  · -- the stop, after which every sleeper may proceed
    simp only [UnblocksNobody, sectionOf, reduceCtorEq, false_implies, implies_true, and_true,
      hcall, forall_const, leftAsleep_iff, or_true, and_true, not_exists]
  · exact iff_of_true hP ⟨nofun, nofun⟩
  · exact iff_of_true hP ⟨nofun, nofun⟩

/-- In `ASYNC_SAFE` mode no producer is ever left asleep along a run exactly when no
    step of the run lets a sleeping producer proceed. -/
theorem producers_awake_iff (cfg : LogConfig) {s₀ : State} (as : List Action)
    (h : (system cfg .asyncSafe).init s₀) :
    (system cfg .asyncSafe).Always (fun s => ¬LeftAsleep s) s₀ as ↔
      (system cfg .asyncSafe).AllSteps (UnblocksNobody cfg) s₀ as := by
  have hP : ¬LeftAsleep s₀ := by
    obtain ⟨b, n, -, rfl⟩ := h
    rw [leftAsleep_iff]
    rintro ⟨data, hmem, -⟩
    exact nomatch List.eq_of_mem_replicate hmem
  apply always_iff_allSteps_of_phase _ step_leftAsleep_iff h hP
  -- a stop and a call in its section can go on
  intro s a hstep
  refine ⟨?_, ?_⟩
  · rintro rfl hcall
    simp [step, hcall] at hstep
  · intro i data hsec
    rw [step_of_section hsec] at hstep
    cases hstep

/-- A record that fits and a stop that finds nobody asleep. -/
theorem producers_awake_small :
    (system smallConfig .asyncSafe).Always (fun s => ¬LeftAsleep s)
      (start ⟨[0, 0, 0, 0], 0, 0⟩ 1) [.push 0 [65], .stopSet] := by
  apply (producers_awake_iff smallConfig _ ⟨_, 1, rfl, rfl⟩).mpr
  refine ⟨⟨nofun, ?_⟩, fun s hs => ⟨⟨?_, nofun⟩, fun _ _ => trivial⟩⟩
  · intro i data hsec hstop hlen
    cases hsec
    exact absurd hlen (by decide)
  · intro _ _ data hmem
    have hall : s.producers.all (fun p => !p.isAsleep) = true := by
      cases hs
      decide
    have hawake := List.all_eq_true.mp hall _ hmem
    exact nomatch hawake

/-- One producer takes three of the four bytes, another one waits for two, and `Stop`
    sets the flag and notifies. -/
def leftAsleepSchedule : List Action :=
  [.push 0 [65, 66, 67], .push 1 [68, 69], .stopSet, .stopNotify]

theorem producers_left_asleep_small :
    ¬∀ (cfg : LogConfig) (s : State),
      (system cfg .asyncSafe).Reachable s → ¬LeftAsleep s := by
  intro h
  have hinit : (system smallConfig .asyncSafe).init (start ⟨[0, 0, 0, 0], 0, 0⟩ 2) :=
    ⟨_, 2, rfl, rfl⟩
  obtain ⟨s, hs, hleft⟩ := Transition.exists_reachable_of_run (P := LeftAsleep) hinit
    (show ((system smallConfig .asyncSafe).run _ leftAsleepSchedule).any _ = true by decide)
  exact h smallConfig s hs hleft

end Mylog.AsyncWorker
