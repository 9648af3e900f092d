import AsyncLogStorage.Spec.AsyncWorkerInvariant

/-!
# One growth step of a log buffer

`ToBeEnough(len)` grows a buffer once, by an amount that depends on its size and not
on `len`, and it grows as soon as `len` is the whole of the free space. So a record
that is longer than the free space and one growth step together is copied past the
end of the vector, and a record that fits exactly makes the buffer of an `ASYNC_SAFE`
worker grow, which waits for room instead.

## Key results

- `push_appends_iff`: `Push` appends its data exactly when one growth step makes room for it
- `fixedSize_iff`: the buffers of an `ASYNC_SAFE` worker keep the configured size exactly
  when no record that fills one of them makes it grow
-/

namespace Mylog

namespace Buffer

variable {cfg : LogConfig}

/-! ## Appending -/

/-- `ToBeEnough` leaves room for the data, and `Push` writes it inside the vector, keeps
    the positions in order and adds it to the end of what can be read. -/
def Appends (cfg : LogConfig) (b : Buffer) (data : Bytes) : Prop :=
  ∃ g b', b.toBeEnough cfg data.length = some g ∧ data.length ≤ g.writeableSize ∧
    b.writePos + data.length ≤ g.buffer.length ∧
    b.push cfg data = some b' ∧ b'.Wf ∧ b'.readable = b.readable ++ data

/-- There is more room than `len`, or one growth step stays below `max_size()` and makes
    room for `len`. -/
def OneStepSuffices (cfg : LogConfig) (b : Buffer) (len : Nat) : Prop :=
  len < b.buffer.length - b.writePos ∨
    (b.buffer.length + b.growth cfg ≤ vectorMaxSize ∧
      len ≤ b.buffer.length - b.writePos + b.growth cfg)

/-- A growth step that does not throw and leaves room for the record has not wrapped. -/
theorem oneStepSuffices_of_room {b g : Buffer} {len : Nat} (hwf : b.Wf)
    (hg : b.toBeEnough cfg len = some g) (hroom : b.writePos + len ≤ g.buffer.length) :
    OneStepSuffices cfg b len := by
  have hwrite := hwf.write_le
  have hsize := hwf.writeableSize_eq
  obtain ⟨hlt, -⟩ | ⟨hle, hmax, rfl⟩ := toBeEnough_cases hg
  · left
    omega
  · right
    rw [List.length_resize] at hroom
    obtain ⟨-, hgrown⟩ | ⟨hwrap, hgrown⟩ := grownSize_cases cfg hwf.size_lt
    · omega
    · -- a wrapped sum is smaller than the vector was, which the record fills at least
      have hlt := hwf.size_lt
      have hgrowth : b.growth cfg < SizeT.modulus := growth_lt hlt
      omega

/-- Where one step suffices `ToBeEnough` does not throw and leaves room for the record. -/
theorem toBeEnough_of_oneStepSuffices {b : Buffer} {len : Nat} (hwf : b.Wf)
    (h : OneStepSuffices cfg b len) :
    ∃ g, b.toBeEnough cfg len = some g ∧ b.writePos + len ≤ g.buffer.length := by
  have hwrite := hwf.write_le
  have hsize := hwf.writeableSize_eq
  by_cases hlen : b.writeableSize ≤ len
  · -- the growth step
    obtain ⟨hmax, hroom⟩ : b.buffer.length + b.growth cfg ≤ vectorMaxSize ∧
        len ≤ b.buffer.length - b.writePos + b.growth cfg := h.resolve_left (by omega)
    have hgrown : b.grownSize cfg = b.buffer.length + b.growth cfg := by
      rw [grownSize_eq, SizeT.add_eq (Nat.lt_of_le_of_lt hmax (by decide))]
    refine ⟨{ b with buffer := b.buffer.resize (b.grownSize cfg) 0 }, ?_, ?_⟩
    · simp only [toBeEnough, Mylog.resize, hlen, hgrown, hmax, ↓reduceIte, Option.map_some]
    · rw [List.length_resize]
      omega
  · refine ⟨b, if_neg hlen, ?_⟩
    omega

/-- `Push` appends its data exactly when there is more room than that, or one growth step
    makes room for it. -/
theorem push_appends_iff (cfg : LogConfig) {b : Buffer} (hwf : b.Wf) (data : Bytes) :
    Appends cfg b data ↔ OneStepSuffices cfg b data.length := by
  constructor
  · rintro ⟨g, b', hg, -, hroom, -⟩
    exact oneStepSuffices_of_room hwf hg hroom
  · intro h
    obtain ⟨g, hg, hroom⟩ := toBeEnough_of_oneStepSuffices hwf h
    obtain ⟨hgwf, -, hpos, -⟩ := toBeEnough_wf hwf hg (by omega)
    obtain ⟨b', hb'⟩ : ∃ b', b.push cfg data = some b' := by
      simp only [push, hg, Option.map_some, Option.some.injEq, exists_eq']
    obtain ⟨hwf', hread⟩ := push_spec hwf hg hroom hb'
    refine ⟨g, b', hg, ?_, hroom, hb', hwf', hread⟩
    rw [hgwf.writeableSize_eq]
    omega

/-- Eight bytes in an empty buffer of four that doubles. -/
theorem push_appends_grown :
    Appends ⟨4, 8, 4⟩ ⟨[0, 0, 0, 0], 0, 0⟩ [1, 2, 3, 4, 5, 6, 7, 8] :=
  (push_appends_iff ⟨4, 8, 4⟩ ⟨by decide, by decide, by decide⟩ _).mpr (.inr (by decide))

/-- Nine bytes in an empty buffer of four, which grows to eight only. -/
theorem push_overflows :
    ¬∀ (cfg : LogConfig) (b : Buffer) (data : Bytes), b.Wf → Appends cfg b data := by
  intro h
  have hwf : Wf ⟨[0, 0, 0, 0], 0, 0⟩ := ⟨by decide, by decide, by decide⟩
  obtain ⟨g, b', hg, hroom, -⟩ := h ⟨4, 8, 4⟩ _ [1, 2, 3, 4, 5, 6, 7, 8, 9] hwf
  have hgrown : g = ⟨[0, 0, 0, 0, 0, 0, 0, 0], 0, 0⟩ := Option.some.inj (hg.symm.trans (by decide))
  rw [hgrown] at hroom
  exact absurd hroom (by decide)

end Buffer

namespace AsyncWorker

variable {cfg : LogConfig}

/-! ## Buffers of a fixed size -/

/-- Both buffers have the capacity that the configuration gives them. -/
def FixedSize (cfg : LogConfig) (s : State) : Prop :=
  s.productor.buffer.length = cfg.bufferSize.toNat ∧
    s.consumer.buffer.length = cfg.bufferSize.toNat

/-- What `ToBeEnough` adds to a buffer of the configured size. -/
def configuredGrowth (cfg : LogConfig) : Nat :=
  if cfg.bufferSize.toNat < cfg.threshold.toNat then cfg.bufferSize.toNat
  else cfg.linearGrowth.toNat

/-- A growth step from the configured size adds nothing, or throws. -/
def NeverGrows (cfg : LogConfig) : Prop :=
  configuredGrowth cfg = 0 ∨
    (vectorMaxSize < cfg.bufferSize.toNat + configuredGrowth cfg ∧
      cfg.bufferSize.toNat + configuredGrowth cfg < SizeT.modulus)

/-- No record that is written before the stop is exactly as long as the free space, unless
    the growth step that it causes adds nothing or throws. -/
def LeavesRoom (cfg : LogConfig) (s : State) (a : Action) : Prop :=
  ∀ i data, sectionOf s a = some (i, data) → s.stop = false →
    data.length = s.productor.writeableSize → NeverGrows cfg

/-- An action without a section under the mutex writes no record. -/
private theorem leavesRoom_of_no_section {s : State} {a : Action} (h : sectionOf s a = none) :
    LeavesRoom cfg s a := by
  intro i data hsec
  rw [h] at hsec
  cases hsec

/-- The two ways in which a growth step from the configured size leaves that size. -/
private theorem neverGrows_iff {b : Buffer} (hb : b.buffer.length = cfg.bufferSize.toNat)
    (hsize : b.buffer.length ≤ vectorMaxSize) :
    NeverGrows cfg ↔ vectorMaxSize < b.grownSize cfg ∨ b.grownSize cfg = b.buffer.length := by
  have hgrowth : b.growth cfg = configuredGrowth cfg := by
    simp only [Buffer.growth, configuredGrowth, hb]
  have hlt : b.buffer.length < SizeT.modulus := Nat.lt_of_le_of_lt hsize (by decide)
  have hgrowthLt : b.growth cfg < SizeT.modulus := Buffer.growth_lt hlt
  unfold NeverGrows
  rw [← hb, ← hgrowth]
  obtain ⟨hsum, hgrown⟩ | ⟨hwrap, hgrown⟩ := Buffer.grownSize_cases cfg hlt
  · omega
  · omega

/-- A step of the worker keeps the sizes, as the swap exchanges two buffers of one size. -/
private theorem workerStep_fixedSize {s s' : State} {sel : Nat} (hP : FixedSize cfg s)
    (h : workerStep .asyncSafe s sel = some s') : FixedSize cfg s' := by
  obtain ⟨-, rfl⟩ | ⟨-, h⟩ | ⟨-, rfl⟩ | ⟨-, rfl⟩ | ⟨-, rfl⟩ | ⟨-, rfl⟩ := workerStep_cases h
  · exact hP
  · obtain ⟨-, ps, -, -, rfl⟩ | ⟨-, -, rfl⟩ := waitSection_cases h
    · exact ⟨hP.2, hP.1⟩
    · exact hP
  all_goals exact hP

/-- A write keeps the size exactly when it does not make the buffer grow. -/
private theorem write_fixedSize_iff {s : State} {data : Bytes} {b : Buffer}
    (hs : Phase s) (hP : FixedSize cfg s) (hroom : data.length ≤ s.productor.writeableSize)
    (hpush : s.productor.push cfg data = some b) :
    b.buffer.length = cfg.bufferSize.toNat ↔
      (data.length = s.productor.writeableSize → NeverGrows cfg) := by
  obtain ⟨g, hg, rfl⟩ := Buffer.push_eq_some.mp hpush
  have hiff := neverGrows_iff hP.1 hs.productor_size
  have hsize := hP.1
  rw [List.length_overwrite]
  obtain ⟨hlt, rfl⟩ | ⟨hle, hmax, rfl⟩ := Buffer.toBeEnough_cases hg
  · -- there is room left, so nothing grew
    constructor
    · intro _ hlen
      omega
    · intro _
      exact hsize
  · rw [List.length_resize, hiff]
    constructor
    · intro hgrown _
      right
      omega
    · intro h
      have hgrown := (h (by omega)).resolve_left (by omega)
      omega

private theorem step_fixedSize_iff {s s' : State} {a : Action} (hs : Phase s)
    (hP : FixedSize cfg s) (h : step cfg .asyncSafe s a = some s') :
    FixedSize cfg s' ↔ LeavesRoom cfg s a := by
  obtain ⟨i, data, hsec, hout⟩ | ⟨i, rfl, -, rfl⟩ | ⟨sel, rfl, h⟩ | ⟨rfl, -, rfl⟩ | ⟨rfl, -, rfl⟩ |
    ⟨rfl, -, -, rfl⟩ := step_cases h
  · -- the only section that the action runs
    have hroom : LeavesRoom cfg s a ↔ (s.stop = false →
        data.length = s.productor.writeableSize → NeverGrows cfg) := by
      simp only [LeavesRoom, hsec, Option.some.injEq, Prod.mk.injEq, and_imp]
      constructor
      · intro h
        exact h i data rfl rfl
      · rintro h _ _ rfl rfl
        exact h
    rw [hroom]
    cases hout with
    | leave hleave =>
      have hfixed : FixedSize cfg { s with producers := s.producers.set i .idle } := hP
      simp only [hfixed, true_iff]
      intro hstop hlen
      rcases hleave with hleave | hthrow
      · rw [hstop] at hleave
        cases hleave
      · -- the growth step asked for more than `max_size()`
        exact (neverGrows_iff hP.1 hs.productor_size).mpr (.inl (Buffer.push_eq_none.mp hthrow).2)
    | block _ _ hfull =>
      have hfixed : FixedSize cfg { s with producers := s.producers.set i (.asleep data) } := hP
      simp only [hfixed, true_iff]
      intro _ hlen
      omega
    | write b hpush hsafe =>
      obtain ⟨hstop, hle⟩ := hsafe rfl
      have hiff := write_fixedSize_iff hs hP hle hpush
      simp only [FixedSize, hP.2, and_true, hiff, hstop, true_implies]
  · exact ⟨fun _ => leavesRoom_of_no_section rfl, fun _ => hP⟩
  · exact ⟨fun _ => leavesRoom_of_no_section rfl, fun _ => workerStep_fixedSize hP h⟩
  · exact ⟨fun _ => leavesRoom_of_no_section rfl, fun _ => hP⟩
  · exact ⟨fun _ => leavesRoom_of_no_section rfl, fun _ => hP⟩
  · exact ⟨fun _ => leavesRoom_of_no_section rfl, fun _ => hP⟩

/-- The buffers of an `ASYNC_SAFE` worker keep the configured size in all states of a run
    exactly when no record that fills the producer buffer makes it grow. -/
theorem fixedSize_iff (cfg : LogConfig) {s₀ : State} (as : List Action)
    (h : (system cfg .asyncSafe).init s₀) :
    (system cfg .asyncSafe).Always (FixedSize cfg) s₀ as ↔
      (system cfg .asyncSafe).AllSteps (LeavesRoom cfg) s₀ as := by
  have hP : FixedSize cfg s₀ := by
    obtain ⟨b, n, hb, rfl⟩ := h
    obtain ⟨-, -, -, hlen⟩ := Buffer.new_wf hb
    exact ⟨hlen, hlen⟩
  apply always_iff_allSteps_of_phase _ step_fixedSize_iff h hP
  -- a call in its section can go on
  intro s a hstep i data hsec
  rw [step_of_section hsec] at hstep
  cases hstep

/-- Three bytes leave one free, so the buffer keeps its four. -/
theorem fixedSize_short :
    (system smallConfig .asyncSafe).Always (FixedSize smallConfig) (start ⟨[0, 0, 0, 0], 0, 0⟩ 1)
      [.push 0 [65, 66, 67]] := by
  apply (fixedSize_iff smallConfig _ ⟨_, 1, rfl, rfl⟩).mpr
  refine ⟨?_, fun _ _ => trivial⟩
  intro i data hsec _ hlen
  cases hsec
  exact absurd hlen (by decide)

/-- Four bytes fit into the empty buffer of four, which grows to eight nevertheless. -/
theorem fixedSize_grown :
    ¬∀ (cfg : LogConfig) (s : State), (system cfg .asyncSafe).Reachable s → FixedSize cfg s := by
  intro h
  have hinit : (system smallConfig .asyncSafe).init (start ⟨[0, 0, 0, 0], 0, 0⟩ 1) :=
    ⟨_, 1, rfl, rfl⟩
  obtain ⟨s, hs, hlen⟩ := Transition.exists_reachable_of_run
    (P := fun s => s.productor.buffer.length = 8) hinit
    (show ((system smallConfig .asyncSafe).run _ [.push 0 [65, 66, 67, 68]]).any _ = true by decide)
  have hfixed := (h smallConfig s hs).1
  rw [hlen] at hfixed
  exact absurd hfixed (by decide)

end AsyncWorker

end Mylog
