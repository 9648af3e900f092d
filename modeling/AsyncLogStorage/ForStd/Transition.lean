/-!
# Labelled transition systems for the standard library

A labelled transition system whose steps are computed: `step s a` is the state
that action `a` leads to, or `none` where `a` is not enabled in `s`. Every
interleaving of a concurrent program is a list of actions, so a run is a fold
of `step` and a concrete schedule can be evaluated.

## Key results

- `Transition.run_append`, `Transition.allSteps_append`: a run, and its steps, in two parts
- `Transition.Reachable.invariant`: an inductive invariant holds in every reachable state
- `Transition.ReachableBy.invariant`: the same along runs all of whose steps meet a condition
- `Transition.Reachable.simulate`, `Transition.run_simulate`: what a system reaches is reached,
  up to a relation, by one that runs each of its steps
- `Transition.run_length_add_le`: a measure that every step makes smaller bounds the runs
- `Transition.end_iff_allSteps`: when a property that no step establishes is there at the end
- `Transition.always_iff_allSteps`: a property holds all along a run exactly when
  every step meets the condition under which one step keeps it
- `Transition.always_of_allSteps`, `Transition.allSteps_of_run`: the two directions apart, where
  a step that does not meet the condition does its damage only later
-/

/-- A labelled transition system with computed steps. -/
structure Transition (σ α : Type) where
  /-- The states a run may start in. -/
  init : σ → Prop
  /-- The state that an action leads to, `none` if the action is not enabled. -/
  step : σ → α → Option σ

namespace Transition

variable {σ α : Type} (T : Transition σ α)

/-- The state at the end of a schedule, `none` if some action of it is not enabled. -/
def run : σ → List α → Option σ
  | s, [] => some s
  | s, a :: as => (T.step s a).bind (run · as)

/-- Every step of the schedule is taken in a state in which it meets `C`. -/
def AllSteps (C : σ → α → Prop) : σ → List α → Prop
  | _, [] => True
  | s, a :: as => C s a ∧ ∀ s', T.step s a = some s' → AllSteps C s' as

/-- Every state that the schedule goes through satisfies `P`. -/
def Always (P : σ → Prop) : σ → List α → Prop
  | s, [] => P s
  | s, a :: as => P s ∧ ∀ s', T.step s a = some s' → Always P s' as

/-- Some schedule leads from an initial state to `s`. -/
def Reachable (s : σ) : Prop :=
  ∃ s₀ as, T.init s₀ ∧ T.run s₀ as = some s

/-- Some schedule whose steps all meet `C` leads from an initial state to `s`. -/
def ReachableBy (C : σ → α → Prop) (s : σ) : Prop :=
  ∃ s₀ as, T.init s₀ ∧ T.AllSteps C s₀ as ∧ T.run s₀ as = some s

@[simp] theorem run_nil (s : σ) : T.run s [] = some s := rfl

@[simp] theorem run_cons (s : σ) (a : α) (as : List α) :
    T.run s (a :: as) = (T.step s a).bind (T.run · as) := rfl

/-- A schedule that runs to its end splits at its first action. -/
theorem run_cons_eq_some {s s' : σ} {a : α} {as : List α} :
    T.run s (a :: as) = some s' ↔ ∃ s₁, T.step s a = some s₁ ∧ T.run s₁ as = some s' := by
  simp only [run_cons, Option.bind_eq_some_iff]

/-- Running two schedules one after the other. -/
theorem run_append (s : σ) (as bs : List α) :
    T.run s (as ++ bs) = (T.run s as).bind (T.run · bs) := by
  induction as generalizing s with
  | nil => rfl
  | cons a as ih =>
    simp only [List.cons_append, run_cons]
    cases T.step s a with
    | none => rfl
    | some s₁ => simpa only [Option.bind_some] using ih s₁

/-- The steps of two schedules, one after the other. -/
theorem allSteps_append {C : σ → α → Prop} {s : σ} {as bs : List α} :
    T.AllSteps C s (as ++ bs) ↔
      T.AllSteps C s as ∧ ∀ s', T.run s as = some s' → T.AllSteps C s' bs := by
  induction as generalizing s with
  | nil => simp only [List.nil_append, AllSteps, true_and, run_nil, Option.some.injEq, forall_eq']
  | cons a as ih =>
    simp only [List.cons_append, AllSteps, ih, run_cons_eq_some]
    constructor
    · rintro ⟨hC, hrest⟩
      refine ⟨⟨hC, fun s₁ h₁ => (hrest s₁ h₁).1⟩, ?_⟩
      rintro s' ⟨s₁, h₁, hrun⟩
      exact (hrest s₁ h₁).2 s' hrun
    · rintro ⟨⟨hC, hfirst⟩, hsecond⟩
      exact ⟨hC, fun s₁ h₁ => ⟨hfirst s₁ h₁, fun s' hrun => hsecond s' ⟨s₁, h₁, hrun⟩⟩⟩

/-- Two conditions on the steps of a schedule are one. -/
theorem allSteps_and {C D : σ → α → Prop} {s : σ} {as : List α} :
    T.AllSteps (fun s a => C s a ∧ D s a) s as ↔ T.AllSteps C s as ∧ T.AllSteps D s as := by
  induction as generalizing s with
  | nil => exact ⟨fun _ => ⟨trivial, trivial⟩, fun _ => trivial⟩
  | cons a as ih =>
    simp only [AllSteps, ih]
    constructor
    · rintro ⟨⟨hC, hD⟩, hrest⟩
      exact ⟨⟨hC, fun s' h => (hrest s' h).1⟩, hD, fun s' h => (hrest s' h).2⟩
    · rintro ⟨⟨hC, hrestC⟩, hD, hrestD⟩
      exact ⟨⟨hC, hD⟩, fun s' h => ⟨hrestC s' h, hrestD s' h⟩⟩

/-- Whether the steps of a schedule meet a condition can be computed where the condition can. -/
instance decidableAllSteps {C : σ → α → Prop} [∀ s a, Decidable (C s a)] :
    (s : σ) → (as : List α) → Decidable (T.AllSteps C s as)
  | _, [] => .isTrue trivial
  | s, a :: as =>
    have : Decidable (∀ s' ∈ T.step s a, T.AllSteps C s' as) :=
      match h : T.step s a with
      | none => .isTrue (fun _ hs => nomatch hs)
      | some s₁ =>
        have := decidableAllSteps (C := C) s₁ as
        decidable_of_iff (T.AllSteps C s₁ as) (by simp)
    inferInstanceAs (Decidable (C s a ∧ ∀ s' ∈ T.step s a, T.AllSteps C s' as))

/-! ## Reachable states -/

theorem Reachable.of_init {s : σ} (h : T.init s) : T.Reachable s :=
  ⟨s, [], h, rfl⟩

variable {T}

/-- What a run reaches from a reachable state is reachable. -/
theorem Reachable.run {s s' : σ} {as : List α} (h : T.Reachable s)
    (hrun : T.run s as = some s') : T.Reachable s' := by
  obtain ⟨s₀, bs, hinit, hs⟩ := h
  refine ⟨s₀, bs ++ as, hinit, ?_⟩
  rw [run_append, hs, Option.bind_some, hrun]

theorem Reachable.step {s s' : σ} {a : α} (h : T.Reachable s)
    (hstep : T.step s a = some s') : T.Reachable s' := by
  have hrun : T.run s [a] = some s' := by
    simp only [run_cons, hstep, Option.bind_some, run_nil]
  exact h.run hrun

/-- A schedule that is evaluated to its end gives a reachable state with the property
    that is checked there. -/
theorem exists_reachable_of_run {P : σ → Prop} [DecidablePred P] {s₀ : σ} {as : List α}
    (hinit : T.init s₀) (h : (T.run s₀ as).any (fun s => decide (P s)) = true) :
    ∃ s, T.Reachable s ∧ P s := by
  obtain ⟨s, hs, hP⟩ := (Option.any_eq_true _ _).mp h
  exact ⟨s, ⟨s₀, as, hinit, hs⟩, of_decide_eq_true hP⟩

/-- Forgetting the condition on the steps. -/
theorem ReachableBy.reachable {C : σ → α → Prop} {s : σ} (h : T.ReachableBy C s) :
    T.Reachable s := by
  obtain ⟨s₀, as, hinit, -, hrun⟩ := h
  exact ⟨s₀, as, hinit, hrun⟩

/-- Every state is reachable by steps on which nothing is asked. -/
theorem Reachable.reachableBy {s : σ} (h : T.Reachable s) :
    T.ReachableBy (fun _ _ => True) s := by
  obtain ⟨s₀, as, hinit, hrun⟩ := h
  refine ⟨s₀, as, hinit, ?_, hrun⟩
  clear hrun hinit
  induction as generalizing s₀ with
  | nil => trivial
  | cons a as ih => exact ⟨trivial, fun s' _ => ih s'⟩

/-- A step that meets `C` leads on to where steps that meet `C` lead. -/
theorem ReachableBy.step {C : σ → α → Prop} {s s' : σ} {a : α} (h : T.ReachableBy C s)
    (hC : C s a) (hstep : T.step s a = some s') : T.ReachableBy C s' := by
  obtain ⟨s₀, as, hinit, hsteps, hrun⟩ := h
  refine ⟨s₀, as ++ [a], hinit, ?_, ?_⟩
  · clear hinit
    induction as generalizing s₀ with
    | nil =>
      cases hrun
      exact ⟨hC, fun _ _ => trivial⟩
    | cons b as ih =>
      obtain ⟨s₁, hs₁, hrun⟩ := T.run_cons_eq_some.mp hrun
      refine ⟨hsteps.1, fun s₂ hs₂ => ?_⟩
      cases hs₁.symm.trans hs₂
      exact ih s₁ (hsteps.2 s₁ hs₁) hrun
  · simp only [run_append, hrun, Option.bind_some, run_cons, hstep, run_nil]

/-! ## Invariants -/

/-- A condition on actions alone is met by every step of a schedule of such actions. -/
theorem allSteps_of_forall {D : α → Prop} {as : List α} (h : ∀ a ∈ as, D a) (s : σ) :
    T.AllSteps (fun _ a => D a) s as := by
  induction as generalizing s with
  | nil => trivial
  | cons a as ih =>
    exact ⟨h a List.mem_cons_self, fun s' _ => ih (fun b hb => h b (List.mem_cons_of_mem a hb)) s'⟩

/-- What holds at the start of a run and is kept by each of its steps that meets
    `C` holds at its end. -/
theorem run_invariant {C : σ → α → Prop} {I : σ → Prop}
    (hstep : ∀ s a s', I s → C s a → T.step s a = some s' → I s')
    {s s' : σ} {as : List α} (hs : I s) (hC : T.AllSteps C s as)
    (hrun : T.run s as = some s') : I s' := by
  induction as generalizing s with
  | nil => cases hrun; exact hs
  | cons a as ih =>
    obtain ⟨s₁, hs₁, hrun⟩ := T.run_cons_eq_some.mp hrun
    exact ih (hstep s a s₁ hs hC.1 hs₁) (hC.2 s₁ hs₁) hrun

/-- An invariant that steps meeting `C` keep holds wherever such steps lead. -/
theorem ReachableBy.invariant {C : σ → α → Prop} {I : σ → Prop}
    (hinit : ∀ s, T.init s → I s)
    (hstep : ∀ s a s', I s → C s a → T.step s a = some s' → I s')
    {s : σ} (h : T.ReachableBy C s) : I s := by
  obtain ⟨s₀, as, h₀, hC, hrun⟩ := h
  exact run_invariant hstep (hinit s₀ h₀) hC hrun

/-- An inductive invariant holds in every reachable state. -/
theorem Reachable.invariant {I : σ → Prop} (hinit : ∀ s, T.init s → I s)
    (hstep : ∀ s a s', I s → T.step s a = some s' → I s')
    {s : σ} (h : T.Reachable s) : I s :=
  h.reachableBy.invariant hinit fun s a s' hs _ => hstep s a s' hs

/-- Where each step from a state of `I` makes `m` smaller, the runs from a state are no longer
    than `m` says there. -/
theorem run_length_add_le {I : σ → Prop} {m : σ → Nat}
    (hI : ∀ s a s', I s → T.step s a = some s' → I s')
    (hm : ∀ s a s', I s → T.step s a = some s' → m s' < m s) {s s' : σ} {as : List α}
    (hs : I s) (hrun : T.run s as = some s') : as.length + m s' ≤ m s := by
  induction as generalizing s with
  | nil =>
    cases hrun
    simp only [List.length_nil, Nat.zero_add, Nat.le_refl]
  | cons a as ih =>
    obtain ⟨s₁, hs₁, hrun⟩ := T.run_cons_eq_some.mp hrun
    have hstep := hm s a s₁ hs hs₁
    have hrest := ih (hI s a s₁ hs hs₁) hrun
    rw [List.length_cons]
    omega

/-! ## Simulation -/

/-- A system each of whose steps is a run of another one, between related states, reaches
    no state without a related one that the other reaches. -/
theorem Reachable.simulate {τ β : Type} {U : Transition τ β} {R : σ → τ → Prop}
    (hinit : ∀ s, T.init s → ∃ t, U.init t ∧ R s t)
    (hstep : ∀ s a s' t, R s t → T.step s a = some s' →
      ∃ bs t', U.run t bs = some t' ∧ R s' t')
    {s : σ} (h : T.Reachable s) : ∃ t, U.Reachable t ∧ R s t := by
  apply h.invariant (I := fun s => ∃ t, U.Reachable t ∧ R s t)
  · intro s hs
    obtain ⟨t, ht, hR⟩ := hinit s hs
    exact ⟨t, Reachable.of_init U ht, hR⟩
  · rintro s a s' ⟨t, ht, hR⟩ hs
    obtain ⟨bs, t', hrun, hR'⟩ := hstep s a s' t hR hs
    exact ⟨t', ht.run hrun, hR'⟩

/-- Each run of the one system from related states is matched by a run of the other. -/
theorem run_simulate {τ β : Type} {U : Transition τ β} {R : σ → τ → Prop}
    (hstep : ∀ s a s' t, R s t → T.step s a = some s' →
      ∃ bs t', U.run t bs = some t' ∧ R s' t')
    {s s' : σ} {t : τ} {as : List α} (hR : R s t) (hrun : T.run s as = some s') :
    ∃ bs t', U.run t bs = some t' ∧ R s' t' := by
  induction as generalizing s t with
  | nil =>
    cases hrun
    exact ⟨[], t, rfl, hR⟩
  | cons a as ih =>
    obtain ⟨s₁, hs₁, hrun⟩ := T.run_cons_eq_some.mp hrun
    obtain ⟨bs, t₁, ht₁, hR⟩ := hstep s a s₁ t hR hs₁
    obtain ⟨cs, t', ht', hR⟩ := ih hR hrun
    refine ⟨bs ++ cs, t', ?_, hR⟩
    rw [run_append, ht₁, Option.bind_some, ht']

/-! ## Properties of whole runs -/

/-- If one step from a state of `I` where `P` holds keeps `P` exactly when it meets
    `C`, then `P` holds all along a run exactly when all its steps meet `C`. All this
    is about runs whose steps meet `D`.

    The steps that are not enabled say nothing, so `C` has to hold of them. -/
theorem always_iff_allSteps_of {I P : σ → Prop} {C D : σ → α → Prop}
    (hI : ∀ s a s', I s → D s a → T.step s a = some s' → I s')
    (hdis : ∀ s a, T.step s a = none → C s a)
    (hP : ∀ s a s', I s → D s a → P s → T.step s a = some s' → (P s' ↔ C s a))
    {s : σ} {as : List α} (hs : I s) (hPs : P s) (hD : T.AllSteps D s as) :
    T.Always P s as ↔ T.AllSteps C s as := by
  induction as generalizing s with
  | nil => exact ⟨fun _ => trivial, fun _ => hPs⟩
  | cons a as ih =>
    simp only [Always, AllSteps]
    -- an action that is not enabled ends the run, and `C` holds of it
    cases hst : T.step s a with
    | none => simp only [hPs, hdis s a hst, reduceCtorEq, false_implies, implies_true]
    | some s₁ =>
      have hiff := hP s a s₁ hs hD.1 hPs hst
      have hrest := fun h₁ => ih (hI s a s₁ hs hD.1 hst) h₁ (hD.2 s₁ hst)
      simp only [Option.some.injEq, forall_eq']
      constructor
      · rintro ⟨-, h⟩
        have hP₁ : P s₁ := by cases as with
          | nil => exact h
          | cons b bs => exact h.1
        exact ⟨hiff.mp hP₁, (hrest hP₁).mp h⟩
      · rintro ⟨hC, h⟩
        exact ⟨hPs, (hrest (hiff.mpr hC)).mpr h⟩

/-- The same where nothing is asked of the steps. -/
theorem always_iff_allSteps {I P : σ → Prop} {C : σ → α → Prop}
    (hI : ∀ s a s', I s → T.step s a = some s' → I s')
    (hdis : ∀ s a, T.step s a = none → C s a)
    (hP : ∀ s a s', I s → P s → T.step s a = some s' → (P s' ↔ C s a))
    {s : σ} {as : List α} (hs : I s) (hPs : P s) :
    T.Always P s as ↔ T.AllSteps C s as := by
  apply T.always_iff_allSteps_of (D := fun _ _ => True) _ hdis _ hs hPs
    (T.allSteps_of_forall (D := fun _ => True) (fun _ _ => trivial) s)
  · intro s a s' hs _ hstep
    exact hI s a s' hs hstep
  · intro s a s' hs _ hPs hstep
    exact hP s a s' hs hPs hstep

/-- What follows from an invariant that the steps meeting `C` keep holds all along their runs. -/
theorem always_of_allSteps {I P : σ → Prop} {C : σ → α → Prop}
    (hI : ∀ s a s', I s → C s a → T.step s a = some s' → I s') (hP : ∀ s, I s → P s)
    {s : σ} {as : List α} (hs : I s) (hC : T.AllSteps C s as) : T.Always P s as := by
  induction as generalizing s with
  | nil => exact hP s hs
  | cons a as ih =>
    refine ⟨hP s hs, fun s' hs' => ?_⟩
    exact ih (hI s a s' hs hC.1 hs') (hC.2 s' hs')

/-- If a step that does not meet `C` spoils the run for good, then all steps of a run that is
    not spoilt at its end meet `C`. -/
theorem allSteps_of_run {I K : σ → Prop} {C : σ → α → Prop}
    (hI : ∀ s a s', I s → T.step s a = some s' → I s')
    (hbreak : ∀ s a s', I s → T.step s a = some s' → ¬C s a → K s')
    (hK : ∀ s a s', I s → K s → T.step s a = some s' → K s') {s s' : σ} {as : List α} (hs : I s)
    (hrun : T.run s as = some s') (hend : ¬K s') : T.AllSteps C s as := by
  induction as generalizing s with
  | nil => trivial
  | cons a as ih =>
    obtain ⟨s₁, hs₁, hrun⟩ := T.run_cons_eq_some.mp hrun
    have hinv := hI s a s₁ hs hs₁
    constructor
    · refine Classical.byContradiction fun hnot => ?_
      -- what the step has spoilt is spoilt at the end
      have hspoilt := run_invariant (I := fun s => I s ∧ K s) (C := fun _ _ => True)
        (fun s a s' hs _ hstep => ⟨hI s a s' hs.1 hstep, hK s a s' hs.1 hs.2 hstep⟩)
        ⟨hinv, hbreak s a s₁ hs hs₁ hnot⟩
        (allSteps_of_forall (D := fun _ => True) (fun _ _ => trivial) s₁) hrun
      exact hend hspoilt.2
    · intro s₂ hs₂
      cases hs₁.symm.trans hs₂
      exact ih hinv hrun

/-- A property that no step establishes, and that a step leaves exactly when it meets `C`,
    holds at the end of a run exactly when all steps meet `C`. -/
theorem end_iff_allSteps {P : σ → Prop} {C : σ → α → Prop}
    (hback : ∀ s a s', T.step s a = some s' → P s' → P s)
    (hP : ∀ s a s', T.step s a = some s' → (P s' ↔ C s a)) {s s' : σ} {as : List α}
    (hs : P s) (hrun : T.run s as = some s') : P s' ↔ T.AllSteps C s as := by
  induction as generalizing s with
  | nil =>
    cases hrun
    exact ⟨fun _ => trivial, fun _ => hs⟩
  | cons a as ih =>
    obtain ⟨s₁, hs₁, hrun⟩ := T.run_cons_eq_some.mp hrun
    simp only [AllSteps, hs₁, Option.some.injEq, forall_eq']
    constructor
    · intro h
      -- what holds at the end held after the first step
      have h₁ : P s₁ := Classical.byContradiction fun hnot =>
        run_invariant (I := fun s => ¬P s) (C := fun _ _ => True)
          (fun s a s' hs _ hstep hs' => hs (hback s a s' hstep hs')) hnot
          (allSteps_of_forall (D := fun _ => True) (fun _ _ => trivial) s₁) hrun h
      exact ⟨(hP s a s₁ hs₁).mp h₁, (ih h₁ hrun).mp h⟩
    · rintro ⟨hC, h⟩
      exact (ih ((hP s a s₁ hs₁).mpr hC) hrun).mpr h

end Transition
