import AsyncLogStorage.Spec.ThreadPoolInvariant

/-!
# The manager at shutdown

The manager waits in its inner loop for an id or for the last token. Workers that see the
stop leave neither, so if the stop comes while the manager is on its way there, or is there
already, it waits for workers that are gone.

## Key results

- `run_waitsForNobody`: a manager that waits for nobody does so for ever
- `not_waitsForNobody_iff`: in which runs it never comes to that
-/

namespace ThreadPool

/-- The worker is waiting, or in the exit branch and has left no id yet. After the stop nobody
    else gets to the exit branch. -/
def WorkerPc.mayLeave : WorkerPc → Bool
  | .block | .asleep | .woken | .checkExit | .exitCur | .exitIdle | .exitTok | .exitLockIds
  | .exitPush => true
  | _ => false

/-- No id has been left, there are tokens, and no worker will take them. -/
def TokensLeftOver (s : State) : Prop :=
  s.ids = [] ∧ 0 < s.exitThread ∧ ∀ pc ∈ s.workers, pc.mayLeave = false

/-- The manager is in its inner loop. -/
def InInnerLoop (s : State) : Prop := s.manager = .waitIds ∨ s.manager = .waitTok

/-- After the stop the manager is in its inner loop, and no worker can end it. -/
def WaitsForNobody (s : State) : Prop := s.stop = true ∧ InInnerLoop s ∧ TokensLeftOver s

instance {s : State} : Decidable (TokensLeftOver s) := inferInstanceAs (Decidable (_ ∧ _))

instance {s : State} : Decidable (InInnerLoop s) := inferInstanceAs (Decidable (_ ∨ _))

instance {s : State} : Decidable (WaitsForNobody s) := inferInstanceAs (Decidable (_ ∧ _))

/-- The stop does not come while the manager is in its inner loop with tokens left over, and
    after the stop the manager does not go into the loop with tokens left over. -/
def MeetsStop (s : State) : Action → Prop
  | .dtor _ => s.dtor = .notCalled → InInnerLoop s → ¬TokensLeftOver s
  | .manager => s.manager = .notifyAll → s.stop = true → ¬TokensLeftOver s
  | _ => True

/-! ## Steps -/

theorem WorkerPc.mayLeave_notified (pc : WorkerPc) : pc.notified.mayLeave = pc.mayLeave := by
  cases pc <;> rfl

theorem mayLeave_notifyAll {ws : List WorkerPc} :
    (∀ pc ∈ notifyAll ws, pc.mayLeave = false) ↔ ∀ pc ∈ ws, pc.mayLeave = false := by
  simp only [notifyAll, List.forall_mem_map, WorkerPc.mayLeave_notified]

theorem mayLeave_notifyOne {ws ws' : List WorkerPc} {sel : Nat} (h : notifyOne ws sel = some ws') :
    (∀ pc ∈ ws', pc.mayLeave = false) ↔ ∀ pc ∈ ws, pc.mayLeave = false := by
  obtain ⟨hsel, rfl⟩ | ⟨-, rfl⟩ := notifyOne_cases h
  · -- one that may leave is woken, and still may
    have hlt : sel < ws.length := (List.getElem?_eq_some_iff.mp hsel).1
    have hwoken : WorkerPc.woken ∈ ws.set sel .woken :=
      List.mem_of_getElem? (i := sel) (by simp [hlt])
    constructor
    · intro h
      exact absurd (h .woken hwoken) (by decide)
    · intro h
      exact absurd (h .asleep (List.mem_of_getElem? hsel)) (by decide)
  · exact Iff.rfl

/-- After the stop nobody who may not leave gets to where it may. -/
theorem WorkerPc.mayLeave_next {s : State} {pc : WorkerPc} (hstop : s.stop = true)
    (h : pc.mayLeave = false) : (pc.next s).mayLeave = false := by
  have hgoes := pc.goes_next s
  generalize pc.next s = pc' at hgoes ⊢
  cases hgoes with
  | loopHead hrun | wait _ hrun =>
    rw [hstop] at hrun
    cases hrun
  | block | asleep | woken | leave _ | stay _ | exitCur | exitIdle | exitTok | exitLockIds
  | exitPush => cases h
  | _ => rfl

/-- A worker that may leave does so by leaving its id, as long as there are tokens. -/
theorem WorkerPc.mayLeave_of_next {s : State} {pc : WorkerPc} (h : (pc.next s).mayLeave = false)
    (htok : 0 < s.exitThread) (hpush : pc ≠ .exitPush) : pc.mayLeave = false := by
  cases pc with
  | checkExit =>
    simp only [next, if_pos htok] at h
    cases h
  | exitPush => exact absurd rfl hpush
  | block | asleep | woken | exitCur | exitIdle | exitTok | exitLockIds => cases h
  | _ => rfl

theorem workerStep_tokensLeftOver_iff {s s' : State} {i : Nat} (h : workerStep s i = some s')
    (hstop : s.stop = true) : TokensLeftOver s' ↔ TokensLeftOver s := by
  obtain ⟨pc, hpc, hstep, hframe⟩ := workerStep_frame h
  obtain ⟨hids, hexit⟩ := workerStepAt_tokens hstep
  have hlt : i < s.workers.length := (List.getElem?_eq_some_iff.mp hpc).1
  have hself : pc.next s ∈ s'.workers := by
    rw [hframe.workers]
    exact List.mem_of_getElem? (i := i) (by simp [hlt])
  constructor
  · rintro ⟨hnil, htok, hnone⟩
    have hpush : pc ≠ .exitPush := by
      rintro rfl
      rw [hids] at hnil
      simp at hnil
    rw [if_neg hpush] at hids
    have htok' : 0 < s.exitThread := by
      split at hexit <;> omega
    refine ⟨by rw [← hids, hnil], htok', fun pc' hmem => ?_⟩
    have hown := WorkerPc.mayLeave_of_next (hnone _ hself) htok' hpush
    obtain ⟨j, hj⟩ := List.getElem?_of_mem hmem
    by_cases hij : i = j
    · subst hij
      rw [hpc] at hj
      cases hj
      exact hown
    · apply hnone
      rw [hframe.workers]
      exact List.mem_of_getElem? (i := j) (by rw [List.getElem?_set, if_neg hij, hj])
  · rintro ⟨hnil, htok, hnone⟩
    have hown := hnone pc (List.mem_of_getElem? hpc)
    have hpush : pc ≠ .exitPush := by rintro rfl; cases hown
    have htake : pc ≠ .exitTok := by rintro rfl; cases hown
    rw [if_neg hpush] at hids
    rw [if_neg htake] at hexit
    refine ⟨by rw [hids, hnil], by rw [hexit]; exact htok, fun pc' hmem => ?_⟩
    rw [hframe.workers] at hmem
    obtain hmem | rfl := List.mem_or_eq_of_mem_set hmem
    · exact hnone pc' hmem
    · exact WorkerPc.mayLeave_next hstop hown

/-- The manager gets into its inner loop by `notify_all`. -/
theorem ManagerPc.next_innerLoop {s : State} {pc : ManagerPc}
    (h : pc.next s = .waitIds ∨ pc.next s = .waitTok) :
    pc = .notifyAll ∨ pc = .waitIds ∨ pc = .waitTok := by
  have hgoes := pc.goes_next s
  obtain hwait | htok := h
  · rw [hwait] at hgoes
    cases hgoes with
    | notifyAll => exact .inl rfl
    | retry _ => exact .inr (.inr rfl)
  · rw [htok] at hgoes
    cases hgoes with
    | waitOn _ => exact .inr (.inl rfl)

/-- On the way into its inner loop and round in it, the manager leaves the tokens. -/
theorem managerStep_innerLoop {s s' : State} (h : managerStep s = some s') (hin : InInnerLoop s') :
    (s.manager = .notifyAll ∨ InInnerLoop s) ∧ s'.stop = s.stop ∧
      (TokensLeftOver s' ↔ TokensLeftOver s) := by
  have hframe := managerStep_moves h
  rw [InInnerLoop, hframe.manager] at hin
  have hfrom := ManagerPc.next_innerLoop hin
  have hclear : s.manager ≠ .clearIds := by
    intro hm
    simp [hm] at hfrom
  have hstore : s.manager ≠ .storeExit := by
    intro hm
    simp [hm] at hfrom
  obtain ⟨hstop, -, -, -, -, hworkers⟩ := managerStep_frame h
  refine ⟨hfrom, hstop, ?_⟩
  rw [TokensLeftOver, TokensLeftOver, hframe.ids, if_neg hclear, hframe.exitThread hstore]
  refine and_congr_right fun _ => and_congr_right fun _ => ?_
  obtain ⟨-, hw⟩ | ⟨hm, -⟩ | ⟨-, hw⟩ := hworkers
  · rw [hw, mayLeave_notifyAll]
  · simp [hm] at hfrom
  · rw [hw]

/-- The destructor leaves the manager and the tokens. -/
theorem dtorStep_tokensLeftOver_iff {s s' : State} {sel : Nat} (h : dtorStep s sel = some s') :
    (InInnerLoop s' ↔ InInnerLoop s) ∧ (TokensLeftOver s' ↔ TokensLeftOver s) := by
  obtain ⟨-, -, -, hexit, hids, hmanager⟩ := dtorStep_counters h
  constructor
  · rw [InInnerLoop, InInnerLoop, hmanager]
  · rw [TokensLeftOver, TokensLeftOver, hexit, hids]
    refine and_congr_right fun _ => and_congr_right fun _ => ?_
    obtain ⟨-, -, -, ⟨-, -, hw⟩ | ⟨-, -, hw | hw⟩⟩ := dtorStep_frame h
    · rw [hw]
    · rw [hw]
    · rw [hw, mayLeave_notifyAll]

/-- A manager that waits for nobody goes on doing so, and it comes to that by the steps that do
    not meet the stop. -/
theorem step_waitsForNobody_iff {s s' : State} {a : Action} (h : step s a = some s') :
    WaitsForNobody s' ↔ WaitsForNobody s ∨ ¬MeetsStop s a := by
  obtain ⟨task, rfl, -, rfl⟩ | ⟨sel, ws, rfl, -, hws, rfl⟩ | ⟨i, rfl, hstep⟩ | ⟨rfl, hstep⟩ |
    ⟨sel, rfl, hstep⟩ := step_cases h
  · simp only [MeetsStop, not_true_eq_false, or_false]
    exact Iff.rfl
  · simp only [MeetsStop, not_true_eq_false, or_false]
    refine and_congr_right fun _ => and_congr_right fun _ => ?_
    exact and_congr_right fun _ => and_congr_right fun _ => mayLeave_notifyOne hws
  · simp only [MeetsStop, not_true_eq_false, or_false]
    obtain ⟨pc, -, -, hframe⟩ := workerStep_frame hstep
    rw [WaitsForNobody, WaitsForNobody, hframe.stop, InInnerLoop, InInnerLoop, hframe.manager]
    exact and_congr_right fun hstop => and_congr_right fun _ =>
      workerStep_tokensLeftOver_iff hstep hstop
  · constructor
    · rintro ⟨hstop, hin, hleft⟩
      obtain ⟨hfrom, hsame, htokens⟩ := managerStep_innerLoop hstep hin
      rw [hsame] at hstop
      rw [htokens] at hleft
      obtain hm | hin := hfrom
      · exact .inr fun hmeets => hmeets hm hstop hleft
      · exact .inl ⟨hstop, hin, hleft⟩
    · rintro (⟨hstop, hin | hin, hleft⟩ | hmeets)
      · -- round the loop once more
        simp only [managerStep, hin] at hstep
        cases hstep
        refine ⟨hstop, .inr ?_, hleft⟩
        simp [hleft.1]
      · simp only [managerStep, hin, if_pos hleft.2.1, Option.some.injEq] at hstep
        rw [← hstep]
        exact ⟨hstop, .inl rfl, hleft⟩
      · -- into the loop after the stop
        simp only [MeetsStop, Classical.not_forall, Classical.not_not] at hmeets
        obtain ⟨hm, hstop, hleft⟩ := hmeets
        simp only [managerStep, hm, Option.some.injEq] at hstep
        rw [← hstep]
        exact ⟨hstop, .inl rfl, hleft.1, hleft.2.1, mayLeave_notifyAll.mpr hleft.2.2⟩
  · obtain ⟨hin, hleft⟩ := dtorStep_tokensLeftOver_iff hstep
    rw [WaitsForNobody, WaitsForNobody, hin, hleft]
    obtain ⟨-, -, -, ⟨hcall, hset, -⟩ | ⟨hcalled, hkeep, -⟩⟩ := dtorStep_frame hstep
    · -- the stop
      simp only [hset, true_and, MeetsStop, hcall, true_implies, Classical.not_forall,
        Classical.not_not]
      constructor
      · rintro ⟨hloop, htokens⟩
        exact .inr ⟨hloop, htokens⟩
      · rintro (⟨-, hloop, htokens⟩ | ⟨hloop, htokens⟩)
        · exact ⟨hloop, htokens⟩
        · exact ⟨hloop, htokens⟩
    · simp [hkeep, MeetsStop, hcalled]

/-! ## Runs -/

/-- A manager that waits for nobody never leaves, so the destructor never gets past its join. -/
theorem run_waitsForNobody {min max exitThread : Int} {s s' : State} {as : List Action}
    (h : WaitsForNobody s) (hrun : (system min max exitThread).run s as = some s') :
    WaitsForNobody s' := by
  refine Transition.run_invariant (C := fun _ _ => True) ?_ h
    (Transition.allSteps_of_forall (D := fun _ => True) (fun _ _ => trivial) s) hrun
  intro s a s' hs _ hstep
  exact (step_waitsForNobody_iff hstep).mpr (.inl hs)

/-- Along a run the manager never waits for nobody exactly if the stop does not meet it in its
    inner loop, or on its way there, with tokens left over. -/
theorem not_waitsForNobody_iff (min max exitThread : Int) (as : List Action) :
    (system min max exitThread).Always (fun s => ¬WaitsForNobody s) (start min max exitThread) as ↔
      (system min max exitThread).AllSteps MeetsStop (start min max exitThread) as := by
  -- neither the stop nor the `notify_all` of the manager is ever blocked
  have hdisabled : ∀ s a, step s a = none → MeetsStop s a := by
    intro s a hnone
    cases a with
    | dtor sel =>
      intro hcall
      simp [step, dtorStep, hcall] at hnone
    | manager =>
      intro hm
      simp [step, managerStep, hm] at hnone
    | _ => trivial
  refine Transition.always_iff_allSteps (I := fun _ => True) (fun _ _ _ _ _ => trivial) hdisabled
    ?_ trivial (by simp [WaitsForNobody, start])
  intro s a s' _ hs hstep
  rw [step_waitsForNobody_iff hstep]
  simp [hs]

/-- A pool of one to two workers: the first task makes the manager start the second worker, and
    the stop comes in its next sleep. Both workers see it and end, and then the manager stores two
    tokens and waits. -/
def deadManagerSchedule : List Action :=
  [Action.addTask ⟨0, true⟩] ++ List.replicate 6 (Action.worker 0) ++
    List.replicate 10 Action.manager ++
    [Action.worker 0, Action.worker 0, Action.dtor 0, Action.worker 0, Action.worker 1] ++
    List.replicate 6 Action.manager

theorem waitsForNobody_small :
    ¬∀ (min max exitThread : Int) (s : State), min ≤ max →
      (system min max exitThread).Reachable s → ¬WaitsForNobody s := by
  intro h
  obtain ⟨s, hs, hwaits⟩ := Transition.exists_reachable_of_run (P := WaitsForNobody)
    (show (system 1 2 0).init (start 1 2 0) from rfl)
    (show ((system 1 2 0).run _ deadManagerSchedule).any _ = true by decide)
  exact h 1 2 0 s (by decide) hs hwaits

end ThreadPool
