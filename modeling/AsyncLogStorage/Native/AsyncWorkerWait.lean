import AsyncLogStorage.Native.AsyncWorker

/-!
# The log worker between its test and its wait

`AsyncWorker.step` takes the test of the wait predicate and the wait itself as one step.
`mutex_` makes them one for the producers, but not for `Stop`, which sets `stop_` and
notifies without holding it. Here they are two steps: a worker whose predicate was false
is `blocking` and still holds the mutex, until it releases it and sleeps. A notification
that comes in between finds nobody.
-/

namespace Mylog.AsyncWorker

structure WaitState where
  state : State
  /-- The predicate was false; `cond_consumer_.wait` releases the mutex and blocks next. -/
  blocking : Bool
deriving DecidableEq, Repr

/-- The worker is about to look at its predicate, which is false. -/
def WillBlock (s : State) : Prop :=
  (s.worker = .locking ∨ s.worker = .woken) ∧ s.consumer.isEmpty = true ∧ s.stop = false

instance (s : State) : Decidable (WillBlock s) := inferInstanceAs (Decidable (_ ∧ _))

def waitStep (cfg : LogConfig) (type : AsyncType) (s : WaitState) : Action → Option WaitState
  | .worker sel =>
    if s.blocking then
      some { state := { s.state with worker := .asleep }, blocking := false }
    else if WillBlock s.state then
      some { s with blocking := true }
    else
      (workerStep type s.state sel).map fun state => { s with state := state }
  | .push i data =>
    -- the section of a producer needs the mutex
    if s.blocking then none
    else (step cfg type s.state (.push i data)).map fun state => { s with state := state }
  | .wake i =>
    if s.blocking then none
    else (step cfg type s.state (.wake i)).map fun state => { s with state := state }
  | a => (step cfg type s.state a).map fun state => { s with state := state }

def waitSystem (cfg : LogConfig) (type : AsyncType) : Transition WaitState Action where
  init s := (system cfg type).init s.state ∧ s.blocking = false
  step := waitStep cfg type

section
variable {cfg : LogConfig} {type : AsyncType} {s s' : State}

/-- A worker that blocks does so in two steps, and every other step is one. -/
theorem waitSystem_run_of_step {a : Action} (h : step cfg type s a = some s') :
    ∃ as, (waitSystem cfg type).run ⟨s, false⟩ as = some ⟨s', false⟩ := by
  cases a with
  | worker sel =>
    have h : workerStep type s sel = some s' := h
    by_cases hblock : WillBlock s
    · -- the test, and then the wait
      refine ⟨[.worker sel, .worker sel], ?_⟩
      obtain ⟨hw, hempty, hstop⟩ := hblock
      have hpred : (!s.consumer.isEmpty || s.stop) = false := by
        rw [hempty, hstop]
        rfl
      have hwait : waitSection type s sel = some { s with worker := .asleep } := by
        simp only [waitSection, hpred, Bool.false_eq_true, ↓reduceIte]
      have hs' : s' = { s with worker := .asleep } := by
        obtain hw | hw := hw
        · rw [workerStep, hw, hwait] at h
          exact (Option.some.inj h).symm
        · rw [workerStep, hw, hwait] at h
          exact (Option.some.inj h).symm
      have hblock : WillBlock s := ⟨hw, hempty, hstop⟩
      simp only [Transition.run_cons, Transition.run_nil, waitSystem, waitStep, hblock,
        Bool.false_eq_true, ↓reduceIte, Option.bind_some, hs']
    · refine ⟨[.worker sel], ?_⟩
      simp only [Transition.run_cons, Transition.run_nil, waitSystem, waitStep, hblock, h,
        Bool.false_eq_true, ↓reduceIte, Option.map_some, Option.bind_some]
  | push i data =>
    refine ⟨[.push i data], ?_⟩
    simp only [Transition.run_cons, Transition.run_nil, waitSystem, waitStep, h,
      Bool.false_eq_true, ↓reduceIte, Option.map_some, Option.bind_some]
  | wake i =>
    refine ⟨[.wake i], ?_⟩
    simp only [Transition.run_cons, Transition.run_nil, waitSystem, waitStep, h,
      Bool.false_eq_true, ↓reduceIte, Option.map_some, Option.bind_some]
  | notifyConsumer i =>
    refine ⟨[.notifyConsumer i], ?_⟩
    simp only [Transition.run_cons, Transition.run_nil, waitSystem, waitStep, h, Option.map_some,
      Option.bind_some]
  | stopSet =>
    refine ⟨[.stopSet], ?_⟩
    simp only [Transition.run_cons, Transition.run_nil, waitSystem, waitStep, h, Option.map_some,
      Option.bind_some]
  | stopNotify =>
    refine ⟨[.stopNotify], ?_⟩
    simp only [Transition.run_cons, Transition.run_nil, waitSystem, waitStep, h, Option.map_some,
      Option.bind_some]
  | stopJoin =>
    refine ⟨[.stopJoin], ?_⟩
    simp only [Transition.run_cons, Transition.run_nil, waitSystem, waitStep, h, Option.map_some,
      Option.bind_some]

/-- Whatever is reachable with the test and the wait in one step is reachable in two. -/
theorem waitSystem_reachable (h : (system cfg type).Reachable s) :
    (waitSystem cfg type).Reachable ⟨s, false⟩ := by
  obtain ⟨t, ht, rfl⟩ := h.simulate (U := waitSystem cfg type) (R := fun s t => t = ⟨s, false⟩)
    (fun s hs => ⟨⟨s, false⟩, ⟨hs, rfl⟩, rfl⟩) (by
      rintro s a s' t rfl hstep
      have hstep : step cfg type s a = some s' := hstep
      obtain ⟨as, hrun⟩ := waitSystem_run_of_step hstep
      exact ⟨as, _, hrun, rfl⟩)
  exact ht

end

end Mylog.AsyncWorker
