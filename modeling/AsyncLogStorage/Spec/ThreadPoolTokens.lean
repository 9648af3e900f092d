import AsyncLogStorage.Spec.ThreadPoolReap

/-!
# Exit tokens

The manager stores two tokens in `m_exitThread`, and a worker that is notified and finds
one goes through the exit branch and takes it. The manager stops waiting as soon as one
id is there, so a token may stay behind, and the constructor may have left some in the
first place. A worker takes such a token long after the request, or without one.

## Key results

- `wakingStep_tokens`: what a step can do to the tokens
- `reachable_budget`: nobody leaves without a token that was stored or there at the start
- `requested_iff`: exactly when workers leave on request only and no token outlives its request
-/

namespace ThreadPool

/-! ## Tokens -/

/-- The worker has seen a token and not taken it yet. -/
def WorkerPc.claims : WorkerPc → Bool
  | .exitCur | .exitIdle | .exitTok => true
  | _ => false

/-- The manager is in its exit branch. -/
def ManagerPc.inExit : ManagerPc → Bool
  | .storeExit | .notifyAll | .waitIds | .waitTok | .lockIds | .reap _ | .reapJoinable _
  | .reapJoin _ | .reapErase _ | .clearIds | .unlockIds => true
  | _ => false

/-- The step is the manager's `m_exitThread.store(2)`. -/
def storesTokens (s : State) : WakingAction → Bool
  | .pool .manager => s.manager == .storeExit
  | _ => false

/-- In this step a worker takes the exit branch. -/
def takesExit (s : State) : WakingAction → Bool
  | .pool (.worker i) => s.workers[i]? == some .checkExit && decide (0 < s.exitThread)
  | _ => false

/-- A pool, with the stores of the tokens and the workers that took the exit branch counted. -/
structure Counted where
  pool : State
  stores : Nat
  exits : Nat
deriving DecidableEq, Repr

def countedStep (c : Counted) (a : WakingAction) : Option Counted :=
  (wakingStep c.pool a).map fun s =>
    { pool := s
      stores := c.stores + (storesTokens c.pool a).toNat
      exits := c.exits + (takesExit c.pool a).toNat }

def countedSystem (min max exitThread : Int) : Transition Counted WakingAction where
  init c := c = ⟨start min max exitThread, 0, 0⟩
  step := countedStep

/-- Until the stop workers leave only on request, and no token is there outside of the
    manager's exit branch. -/
def Requested (c : Counted) : Prop :=
  c.pool.stop = false →
    c.exits ≤ 2 * c.stores ∧ (c.pool.manager.inExit = false → c.pool.exitThread = 0)

instance {c : Counted} : Decidable (Requested c) := inferInstanceAs (Decidable (_ → _))

/-- Until the stop the manager does not leave its exit branch with a token behind. -/
def LeavesNoToken (c : Counted) (a : WakingAction) : Prop :=
  a = .pool .manager → c.pool.manager = .unlockIds → c.pool.stop = false →
    c.pool.exitThread = 0

/-! ## What a step does to the tokens -/

/-- The number of workers with a claim to a token. -/
def claimed (s : State) : Nat := s.workers.countP WorkerPc.claims

/-- What a step does to the tokens, and whether it is an exit or a store. A worker claims its
    token and takes it in one section under `m_queueMutex`, so there is at most one claim. -/
inductive TokenMove (s s' : State) : (exits stores : Bool) → Prop
  | claim (htok : 0 < s.exitThread) (hold : claimed s = 0) (hnew : claimed s' = 1)
      (hsame : s'.exitThread = s.exitThread) : TokenMove s s' true false
  | take (hold : claimed s = 1) (hnew : claimed s' = 0)
      (htaken : s'.exitThread = s.exitThread - 1) : TokenMove s s' false false
  | store (hm : s.manager = .storeExit) (hclaims : claimed s' = claimed s)
      (hstored : s'.exitThread = 2) : TokenMove s s' false true
  | keep (hclaims : claimed s' = claimed s) (hsame : s'.exitThread = s.exitThread) :
      TokenMove s s' false false

theorem WorkerPc.claims_notified (pc : WorkerPc) : pc.notified.claims = pc.claims := by
  cases pc <;> rfl

theorem WorkerPc.holdsQueue_of_claims {pc : WorkerPc} (h : pc.claims = true) :
    pc.holdsQueue = true := by
  cases pc with
  | exitCur | exitIdle | exitTok => rfl
  | _ => cases h

/-- Only the holder of `m_queueMutex` can have a claim. -/
theorem Locked.claimed_holder {s : State} (hs : Locked s) {i : Nat} {pc : WorkerPc}
    (hpc : s.workers[i]? = some pc) (hq : pc.holdsQueue = true) :
    claimed s = pc.claims.toNat := by
  obtain ⟨hlt, hget⟩ := List.getElem?_eq_some_iff.mp hpc
  -- without its holder the mutex leaves nobody a claim
  have hothers : (s.workers.set i .exited).countP WorkerPc.claims = 0 := by
    rw [List.countP_eq_zero]
    intro pcj hmem hclaims
    obtain ⟨j, hj⟩ := List.mem_iff_getElem?.mp hmem
    obtain ⟨-, rfl⟩ | ⟨hij, hj⟩ := List.getElem?_set_cases hj
    · cases hclaims
    · exact hij (hs.holder_unique hpc hq hj (WorkerPc.holdsQueue_of_claims hclaims))
  have hpos : pc.claims = true → 0 < s.workers.countP WorkerPc.claims := fun h =>
    List.countP_pos_iff.mpr ⟨pc, List.mem_of_getElem? hpc, h⟩
  have hexited : WorkerPc.claims .exited = false := rfl
  rw [List.countP_set hlt, hget, hexited] at hothers
  show s.workers.countP WorkerPc.claims = _
  cases hclaims : pc.claims with
  | true =>
    have := hpos hclaims
    simp only [hclaims, ↓reduceIte, Bool.false_eq_true, Bool.toNat_true] at hothers ⊢
    omega
  | false =>
    simp only [hclaims, ↓reduceIte, Bool.false_eq_true, Bool.toNat_false] at hothers ⊢
    omega

/-- The exit test gives a worker its claim, and the decrement ends it. -/
theorem WorkerPc.claims_next {s : State} {pc : WorkerPc} :
    (pc.next s).claims = if pc = .checkExit then decide (0 < s.exitThread)
      else if pc = .exitTok then false else pc.claims := by
  have hgoes := pc.goes_next s
  generalize pc.next s = pc' at hgoes ⊢
  cases hgoes with
  | leave htok => exact (decide_eq_true htok).symm
  | stay htok => exact (decide_eq_false htok).symm
  | _ => rfl

theorem workerStep_tokens {s s' : State} {i : Nat} (hs : Locked s)
    (h : workerStep s i = some s') :
    TokenMove s s' (takesExit s (.pool (.worker i))) false := by
  obtain ⟨pc, hpc, hstep, hframe⟩ := workerStep_frame h
  have htok := (workerStepAt_tokens hstep).2
  have hcount : (claimed s' : Int) = claimed s + (pc.next s).claims.toNat - pc.claims.toNat :=
    hframe.countP_toNat WorkerPc.claims hpc
  rw [WorkerPc.claims_next] at hcount
  by_cases hcheck : pc = .checkExit
  · subst hcheck
    have hnone : claimed s = 0 := hs.claimed_holder hpc rfl
    have hclaims : WorkerPc.claims .checkExit = false := rfl
    by_cases hpos : 0 < s.exitThread
    · have hexits : takesExit s (.pool (.worker i)) = true := by simp [takesExit, hpc, hpos]
      simp only [↓reduceIte, hpos, decide_true, hclaims, Bool.toNat_true,
        Bool.toNat_false] at hcount
      rw [hexits]
      exact .claim hpos hnone (by omega) htok
    · have hexits : takesExit s (.pool (.worker i)) = false := by simp [takesExit, hpos]
      simp only [↓reduceIte, hpos, decide_false, hclaims, Bool.toNat_false] at hcount
      rw [hexits]
      exact .keep (by omega) htok
  · have hexits : takesExit s (.pool (.worker i)) = false := by simp [takesExit, hpc, hcheck]
    rw [hexits]
    by_cases htake : pc = .exitTok
    · subst htake
      have hone : claimed s = 1 := hs.claimed_holder hpc rfl
      have hclaims : WorkerPc.claims .exitTok = true := rfl
      simp only [reduceCtorEq, ↓reduceIte, hclaims, Bool.toNat_true, Bool.toNat_false] at hcount
      exact .take hone (by omega) htok
    · simp only [hcheck, htake, ↓reduceIte] at hcount
      rw [if_neg htake] at htok
      exact .keep (by omega) htok

theorem managerStep_tokens {s s' : State} (h : managerStep s = some s') :
    TokenMove s s' false (storesTokens s (.pool .manager)) := by
  have hclaims : claimed s' = claimed s := by
    obtain ⟨-, -, -, -, -, ⟨-, hw⟩ | ⟨-, hw⟩ | ⟨-, hw⟩⟩ := managerStep_frame h
    · simp only [claimed, hw, countP_notifyAll WorkerPc.claims_notified]
    · simp [claimed, hw, WorkerPc.claims]
    · simp only [claimed, hw]
  by_cases hm : s.manager = .storeExit
  · have hstores : storesTokens s (.pool .manager) = true := by simp [storesTokens, hm]
    rw [hstores]
    refine .store hm hclaims ?_
    simp only [managerStep, hm] at h
    cases h
    rfl
  · have hstores : storesTokens s (.pool .manager) = false := by simp [storesTokens, hm]
    rw [hstores]
    exact .keep hclaims ((managerStep_moves h).exitThread hm)

/-- Every step of a reachable state is one of these moves. -/
theorem wakingStep_tokens {s s' : State} {a : WakingAction} (hs : Locked s)
    (h : wakingStep s a = some s') : TokenMove s s' (takesExit s a) (storesTokens s a) := by
  cases a with
  | wake i =>
    obtain ⟨hasleep, hs⟩ := Option.ite_none_right_eq_some.mp h
    cases hs
    exact .keep (countP_notifyOne WorkerPc.claims_notified (notifyOne_of_asleep hasleep)) rfl
  | pool b =>
    have hstep : step s b = some s' := h
    obtain ⟨task, rfl, -, rfl⟩ | ⟨sel, ws, rfl, -, hws, rfl⟩ | ⟨i, rfl, h⟩ | ⟨rfl, h⟩ |
      ⟨sel, rfl, h⟩ := step_cases hstep
    · exact .keep rfl rfl
    · exact .keep (countP_notifyOne WorkerPc.claims_notified hws) rfl
    · exact workerStep_tokens hs h
    · exact managerStep_tokens h
    · refine .keep ?_ (dtorStep_counters h).2.2.2.1
      obtain ⟨-, -, -, ⟨-, -, hw⟩ | ⟨-, -, hw | hw⟩⟩ := dtorStep_frame h
      · simp only [claimed, hw]
      · simp only [claimed, hw]
      · simp only [claimed, hw, countP_notifyAll WorkerPc.claims_notified]

/-- Who moves the manager. -/
theorem wakingStep_manager {s s' : State} {a : WakingAction} (h : wakingStep s a = some s') :
    (a = .pool .manager ∧ managerStep s = some s') ∨
      (a ≠ .pool .manager ∧ s'.manager = s.manager) := by
  cases a with
  | wake i =>
    obtain ⟨-, hs⟩ := Option.ite_none_right_eq_some.mp h
    cases hs
    exact .inr ⟨nofun, rfl⟩
  | pool b =>
    have hstep : step s b = some s' := h
    obtain ⟨task, rfl, -, rfl⟩ | ⟨sel, ws, rfl, -, -, rfl⟩ | ⟨i, rfl, h⟩ | ⟨rfl, h⟩ |
      ⟨sel, rfl, h⟩ := step_cases hstep
    · exact .inr ⟨nofun, rfl⟩
    · exact .inr ⟨nofun, rfl⟩
    · obtain ⟨pc, -, -, hframe⟩ := workerStep_frame h
      exact .inr ⟨nofun, hframe.manager⟩
    · exact .inl ⟨rfl, h⟩
    · exact .inr ⟨nofun, (dtorStep_counters h).2.2.2.2.2⟩

/-- The manager leaves its exit branch where it releases `m_idsMutex`. -/
theorem ManagerPc.inExit_next {s : State} {pc : ManagerPc} (hin : pc.inExit = true)
    (hout : (pc.next s).inExit = false) : pc = .unlockIds := by
  have hgoes := pc.goes_next s
  generalize pc.next s = pc' at hout hgoes
  cases hgoes with
  | unlockIds => rfl
  | stopped _ | loopHead _ | sleeping | loadIdle | loadCur | shrink _ _ | grow _ _ | again | spawn
  | insert | incCur | incIdle | exited => cases hin
  | _ => cases hout

/-! ## The budget -/

/-- Every exit has used up a token that was stored or there at the start, and so will every
    claim. -/
structure Budget (exitThread : Int) (c : Counted) : Prop where
  locked : Locked c.pool
  token : 0 < claimed c.pool → 0 < c.pool.exitThread
  used : c.exits ≤ 2 * c.stores + exitThread.toNat
  left : c.exits + (c.pool.exitThread - claimed c.pool) ≤ 2 * c.stores + exitThread.toNat

theorem start_budget (min max exitThread : Int) :
    Budget exitThread ⟨start min max exitThread, 0, 0⟩ := by
  have hclaimed : claimed (start min max exitThread) = 0 := by
    simp [claimed, start, List.countP_replicate, WorkerPc.claims]
  have htok : (start min max exitThread).exitThread = exitThread := rfl
  refine ⟨start_locked min max exitThread, ?_, Nat.zero_le _, ?_⟩
  · show 0 < claimed (start min max exitThread) → _
    omega
  · simp only [hclaimed, htok]
    omega

theorem wakingStep_locked {s s' : State} {a : WakingAction} (hs : Locked s)
    (h : wakingStep s a = some s') : Locked s' :=
  wakingStep_invariant (fun _ hs => ⟨hs.holder, hs.block_empty, hs.dtor_called⟩) step_locked hs h

theorem countedStep_budget {exitThread : Int} {c c' : Counted} {a : WakingAction}
    (hc : Budget exitThread c) (h : countedStep c a = some c') : Budget exitThread c' := by
  obtain ⟨s', hstep, rfl⟩ := Option.map_eq_some_iff.mp h
  have hmove := wakingStep_tokens hc.locked hstep
  have htoken := hc.token
  have hused := hc.used
  have hleft := hc.left
  have hlocked := wakingStep_locked hc.locked hstep
  generalize takesExit c.pool a = exits at hmove ⊢
  generalize storesTokens c.pool a = stores at hmove ⊢
  cases hmove with
  | claim htok hold hnew hsame =>
    -- the exit uses up its token with its claim
    refine ⟨hlocked, ?_, ?_, ?_⟩ <;> simp only [Bool.toNat_true, Bool.toNat_false] <;> omega
  | take hold hnew htaken =>
    refine ⟨hlocked, ?_, ?_, ?_⟩ <;> simp only [Bool.toNat_false] <;> omega
  | store hm hclaims hstored =>
    -- what was left of the last store is lost
    refine ⟨hlocked, ?_, ?_, ?_⟩ <;> simp only [Bool.toNat_true, Bool.toNat_false] <;> omega
  | keep hclaims hsame =>
    refine ⟨hlocked, ?_, ?_, ?_⟩ <;> simp only [Bool.toNat_false] <;> omega

/-- Nobody leaves without a token: there are at most two exits for every store, and those for what
    the constructor left in `m_exitThread`. -/
theorem reachable_budget {min max exitThread : Int} {c : Counted}
    (h : (countedSystem min max exitThread).Reachable c) : Budget exitThread c := by
  apply h.invariant
  · intro c hinit
    rw [show c = ⟨start min max exitThread, 0, 0⟩ from hinit]
    exact start_budget min max exitThread
  · intro c a c' hc hstep
    exact countedStep_budget hc hstep

/-! ## Exits on request -/

theorem wakingStep_stop {s s' : State} {a : WakingAction} (h : wakingStep s a = some s')
    (hstop : s.stop = true) : s'.stop = true := by
  obtain ⟨b, -, hstep⟩ | ⟨i, -, hstep⟩ := wakingStep_cases h
  · exact step_stop hstep hstop
  · exact step_stop hstep hstop

/-- A step keeps every exit requested and every token within its request, unless the manager
    leaves its exit branch with a token behind. -/
theorem countedStep_requested_iff {c c' : Counted} {a : WakingAction} (hc : Budget 0 c)
    (hP : Requested c) (h : countedStep c a = some c') : Requested c' ↔ LeavesNoToken c a := by
  have hc' := countedStep_budget hc h
  obtain ⟨s', hstep, rfl⟩ := Option.map_eq_some_iff.mp h
  constructor
  · intro hP' ha hm hstop
    subst ha
    -- the step ends the exit branch and touches neither the flag nor the tokens
    have hmoves := managerStep_moves (show managerStep c.pool = some s' from hstep)
    have hstop' : s'.stop = false := (managerStep_frame hstep).1.trans hstop
    have hout : s'.manager.inExit = false := by
      rw [hmoves.manager, hm]
      rfl
    rw [← hmoves.exitThread (by rw [hm]; simp)]
    exact (hP' hstop').2 hout
  · intro hleaves hstop'
    refine ⟨hc'.used, fun hout => ?_⟩
    have hstop : c.pool.stop = false := by
      apply Bool.eq_false_iff.mpr
      intro hset
      have hset' := wakingStep_stop hstep hset
      rw [show s'.stop = false from hstop'] at hset'
      cases hset'
    show s'.exitThread = 0
    have hout : s'.manager.inExit = false := hout
    obtain ⟨ha, hmanager⟩ | ⟨-, hsame⟩ := wakingStep_manager hstep
    · have hmoves := managerStep_moves hmanager
      rw [hmoves.manager] at hout
      by_cases hin : c.pool.manager.inExit = true
      · have hm := ManagerPc.inExit_next hin hout
        rw [hmoves.exitThread (by rw [hm]; simp)]
        exact hleaves ha hm hstop
      · -- outside it stores nothing
        have hne : c.pool.manager ≠ .storeExit := by
          intro hm
          rw [hm] at hin
          exact hin rfl
        rw [hmoves.exitThread hne]
        exact (hP hstop).2 (Bool.eq_false_iff.mpr hin)
    · rw [hsame] at hout
      have hzero := (hP hstop).2 hout
      have htoken := hc.token
      have hmove := wakingStep_tokens hc.locked hstep
      generalize takesExit c.pool a = exits at hmove
      generalize storesTokens c.pool a = stores at hmove
      cases hmove with
      | claim htok => omega
      | take hold => omega
      | store hm =>
        rw [hm] at hout
        cases hout
      | keep _ hkept => exact hkept.trans hzero

/-- Workers leave on request only, and no token outlives its request, exactly in the runs that
    find no token at the start and in which the manager never leaves its exit branch with a token
    behind. In every run the exits are bounded by the stores and by what was there at the start. -/
theorem requested_iff (min max exitThread : Int) :
    (∀ as, (countedSystem min max exitThread).Always Requested
        ⟨start min max exitThread, 0, 0⟩ as ↔
      exitThread = 0 ∧ (countedSystem min max exitThread).AllSteps LeavesNoToken
        ⟨start min max exitThread, 0, 0⟩ as) ∧
    ∀ c, (countedSystem min max exitThread).Reachable c →
      c.exits ≤ 2 * c.stores + exitThread.toNat := by
  refine ⟨fun as => ?_, fun c hreach => (reachable_budget hreach).used⟩
  by_cases hzero : exitThread = 0
  · subst hzero
    rw [eq_self, true_and]
    -- the release of `m_idsMutex` waits for nothing
    have hdisabled : ∀ c a, countedStep c a = none → LeavesNoToken c a := by
      rintro c a hnone rfl hm
      simp [countedStep, wakingStep, step, managerStep, hm] at hnone
    exact Transition.always_iff_allSteps (I := Budget 0)
      (fun _ _ _ hc h => countedStep_budget hc h) hdisabled
      (fun _ _ _ hc hP h => countedStep_requested_iff hc hP h) (start_budget min max 0)
      (fun _ => ⟨Nat.zero_le _, fun _ => rfl⟩)
  · refine iff_of_false (fun halways => ?_) fun h => hzero h.1
    have hstart : Requested ⟨start min max exitThread, 0, 0⟩ := by
      cases as with
      | nil => exact halways
      | cons a as => exact halways.1
    exact hzero ((hstart rfl).2 rfl)

/-- A token that the constructor found sends a worker away that nobody asked to leave. And in a pool
    that starts with none, the manager that has reaped one worker leaves the token of the other
    behind. -/
theorem requested_fails :
    (∃ c, (countedSystem 1 1 1).Reachable c ∧ ¬Requested c ∧ c.exits = 1 ∧ c.stores = 0) ∧
    (∃ c, (countedSystem 0 1 0).Reachable c ∧ ¬Requested c ∧ c.pool.manager = .loopHead ∧
      c.pool.exitThread = 1) := by
  constructor
  · -- the worker sleeps, is notified of a task and finds the token
    have hrun : ((countedSystem 1 1 1).run ⟨start 1 1 1, 0, 0⟩
        (List.replicate 4 (.pool (.worker 0)) ++ [.pool (.addTask ⟨0, true⟩),
          .pool (.notifyOne 0), .pool (.worker 0), .pool (.worker 0)])).any (fun c =>
        decide (¬Requested c ∧ c.exits = 1 ∧ c.stores = 0)) = true := by decide +kernel
    exact Transition.exists_reachable_of_run rfl hrun
  · have hrun : ((countedSystem 0 1 0).run ⟨start 0 1 0, 0, 0⟩
        (reapSchedule ++ .pool (.worker 0) :: List.replicate 5 (.pool .manager))).any (fun c =>
        decide (¬Requested c ∧ c.pool.manager = .loopHead ∧ c.pool.exitThread = 1)) = true := by
      decide +kernel
    exact Transition.exists_reachable_of_run rfl hrun

end ThreadPool
