import AsyncLogStorage.Spec.ThreadPoolDrain

/-!
# The pool comes to rest

After the stop the workers only go towards their end, and whoever waits for one of the two
mutexes waits for a thread that goes on. So the pool comes to rest: every worker has ended
or sleeps, and no notification is on its way.

## Key results

- `reachable_mutexes`: who holds the two mutexes
- `exists_run_atRest`: after the stop the workers can always run to their end
-/

namespace ThreadPool

/-- Worker `i` is at a position of `p`. -/
def isAt (p : WorkerPc → Bool) (ws : List WorkerPc) (i : Nat) : Bool := (ws[i]?).any p

section Positions

variable {p : WorkerPc → Bool}

theorem isAt_of_getElem? {ws : List WorkerPc} {i : Nat} {pc : WorkerPc} (h : ws[i]? = some pc) :
    isAt p ws i = p pc := by
  rw [isAt, h, Option.any_some]

theorem exists_of_isAt {ws : List WorkerPc} {i : Nat} (h : isAt p ws i = true) :
    ∃ pc, ws[i]? = some pc ∧ p pc = true :=
  Option.any_eq_true _ _ |>.mp h

/-- A worker step moves its own worker. -/
theorem WorkerFrame.isAt {s s' : State} {i : Nat} {pc : WorkerPc} (hframe : WorkerFrame s s' i pc)
    (hpc : s.workers[i]? = some pc) (j : Nat) :
    isAt p s'.workers j = if i = j then p (pc.next s) else isAt p s.workers j := by
  have hlt : i < s.workers.length := (List.getElem?_eq_some_iff.mp hpc).1
  rw [hframe.workers]
  by_cases hij : i = j
  · subst hij
    rw [if_pos rfl]
    exact isAt_of_getElem? (List.getElem?_set_self hlt)
  · rw [if_neg hij, ThreadPool.isAt, List.getElem?_set_ne hij]
    rfl

variable (hp : ∀ pc : WorkerPc, p pc.notified = p pc)

include hp

theorem isAt_notifyAll (ws : List WorkerPc) (i : Nat) : isAt p (notifyAll ws) i = isAt p ws i := by
  rw [isAt, isAt, notifyAll, List.getElem?_map]
  cases ws[i]? with
  | none => rfl
  | some pc => exact hp pc

theorem isAt_notifyOne {ws ws' : List WorkerPc} {sel : Nat} (h : notifyOne ws sel = some ws')
    (i : Nat) : isAt p ws' i = isAt p ws i := by
  obtain ⟨hsel, rfl⟩ | ⟨-, rfl⟩ := notifyOne_cases h
  · have hlt : sel < ws.length := (List.getElem?_eq_some_iff.mp hsel).1
    by_cases hi : sel = i
    · subst hi
      rw [isAt_of_getElem? hsel, isAt_of_getElem? (List.getElem?_set_self hlt)]
      exact hp .asleep
    · rw [isAt, List.getElem?_set_ne hi]
      rfl
  · rfl

variable (hnew : p .loopHead = false)

include hnew

omit hp in
theorem isAt_spawn (ws : List WorkerPc) (i : Nat) : isAt p (ws ++ [.loopHead]) i = isAt p ws i := by
  rw [isAt, isAt, List.getElem?_append]
  split
  · rfl
  · rename_i hi
    rw [List.getElem?_eq_none (Nat.le_of_not_lt hi)]
    cases h : [WorkerPc.loopHead][i - ws.length]? with
    | none => rfl
    | some pc =>
      rw [List.mem_singleton.mp (List.mem_of_getElem? h)]
      exact hnew

theorem managerStep_isAt {s s' : State} (h : managerStep s = some s') (i : Nat) :
    isAt p s'.workers i = isAt p s.workers i := by
  obtain ⟨-, -, -, -, -, ⟨-, hw⟩ | ⟨-, hw⟩ | ⟨-, hw⟩⟩ := managerStep_frame h
  · rw [hw, isAt_notifyAll hp]
  · rw [hw, isAt_spawn hnew]
  · rw [hw]

omit hnew in
theorem dtorStep_isAt {s s' : State} {sel : Nat} (h : dtorStep s sel = some s') (i : Nat) :
    isAt p s'.workers i = isAt p s.workers i := by
  obtain ⟨-, -, -, ⟨-, -, hw⟩ | ⟨-, -, hw | hw⟩⟩ := dtorStep_frame h
  · rw [hw]
  · rw [hw]
  · rw [hw, isAt_notifyAll hp]

end Positions

/-! ## The mutexes -/

/-- The worker is in its section under `m_idsMutex`. -/
def WorkerPc.holdsIds : WorkerPc → Bool
  | .exitPush | .exitUnlockIds => true
  | _ => false

/-- The worker has left its id. -/
def WorkerPc.hasLeft : WorkerPc → Bool
  | .exitUnlockIds | .exitUnlockQueue | .exited => true
  | _ => false

/-- The manager is in its section under `m_idsMutex`. -/
def ManagerPc.holdsIds : ManagerPc → Bool
  | .reap _ | .reapJoinable _ | .reapJoin _ | .reapErase _ | .clearIds | .unlockIds => true
  | _ => false

/-- The ids that the manager still has to go through. -/
def ManagerPc.reaping : ManagerPc → List Nat
  | .reap ids | .reapJoinable ids | .reapJoin ids | .reapErase ids => ids
  | _ => []

/-- The manager is at the first of these ids. -/
def ManagerPc.atHead : ManagerPc → Bool
  | .reapJoinable _ | .reapJoin _ | .reapErase _ => true
  | _ => false

/-- What holds of the mutexes and the ids in every reachable state. -/
structure Mutexes (s : State) : Prop where
  queue : ∀ i, s.queueMutex = some i → isAt WorkerPc.holdsQueue s.workers i = true
  worker : ∀ i, s.idsMutex = some (.worker i) ↔ isAt WorkerPc.holdsIds s.workers i = true
  manager : s.idsMutex = some .manager ↔ s.manager.holdsIds = true
  ids : ∀ id ∈ s.ids, isAt WorkerPc.hasLeft s.workers id = true
  reaping : ∀ id ∈ s.manager.reaping, id ∈ s.ids
  head : s.manager.atHead = true → s.manager.reaping ≠ []

theorem workerStepAt_idsMutex {s s' : State} {i : Nat} {pc : WorkerPc}
    (h : workerStepAt s i pc = some s') :
    (pc = .exitLockIds ∧ s.idsMutex = none ∧ s'.idsMutex = some (.worker i)) ∨
    (pc = .exitUnlockIds ∧ s'.idsMutex = none) ∨
    (pc ≠ .exitLockIds ∧ pc ≠ .exitUnlockIds ∧ s'.idsMutex = s.idsMutex) := by
  cases pc with
  | asleep | exited => cases h
  | exitLockIds =>
    obtain ⟨hfree, hs⟩ := Option.ite_none_right_eq_some.mp h
    cases hs
    exact .inl ⟨rfl, hfree, rfl⟩
  | exitUnlockIds =>
    cases h
    exact .inr (.inl ⟨rfl, rfl⟩)
  | acquire | woken =>
    obtain ⟨-, hs⟩ := Option.ite_none_right_eq_some.mp h
    cases hs
    exact .inr (.inr ⟨by simp, by simp, rfl⟩)
  | take =>
    simp only [workerStepAt] at h
    split at h <;> cases h <;> exact .inr (.inr ⟨by simp, by simp, rfl⟩)
  | _ =>
    cases h
    exact .inr (.inr ⟨by simp, by simp, rfl⟩)

theorem WorkerPc.holdsIds_next {s : State} {pc : WorkerPc} :
    (pc.next s).holdsIds = true ↔ pc = .exitLockIds ∨ pc = .exitPush := by
  have hgoes := pc.goes_next s
  generalize pc.next s = pc' at hgoes ⊢
  cases hgoes <;> simp [holdsIds]

theorem WorkerPc.hasLeft_next {s : State} {pc : WorkerPc}
    (h : pc.hasLeft = true ∨ pc = .exitPush) : (pc.next s).hasLeft = true := by
  obtain h | rfl := h
  · cases pc with
    | exitUnlockIds | exitUnlockQueue | exited => rfl
    | _ => cases h
  · rfl

/-- The manager is in its section from `lockIds` on, up to `unlockIds`. -/
theorem ManagerPc.holdsIds_next {s : State} {pc : ManagerPc} :
    (pc.next s).holdsIds = true ↔ pc = .lockIds ∨ (pc.holdsIds = true ∧ pc ≠ .unlockIds) := by
  have hgoes := pc.goes_next s
  generalize pc.next s = pc' at hgoes ⊢
  cases hgoes <;> simp [holdsIds]

/-- The manager goes through the ids that it finds. -/
theorem ManagerPc.reaping_next {s : State} {pc : ManagerPc} {id : Nat}
    (h : id ∈ (pc.next s).reaping) : id ∈ pc.reaping ∨ (pc = .lockIds ∧ id ∈ s.ids) := by
  have hgoes := pc.goes_next s
  generalize pc.next s = pc' at h hgoes
  cases hgoes with
  | lockIds => exact .inr ⟨rfl, h⟩
  | find _ | joinable _ | unjoinable _ | join => exact .inl h
  | pass => exact .inl (List.mem_cons_of_mem _ h)
  | erase => exact .inl (List.mem_of_mem_tail h)
  | _ => cases h

/-- There is a first id as long as the manager is at it. -/
theorem ManagerPc.reaping_next_ne_nil {s : State} {pc : ManagerPc}
    (hne : pc.atHead = true → pc.reaping ≠ []) (h : (pc.next s).atHead = true) :
    (pc.next s).reaping ≠ [] := by
  have hgoes := pc.goes_next s
  generalize pc.next s = pc' at h hgoes ⊢
  cases hgoes with
  | find _ => exact List.cons_ne_nil _ _
  | joinable _ | unjoinable _ | join => exact hne rfl
  | _ => cases h

/-- The holder of `m_queueMutex` is inside its section after a worker step. -/
private theorem WorkerFrame.queue_isAt {s s' : State} {i j : Nat} {pc : WorkerPc} (hs : Mutexes s)
    (hframe : WorkerFrame s s' i pc) (hpc : s.workers[i]? = some pc)
    (hj : s'.queueMutex = some j) : ThreadPool.isAt WorkerPc.holdsQueue s'.workers j = true := by
  rw [hframe.isAt hpc]
  rw [hframe.queueMutex] at hj
  by_cases hij : i = j
  · rw [if_pos hij]
    split at hj
    · rename_i hnext
      exact hnext
    · split at hj
      · cases hj
      · -- it held the mutex outside its section
        rename_i hout
        have hold := hs.queue j hj
        rw [← hij, isAt_of_getElem? hpc] at hold
        exact absurd hold hout
  · rw [if_neg hij]
    split at hj
    · split at hj
      · exact hs.queue j hj
      · exact absurd (Option.some.inj hj) hij
    · split at hj
      · cases hj
      · exact hs.queue j hj

/-- A worker holds `m_idsMutex` after a worker step exactly if it is inside its section. -/
private theorem WorkerFrame.idsMutex_iff {s s' : State} {i : Nat} {pc : WorkerPc} (hs : Mutexes s)
    (hframe : WorkerFrame s s' i pc) (hpc : s.workers[i]? = some pc)
    (hstep : workerStepAt s i pc = some s') (j : Nat) :
    s'.idsMutex = some (.worker j) ↔ ThreadPool.isAt WorkerPc.holdsIds s'.workers j = true := by
  have howner := hs.worker i
  rw [isAt_of_getElem? hpc] at howner
  rw [hframe.isAt hpc]
  by_cases hij : i = j
  · subst hij
    have hnext : (pc.next s).holdsIds = true ↔ _ := WorkerPc.holdsIds_next
    rw [if_pos rfl, hnext]
    obtain ⟨rfl, -, hmutex⟩ | ⟨rfl, hmutex⟩ | ⟨hlock, hunlock, hmutex⟩ :=
      workerStepAt_idsMutex hstep
    · exact iff_of_true hmutex (.inl rfl)
    · rw [hmutex]
      exact iff_of_false nofun nofun
    · rw [hmutex, howner]
      cases pc <;> simp_all [WorkerPc.holdsIds]
  · rw [if_neg hij, ← hs.worker j]
    obtain ⟨-, hfree, hmutex⟩ | ⟨rfl, hmutex⟩ | ⟨-, -, hmutex⟩ := workerStepAt_idsMutex hstep
    · rw [hmutex, hfree]
      refine iff_of_false (fun heq => hij ?_) nofun
      exact Owner.worker.inj (Option.some.inj heq)
    · rw [hmutex, howner.mpr rfl]
      refine iff_of_false nofun fun heq => hij ?_
      exact Owner.worker.inj (Option.some.inj heq)
    · rw [hmutex]

private theorem workerStep_mutexes {s s' : State} {i : Nat} (hs : Mutexes s)
    (h : workerStep s i = some s') : Mutexes s' := by
  obtain ⟨pc, hpc, hstep, hframe⟩ := workerStep_frame h
  have hids := (workerStepAt_tokens hstep).1
  refine ⟨fun j hj => hframe.queue_isAt hs hpc hj, hframe.idsMutex_iff hs hpc hstep, ?_,
    fun id hid => ?_, fun id hid => ?_, ?_⟩
  · rw [hframe.manager, ← hs.manager]
    obtain ⟨-, hfree, hmutex⟩ | ⟨rfl, hmutex⟩ | ⟨-, -, hmutex⟩ := workerStepAt_idsMutex hstep
    · rw [hmutex, hfree]
      exact iff_of_false nofun nofun
    · rw [hmutex, (hs.worker i).mpr (isAt_of_getElem? hpc)]
      exact iff_of_false nofun nofun
    · rw [hmutex]
  · rw [hframe.isAt hpc]
    have hleft : id ∈ s.ids ∨ (pc = .exitPush ∧ id = i) := by
      rw [hids] at hid
      split at hid
      · rename_i hpush
        exact (List.mem_append.mp hid).imp_right fun h => ⟨hpush, List.mem_singleton.mp h⟩
      · exact .inl hid
    by_cases hij : i = id
    · rw [if_pos hij]
      refine WorkerPc.hasLeft_next (hleft.imp (fun hmem => ?_) And.left)
      rw [← isAt_of_getElem? (p := WorkerPc.hasLeft) hpc, hij]
      exact hs.ids id hmem
    · rw [if_neg hij]
      exact hs.ids id (hleft.resolve_right fun h => hij h.2.symm)
  · rw [hframe.manager] at hid
    rw [hids]
    split
    · exact List.mem_append_left _ (hs.reaping id hid)
    · exact hs.reaping id hid
  · rw [hframe.manager]
    exact hs.head

/-- What a step of the manager keeps of the ids and their mutex. -/
private def KeepsIds (s s' : State) : Prop :=
  (∀ i, s'.idsMutex = some (.worker i) ↔ s.idsMutex = some (.worker i)) ∧
    (s'.idsMutex = some .manager ↔ s'.manager.holdsIds = true) ∧
    (∀ id ∈ s'.ids, id ∈ s.ids) ∧ (∀ id ∈ s'.manager.reaping, id ∈ s'.ids) ∧
    (s'.manager.atHead = true → s'.manager.reaping ≠ [])

/-- A step of the manager that neither takes nor frees the mutex and keeps the ids. -/
private theorem Mutexes.keepsIds {s s' : State} (hs : Mutexes s)
    (hmutex : s'.idsMutex = s.idsMutex) (hids : s'.ids = s.ids)
    (hholds : s'.manager.holdsIds = s.manager.holdsIds)
    (hreap : ∀ id ∈ s'.manager.reaping, id ∈ s.manager.reaping)
    (hhead : s'.manager.atHead = true → s'.manager.reaping ≠ []) : KeepsIds s s' := by
  refine ⟨fun i => by rw [hmutex], by rw [hmutex, hholds, hs.manager], fun id hid => ?_,
    fun id hid => ?_, hhead⟩
  · rw [hids] at hid
    exact hid
  · rw [hids]
    exact hs.reaping id (hreap id hid)

/-- The manager takes `m_idsMutex` and goes through the ids that are there. -/
private theorem managerStep_keepsIds {s s' : State} (hs : Mutexes s)
    (h : managerStep s = some s') : KeepsIds s s' := by
  have hframe := managerStep_moves h
  have hnext : s'.manager.holdsIds = true ↔ _ := hframe.manager ▸ ManagerPc.holdsIds_next
  refine ⟨fun i => ?_, ?_, fun id hid => ?_, fun id hid => ?_, fun hhead => ?_⟩
  · rw [hframe.idsMutex]
    split
    · rename_i hm
      rw [hframe.locked hm]
      exact iff_of_false nofun nofun
    · split
      · rename_i hm
        rw [hs.manager.mpr (by rw [hm]; rfl)]
        exact iff_of_false nofun nofun
      · exact Iff.rfl
  · rw [hnext, hframe.idsMutex]
    split
    · rename_i hm
      exact iff_of_true rfl (.inl hm)
    · rename_i hlock
      split
      · rename_i hm
        exact iff_of_false nofun (by simp [hm])
      · rename_i hunlock
        rw [hs.manager]
        simp [hlock, hunlock]
  · rw [hframe.ids] at hid
    split at hid
    · cases hid
    · exact hid
  · rw [hframe.manager] at hid
    have hclear : s.manager ≠ .clearIds := by
      intro hm
      rw [hm] at hid
      cases hid
    rw [hframe.ids, if_neg hclear]
    obtain hmem | ⟨-, hmem⟩ := ManagerPc.reaping_next hid
    · exact hs.reaping id hmem
    · exact hmem
  · rw [hframe.manager] at hhead ⊢
    exact ManagerPc.reaping_next_ne_nil hs.head hhead

theorem WorkerPc.holdsQueue_notified (pc : WorkerPc) : pc.notified.holdsQueue = pc.holdsQueue := by
  cases pc <;> rfl

theorem WorkerPc.holdsIds_notified (pc : WorkerPc) : pc.notified.holdsIds = pc.holdsIds := by
  cases pc <;> rfl

theorem WorkerPc.hasLeft_notified (pc : WorkerPc) : pc.notified.hasLeft = pc.hasLeft := by
  cases pc <;> rfl

/-- A step that leaves the workers where the mutexes are concerned. -/
private theorem Mutexes.of_workers {s s' : State} (hs : Mutexes s)
    (hworkers : ∀ p : WorkerPc → Bool, (∀ pc, p pc.notified = p pc) → p .loopHead = false →
      ∀ i, isAt p s'.workers i = isAt p s.workers i)
    (hqueue : s'.queueMutex = s.queueMutex ∨ s'.queueMutex = none) (hids : KeepsIds s s') :
    Mutexes s' := by
  obtain ⟨hworker, hmanager, hmem, hreap, hhead⟩ := hids
  refine ⟨fun i hi => ?_, fun i => ?_, hmanager, fun id hid => ?_, hreap, hhead⟩
  · rw [hworkers _ WorkerPc.holdsQueue_notified rfl]
    obtain hq | hq := hqueue
    · rw [hq] at hi
      exact hs.queue i hi
    · rw [hq] at hi
      cases hi
  · rw [hworkers _ WorkerPc.holdsIds_notified rfl, hworker, hs.worker]
  · rw [hworkers _ WorkerPc.hasLeft_notified rfl]
    exact hs.ids id (hmem id hid)

theorem dtorStep_idsMutex {s s' : State} {sel : Nat} (h : dtorStep s sel = some s') :
    s'.idsMutex = s.idsMutex := by
  unfold dtorStep at h
  repeat' split at h
  all_goals
    cases h
    try rfl

theorem step_mutexes {s s' : State} {a : Action} (hs : Mutexes s) (h : step s a = some s') :
    Mutexes s' := by
  have hkeep : KeepsIds s s :=
    ⟨fun _ => Iff.rfl, hs.manager, fun _ h => h, hs.reaping, hs.head⟩
  obtain ⟨task, -, -, rfl⟩ | ⟨sel, ws, -, -, hws, rfl⟩ | ⟨i, -, h⟩ | ⟨-, h⟩ | ⟨sel, -, h⟩ :=
    step_cases h
  · exact hs.of_workers (fun _ _ _ _ => rfl) (.inl rfl) hkeep
  · exact hs.of_workers (fun _ hp _ => isAt_notifyOne hp hws) (.inl rfl) hkeep
  · exact workerStep_mutexes hs h
  · exact hs.of_workers (fun _ hp hnew => managerStep_isAt hp hnew h)
      (.inl (managerStep_frame h).2.2.1) (managerStep_keepsIds hs h)
  · obtain ⟨-, -, -, -, hids, hmanager⟩ := dtorStep_counters h
    refine hs.of_workers (fun _ hp _ => dtorStep_isAt hp h) (.inl (dtorStep_frame h).2.1) ?_
    refine hs.keepsIds (dtorStep_idsMutex h) hids (by rw [hmanager]) ?_ ?_
    · rw [hmanager]
      exact fun _ hid => hid
    · rw [hmanager]
      exact hs.head

theorem start_mutexes (min max exitThread : Int) : Mutexes (start min max exitThread) := by
  refine ⟨nofun, fun i => iff_of_false nofun ?_, iff_of_false nofun nofun, nofun, nofun, nofun⟩
  intro hat
  obtain ⟨pc, hpc, hholds⟩ := exists_of_isAt hat
  rw [List.eq_of_mem_replicate (List.mem_of_getElem? hpc)] at hholds
  cases hholds

theorem reachable_mutexes {min max exitThread : Int} {s : State}
    (h : (system min max exitThread).Reachable s) : Mutexes s :=
  reachable_invariant (start_mutexes min max exitThread) step_mutexes h

/-! ## The way to rest -/

/-- After the stop no worker will go on, and no notification is on its way. -/
structure AtRest (s : State) : Prop where
  stop : s.stop = true
  notified : s.dtor.notified = true
  pendingNotify : s.pendingNotify = 0
  workers : ∀ pc ∈ s.workers, pc = .asleep ∨ pc = .exited

/-- The steps that a worker at `pc` can still take after the stop, unless it sleeps. -/
def WorkerPc.left : WorkerPc → Nat
  | .asleep | .exited => 0
  | .loopHead | .block | .exitUnlockQueue => 1
  | .runInc | .exitUnlockIds => 2
  | .running _ | .exitPush => 3
  | .runDec _ | .exitLockIds => 4
  | .release _ | .exitTok => 5
  | .take | .exitIdle => 6
  | .testWait | .exitCur => 7
  | .acquire | .checkExit => 8
  | .woken => 9

/-- The steps that the manager can still take in its section under `m_idsMutex`. -/
def ManagerPc.left : ManagerPc → Nat
  | .reap ids => 4 * ids.length + 3
  | .reapJoinable ids => 4 * ids.tail.length + 6
  | .reapJoin ids => 4 * ids.tail.length + 5
  | .reapErase ids => 4 * ids.tail.length + 4
  | .clearIds => 2
  | .unlockIds => 1
  | _ => 0

/-- The steps that all workers can still take. -/
def workersLeft : List WorkerPc → Nat
  | [] => 0
  | pc :: ws => pc.left + workersLeft ws

/-- How far the pool is from its rest. A notification can send one sleeper on its way. -/
def State.left (s : State) : Nat :=
  workersLeft s.workers + 10 * s.pendingNotify + s.manager.left

theorem workersLeft_set {ws : List WorkerPc} {i : Nat} {pc : WorkerPc} (pc' : WorkerPc)
    (h : ws[i]? = some pc) : workersLeft (ws.set i pc') + pc.left = workersLeft ws + pc'.left := by
  induction ws generalizing i with
  | nil => cases h
  | cons x ws ih =>
    cases i with
    | zero =>
      rw [List.getElem?_cons_zero] at h
      cases h
      simp only [List.set_cons_zero, workersLeft]
      omega
    | succ i =>
      rw [List.getElem?_cons_succ] at h
      have := ih h
      simp only [List.set_cons_succ, workersLeft]
      omega

/-- A step of the threads that does not start anything new. -/
def Action.windsDown : Action → Bool
  | .notifyOne _ | .worker _ | .manager => true
  | _ => false

/-- The pool can make a step towards its rest. -/
def Progresses (s : State) : Prop :=
  ∃ a s', a.windsDown = true ∧ step s a = some s' ∧ s'.left < s.left

theorem WorkerPc.left_next {s : State} {pc : WorkerPc} (hstop : s.stop = true)
    (hasleep : pc ≠ .asleep) (hexited : pc ≠ .exited) : (pc.next s).left < pc.left := by
  have hgoes := pc.goes_next s
  generalize pc.next s = pc' at hgoes ⊢
  cases hgoes with
  | asleep => exact absurd rfl hasleep
  | exited => exact absurd rfl hexited
  | loopHead hrun | wait _ hrun =>
    rw [hstop] at hrun
    cases hrun
  | _ => simp [left]

theorem progresses_of_worker {s s' : State} {i : Nat} (hstop : s.stop = true)
    (h : workerStep s i = some s') : Progresses s := by
  obtain ⟨pc, hpc, hstep, hframe⟩ := workerStep_frame h
  refine ⟨.worker i, s', rfl, h, ?_⟩
  have hsum := workersLeft_set (pc.next s) hpc
  have hless : (pc.next s).left < pc.left := by
    apply WorkerPc.left_next hstop
    · rintro rfl
      cases hstep
    · rintro rfl
      cases hstep
  rw [← hframe.workers] at hsum
  simp only [State.left, hframe.pendingNotify, hframe.manager]
  omega

theorem progresses_of_notify {s : State} (h : 0 < s.pendingNotify) : Progresses s := by
  by_cases hasleep : .asleep ∈ s.workers
  · obtain ⟨i, hi⟩ := List.getElem?_of_mem hasleep
    have hany : s.workers.any WorkerPc.isAsleep = true :=
      List.any_eq_true.mpr ⟨.asleep, hasleep, rfl⟩
    refine ⟨.notifyOne i, { s with
      workers := s.workers.set i .woken, pendingNotify := s.pendingNotify - 1 }, rfl, ?_, ?_⟩
    · simp only [step, h, ↓reduceIte, notifyOne, hany, hi, Option.map_some]
    · have hsum := workersLeft_set .woken hi
      simp only [WorkerPc.left] at hsum
      simp only [State.left]
      omega
  · have hany : ¬s.workers.any WorkerPc.isAsleep = true := by
      intro hany
      obtain ⟨pc, hmem, hpc⟩ := List.any_eq_true.mp hany
      cases pc with
      | asleep => exact hasleep hmem
      | _ => cases hpc
    refine ⟨.notifyOne 0, { s with pendingNotify := s.pendingNotify - 1 }, rfl, ?_, ?_⟩
    · simp only [step, h, ↓reduceIte, notifyOne, hany, Option.map_some, Bool.false_eq_true]
    · simp only [State.left]
      omega

/-- A worker that cannot go on waits for one of the two mutexes. -/
theorem workerStepAt_eq_none {s : State} {i : Nat} {pc : WorkerPc}
    (h : workerStepAt s i pc = none) :
    pc = .asleep ∨ pc = .exited ∨ ((pc = .acquire ∨ pc = .woken) ∧ s.queueMutex ≠ none) ∨
      (pc = .exitLockIds ∧ s.idsMutex ≠ none) := by
  cases pc with
  | asleep => exact .inl rfl
  | exited => exact .inr (.inl rfl)
  | acquire =>
    refine .inr (.inr (.inl ⟨.inl rfl, fun hfree => ?_⟩))
    simp [workerStepAt, hfree] at h
  | woken =>
    refine .inr (.inr (.inl ⟨.inr rfl, fun hfree => ?_⟩))
    simp [workerStepAt, hfree] at h
  | exitLockIds =>
    refine .inr (.inr (.inr ⟨rfl, fun hfree => ?_⟩))
    simp [workerStepAt, hfree] at h
  | take =>
    simp only [workerStepAt] at h
    split at h <;> cases h
  | _ => cases h

/-- In its section the manager only goes on. -/
theorem ManagerPc.left_next {s : State} {pc : ManagerPc} (hin : pc.holdsIds = true) :
    (pc.next s).left < pc.left := by
  have hgoes := pc.goes_next s
  generalize pc.next s = pc' at hgoes ⊢
  cases hgoes with
  | find _ | pass =>
    simp only [left, List.length_cons, List.tail_cons]
    omega
  | joinable _ | unjoinable _ | join | erase =>
    simp only [left]
    omega
  | done | clearIds | unlockIds => simp [left]
  | _ => cases hin

theorem managerStep_left {s s' : State} (hin : s.manager.holdsIds = true)
    (h : managerStep s = some s') :
    s'.workers = s.workers ∧ s'.pendingNotify = s.pendingNotify ∧
      s'.manager.left < s.manager.left := by
  obtain ⟨-, -, -, hpending, -, ⟨hm, -⟩ | ⟨hm, -⟩ | ⟨-, hw⟩⟩ := managerStep_frame h
  · rw [hm] at hin
    cases hin
  · rw [hm] at hin
    cases hin
  · rw [(managerStep_moves h).manager]
    exact ⟨hw, hpending, ManagerPc.left_next hin⟩

/-- In its section the manager can only wait for the first of its ids. -/
theorem managerStep_eq_none {s : State} (hin : s.manager.holdsIds = true)
    (h : managerStep s = none) :
    ∃ ids, s.manager = .reapJoin ids ∧ s.workers[ids.headD 0]? ≠ some .exited := by
  cases hm : s.manager with
  | reapJoin ids =>
    refine ⟨ids, rfl, fun hexited => ?_⟩
    simp only [managerStep, hm, hexited, ↓reduceIte, reduceCtorEq] at h
  | reap ids => cases ids <;> simp [managerStep, hm] at h
  | reapJoinable | reapErase | clearIds | unlockIds => simp [managerStep, hm] at h
  | _ =>
    rw [hm] at hin
    cases hin

/-- The manager goes through its section, or waits for a worker that is about to end. -/
private theorem progresses_of_manager {s : State} (hs : Mutexes s) (hstop : s.stop = true)
    (hheld : s.idsMutex = some .manager) : Progresses s := by
  have hin := hs.manager.mp hheld
  cases hstep : managerStep s with
  | some s' =>
    obtain ⟨hworkers, hpending, hless⟩ := managerStep_left hin hstep
    refine ⟨.manager, s', rfl, hstep, ?_⟩
    simp only [State.left, hworkers, hpending]
    omega
  | none =>
    obtain ⟨ids, hm, hrunning⟩ := managerStep_eq_none hin hstep
    have hne := hs.head (by rw [hm]; rfl)
    have hmem := hs.reaping
    rw [hm] at hne hmem
    cases ids with
    | nil => exact absurd rfl hne
    | cons id rest =>
      -- the worker that left the id has freed `m_idsMutex`
      obtain ⟨pc, hpc, hleft⟩ := exists_of_isAt (hs.ids id (hmem id List.mem_cons_self))
      cases pc with
      | exited => exact absurd hpc hrunning
      | exitUnlockQueue =>
        have hstep : workerStep s id = some { s.goto id .exited with queueMutex := none } := by
          simp only [workerStep, hpc, Option.bind_some, workerStepAt]
        exact progresses_of_worker hstop hstep
      | exitUnlockIds =>
        have howner := (hs.worker id).mpr (isAt_of_getElem? hpc)
        rw [hheld] at howner
        cases howner
      | _ => cases hleft

/-- Who waits for `m_idsMutex` waits for somebody who goes on. -/
private theorem progresses_of_idsMutex {s : State} (hs : Mutexes s) (hstop : s.stop = true)
    (hheld : s.idsMutex ≠ none) : Progresses s := by
  cases howner : s.idsMutex with
  | none => exact absurd howner hheld
  | some owner =>
    cases owner with
    | manager => exact progresses_of_manager hs hstop howner
    | worker i =>
      obtain ⟨pc, hpc, hholds⟩ := exists_of_isAt ((hs.worker i).mp howner)
      cases hstep : workerStepAt s i pc with
      | some s' =>
        have hstep' : workerStep s i = some s' := by rw [workerStep, hpc, Option.bind_some, hstep]
        exact progresses_of_worker hstop hstep'
      | none =>
        obtain rfl | rfl | ⟨rfl | rfl, -⟩ | ⟨rfl, -⟩ := workerStepAt_eq_none hstep <;> cases hholds

/-- As long as the pool is not at rest, somebody goes on. -/
theorem progresses_of_not_atRest {s : State} (hs : Mutexes s) (hstop : s.stop = true)
    (hd : s.dtor.notified = true) (hrest : ¬AtRest s) : Progresses s := by
  by_cases hpending : 0 < s.pendingNotify
  · exact progresses_of_notify hpending
  · -- some worker is up
    have hup : ¬∀ pc ∈ s.workers, pc = .asleep ∨ pc = .exited := fun hworkers =>
      hrest ⟨hstop, hd, by omega, hworkers⟩
    simp only [Classical.not_forall, not_or] at hup
    obtain ⟨pc, hmem, hasleep, hexited⟩ := hup
    obtain ⟨i, hpc⟩ := List.getElem?_of_mem hmem
    cases hstep : workerStepAt s i pc with
    | some s' =>
      have hstep' : workerStep s i = some s' := by rw [workerStep, hpc, Option.bind_some, hstep]
      exact progresses_of_worker hstop hstep'
    | none =>
      obtain h | h | ⟨-, hheld⟩ | ⟨-, hheld⟩ := workerStepAt_eq_none hstep
      · exact absurd h hasleep
      · exact absurd h hexited
      · -- it waits for the queue, and the holder goes on or waits for the ids
        cases howner : s.queueMutex with
        | none => exact absurd howner hheld
        | some j =>
          obtain ⟨pcj, hpcj, hholds⟩ := exists_of_isAt (hs.queue j howner)
          cases hstepj : workerStepAt s j pcj with
          | some s' =>
            have hstep' : workerStep s j = some s' := by
              rw [workerStep, hpcj, Option.bind_some, hstepj]
            exact progresses_of_worker hstop hstep'
          | none =>
            obtain rfl | rfl | ⟨rfl | rfl, -⟩ | ⟨-, hids⟩ := workerStepAt_eq_none hstepj
            · cases hholds
            · cases hholds
            · cases hholds
            · cases hholds
            · exact progresses_of_idsMutex hs hstop hids
      · exact progresses_of_idsMutex hs hstop hheld

/-- Winding down leaves the destructor where it is. -/
theorem dtor_of_windsDown {s s' : State} {a : Action} (ha : a.windsDown = true)
    (h : step s a = some s') : s'.dtor = s.dtor := by
  obtain ⟨task, rfl, -, -⟩ | ⟨sel, ws, -, -, -, rfl⟩ | ⟨i, -, h⟩ | ⟨-, h⟩ | ⟨sel, rfl, -⟩ :=
    step_cases h
  · cases ha
  · rfl
  · obtain ⟨pc, -, -, hframe⟩ := workerStep_frame h
    exact hframe.dtor
  · exact (managerStep_frame h).2.2.2.2.1
  · cases ha

/-- After the stop the threads that are there can run until the pool is at rest. -/
theorem exists_run_atRest {min max exitThread : Int} {s : State}
    (hreach : (system min max exitThread).Reachable s) (hstop : s.stop = true)
    (hd : s.dtor.notified = true) :
    ∃ as s', (∀ a ∈ as, a.windsDown = true) ∧ (system min max exitThread).run s as = some s' ∧
      AtRest s' := by
  induction hn : s.left using Nat.strongRecOn generalizing s with
  | ind n ih =>
    by_cases hrest : AtRest s
    · exact ⟨[], s, nofun, rfl, hrest⟩
    · obtain ⟨a, s₁, ha, hstep, hless⟩ :=
        progresses_of_not_atRest (reachable_mutexes hreach) hstop hd hrest
      have hreach₁ : (system min max exitThread).Reachable s₁ := hreach.step hstep
      obtain ⟨as, s', has, hrun, hrest'⟩ := ih s₁.left (hn ▸ hless) hreach₁ (step_stop hstep hstop)
        (by rw [dtor_of_windsDown ha hstep, hd]) rfl
      refine ⟨a :: as, s', List.forall_mem_cons.mpr ⟨ha, has⟩, ?_, hrest'⟩
      exact (Transition.run_cons_eq_some _).mpr ⟨s₁, hstep, hrun⟩

end ThreadPool
