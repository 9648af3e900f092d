import AsyncLogStorage.Spec.ThreadPoolInvariant

/-!
# The minimum of the thread pool

The manager releases two exit tokens at a time, but it has only compared `m_curThread` with
the minimum. If there is room for one more worker than the minimum, all idle workers and
the new one go to sleep, and two of them take the exit branch.

## Key results

- `step_liveWorkers`: which steps take a live worker away
- `reachable_keepsMinimum`: a pool that cannot grow keeps its minimum
- `keepsMinimum_iff`: which pools and which runs keep their minimum
-/

namespace ThreadPool

/-! ## Live workers -/

/-- The worker has not gone past the exit branch. -/
def WorkerPc.stays (pc : WorkerPc) : Bool := !pc.leaving && !(pc == .exited)

/-- The number of threads that were started and have not gone past the exit branch. -/
def liveWorkers (s : State) : Nat := s.workers.countP WorkerPc.stays

/-- Until the stop there are at least `min` live workers. -/
def KeepsMinimum (min : Int) (s : State) : Prop := s.stop = false → min ≤ liveWorkers s

instance {min : Int} {s : State} : Decidable (KeepsMinimum min s) :=
  inferInstanceAs (Decidable (_ → _))

/-- A worker takes the exit branch only if there are more than `min` live workers. -/
def ExitsAboveMinimum (min : Int) (s : State) (a : Action) : Prop :=
  ∀ i, a = .worker i → s.workers[i]? = some .checkExit → s.stop = false → 0 < s.exitThread →
    min < liveWorkers s

/-- Only the exit branch takes a live worker away before the stop. -/
theorem WorkerPc.stays_next {s : State} {pc : WorkerPc} (hstop : s.stop = false) :
    (pc.next s).stays = true ↔ pc.stays = true ∧ ¬(pc = .checkExit ∧ 0 < s.exitThread) := by
  have hgoes := pc.goes_next s
  generalize pc.next s = pc' at hgoes ⊢
  cases hgoes with
  | stopped hstop' =>
    rw [hstop] at hstop'
    cases hstop'
  | leave htok | stay htok => simp [htok, stays, leaving]
  | _ => simp [stays, leaving]

theorem WorkerPc.stays_notified (pc : WorkerPc) : pc.notified.stays = pc.stays := by
  cases pc <;> rfl

/-- A worker step before the stop. -/
theorem workerStep_liveWorkers {s s' : State} {i : Nat} {pc : WorkerPc} (hstop : s.stop = false)
    (hpc : s.workers[i]? = some pc) (hframe : WorkerFrame s s' i pc) :
    if pc = .checkExit ∧ 0 < s.exitThread then liveWorkers s' + 1 = liveWorkers s
    else liveWorkers s' = liveWorkers s := by
  have hnext : (pc.next s).stays = true ↔ pc.stays = true ∧ ¬(pc = .checkExit ∧ 0 < s.exitThread) :=
    WorkerPc.stays_next hstop
  have hcount : liveWorkers s' + (if pc.stays then 1 else 0) =
      liveWorkers s + (if (pc.next s).stays then 1 else 0) := hframe.countP WorkerPc.stays hpc
  split
  · rename_i hexit
    have hstays : pc.stays = true := by rw [hexit.1]; rfl
    have hgone : ¬(pc.next s).stays = true := fun h => (hnext.mp h).2 hexit
    rw [if_pos hstays, if_neg hgone] at hcount
    omega
  · rename_i hexit
    by_cases hstays : pc.stays = true
    · rw [if_pos hstays, if_pos (hnext.mpr ⟨hstays, hexit⟩)] at hcount
      omega
    · rw [if_neg hstays, if_neg fun h => hstays (hnext.mp h).1] at hcount
      omega

/-- A step before the stop takes a live worker away exactly if it is the exit branch. -/
theorem step_liveWorkers {s s' : State} {a : Action} (h : step s a = some s')
    (hstop : s.stop = false) (hstop' : s'.stop = false) :
    (∃ i, a = .worker i ∧ s.workers[i]? = some .checkExit ∧ 0 < s.exitThread ∧
      liveWorkers s' + 1 = liveWorkers s) ∨
    ((∀ i, a = .worker i → s.workers[i]? = some .checkExit → ¬0 < s.exitThread) ∧
      liveWorkers s ≤ liveWorkers s') := by
  obtain ⟨task, rfl, -, rfl⟩ | ⟨sel, ws, rfl, -, hws, rfl⟩ | ⟨i, rfl, h⟩ | ⟨rfl, h⟩ |
    ⟨sel, rfl, h⟩ := step_cases h
  · exact .inr ⟨nofun, Nat.le_refl _⟩
  · right
    exact ⟨nofun, Nat.le_of_eq (countP_notifyOne WorkerPc.stays_notified hws).symm⟩
  · obtain ⟨pc, hpc, -, hframe⟩ := workerStep_frame h
    have hcount := workerStep_liveWorkers hstop hpc hframe
    split at hcount
    · rename_i hexit
      rw [hexit.1] at hpc
      exact .inl ⟨i, rfl, hpc, hexit.2, hcount⟩
    · rename_i hexit
      refine .inr ⟨?_, by omega⟩
      intro j hj hcheck htok
      cases hj
      rw [hpc] at hcheck
      exact hexit ⟨Option.some.inj hcheck, htok⟩
  · right
    refine ⟨nofun, ?_⟩
    obtain ⟨-, -, -, -, -, ⟨-, hw⟩ | ⟨-, hw⟩ | ⟨-, hw⟩⟩ := managerStep_frame h
    · simp only [liveWorkers, hw, countP_notifyAll WorkerPc.stays_notified, Nat.le_refl]
    · simp only [liveWorkers, hw, List.countP_append]
      omega
    · simp only [liveWorkers, hw, Nat.le_refl]
  · right
    refine ⟨nofun, ?_⟩
    obtain ⟨-, -, -, ⟨-, hset, -⟩ | ⟨-, -, hw | hw⟩⟩ := dtorStep_frame h
    · rw [hset] at hstop'
      cases hstop'
    · simp only [liveWorkers, hw, Nat.le_refl]
    · simp only [liveWorkers, hw, countP_notifyAll WorkerPc.stays_notified, Nat.le_refl]

/-! ## Pools that release no token -/

/-- The pool has its first workers, and the manager finds no reason to change that. -/
structure Fixed (min max : Int) (s : State) : Prop where
  minThread : s.minThread = min
  maxThread : s.maxThread = max
  curThread : s.curThread = min
  exitThread : s.exitThread = 0
  workers : ∀ pc ∈ s.workers, pc.leaving = false
  manager : s.manager = .loopHead ∨ s.manager = .sleeping ∨ s.manager = .loadIdle ∨
    (∃ idel, s.manager = .loadCur idel) ∨ (∃ idel, s.manager = .branch idel min) ∨
    s.manager = .exited

theorem start_fixed (min max : Int) : Fixed min max (start min max 0) := by
  refine ⟨rfl, rfl, rfl, rfl, ?_, .inl rfl⟩
  intro pc hpc
  rw [List.eq_of_mem_replicate hpc]
  rfl

/-- Outside the exit branch a worker changes neither bound, nor `m_curThread`, nor the tokens. -/
theorem workerStepAt_counters {s s' : State} {i : Nat} {pc : WorkerPc}
    (h : workerStepAt s i pc = some s') (hpc : pc.leaving = false) :
    s'.minThread = s.minThread ∧ s'.maxThread = s.maxThread ∧ s'.curThread = s.curThread ∧
      s'.exitThread = s.exitThread := by
  cases pc with
  | asleep | exited => cases h
  | exitCur | exitIdle | exitTok | exitLockIds | exitPush | exitUnlockIds | exitUnlockQueue =>
    cases hpc
  | acquire | woken =>
    obtain ⟨-, hs⟩ := Option.ite_none_right_eq_some.mp h
    cases hs
    exact ⟨rfl, rfl, rfl, rfl⟩
  | take =>
    simp only [workerStepAt] at h
    split at h <;> cases h <;> exact ⟨rfl, rfl, rfl, rfl⟩
  | _ =>
    cases h
    exact ⟨rfl, rfl, rfl, rfl⟩

theorem WorkerPc.leaving_next {s : State} {pc : WorkerPc} (hpc : pc.leaving = false)
    (htok : ¬0 < s.exitThread) : (pc.next s).leaving = false := by
  have hgoes := pc.goes_next s
  generalize pc.next s = pc' at hgoes ⊢
  cases hgoes with
  | leave hpos => exact absurd hpos htok
  | exitCur | exitIdle | exitTok | exitLockIds | exitPush | exitUnlockIds | exitUnlockQueue =>
    cases hpc
  | _ => rfl

theorem WorkerPc.leaving_notified (pc : WorkerPc) : pc.notified.leaving = pc.leaving := by
  cases pc <;> rfl

theorem step_fixed {min max : Int} {s s' : State} {a : Action} (hmax : max ≤ min)
    (hs : Fixed min max s) (h : step s a = some s') : Fixed min max s' := by
  have hnotify : ∀ pc ∈ notifyAll s.workers, pc.leaving = false := by
    intro pc hpc
    obtain ⟨pc₀, hmem, rfl⟩ := List.mem_map.mp hpc
    rw [WorkerPc.leaving_notified]
    exact hs.workers pc₀ hmem
  obtain ⟨task, -, -, rfl⟩ | ⟨sel, ws, -, -, hws, rfl⟩ | ⟨i, -, h⟩ | ⟨-, h⟩ | ⟨sel, -, h⟩ :=
    step_cases h
  · exact ⟨hs.minThread, hs.maxThread, hs.curThread, hs.exitThread, hs.workers, hs.manager⟩
  · refine ⟨hs.minThread, hs.maxThread, hs.curThread, hs.exitThread, ?_, hs.manager⟩
    obtain ⟨-, rfl⟩ | ⟨-, rfl⟩ := notifyOne_cases hws
    · intro pc hmem
      obtain hmem | rfl := List.mem_or_eq_of_mem_set hmem
      · exact hs.workers pc hmem
      · rfl
    · exact hs.workers
  · obtain ⟨pc, hpc, hstep, hframe⟩ := workerStep_frame h
    have hstays := hs.workers pc (List.mem_of_getElem? hpc)
    obtain ⟨hmin, hmax, hcur, hexit⟩ := workerStepAt_counters hstep hstays
    refine ⟨hmin.trans hs.minThread, hmax.trans hs.maxThread, hcur.trans hs.curThread,
      hexit.trans hs.exitThread, ?_, by rw [hframe.manager]; exact hs.manager⟩
    rw [hframe.workers]
    intro pc' hmem
    obtain hmem | rfl := List.mem_or_eq_of_mem_set hmem
    · exact hs.workers pc' hmem
    · exact WorkerPc.leaving_next hstays (by rw [hs.exitThread]; omega)
  · -- the manager goes round its loop
    obtain ⟨hmin, hmax', hcur, hexit, hworkers, hmanager⟩ := hs
    obtain hm | hm | hm | ⟨idel, hm⟩ | ⟨idel, hm⟩ | hm := hmanager <;>
      simp only [managerStep, hm] at h <;> cases h
    · refine ⟨hmin, hmax', hcur, hexit, hworkers, ?_⟩
      cases s.stop <;> simp
    · exact ⟨hmin, hmax', hcur, hexit, hworkers, .inr (.inr (.inl rfl))⟩
    · exact ⟨hmin, hmax', hcur, hexit, hworkers, by simp⟩
    · exact ⟨hmin, hmax', hcur, hexit, hworkers, by simp [hcur]⟩
    · -- as many workers as the minimum, and no fewer than the maximum
      have hexits : ¬(min.tdiv 2 < idel ∧ min < min) := by omega
      have hspawns : ¬(idel = 0 ∧ min < max ∧ s.stop = false) := by omega
      refine ⟨hmin, hmax', hcur, hexit, hworkers, .inl ?_⟩
      show managerBranch s idel min = .loopHead
      rw [managerBranch, hmin, hmax', if_neg hexits, if_neg hspawns]
  · obtain ⟨hmin, hmax', hcur, hexit, -, hmanager⟩ := dtorStep_counters h
    refine ⟨hmin.trans hs.minThread, hmax'.trans hs.maxThread, hcur.trans hs.curThread,
      hexit.trans hs.exitThread, ?_, by rw [hmanager]; exact hs.manager⟩
    obtain ⟨-, -, -, ⟨-, -, hw⟩ | ⟨-, -, hw | hw⟩⟩ := dtorStep_frame h
    · rw [hw]
      exact hs.workers
    · rw [hw]
      exact hs.workers
    · rw [hw]
      exact hnotify

/-! ## Pools that can grow -/

/-- Nobody holds a mutex, no task is queued, and the manager is between two rounds. -/
structure Quiet (min max : Int) (s : State) : Prop where
  minThread : s.minThread = min
  maxThread : s.maxThread = max
  exitThread : s.exitThread = 0
  stop : s.stop = false
  tasks : s.tasks = []
  queueMutex : s.queueMutex = none
  idsMutex : s.idsMutex = none
  manager : s.manager = .loopHead

section
variable {min max : Int} {s : State} {i : Nat}

/-- A worker takes a task as soon as it is added. -/
theorem exists_run_take (hquiet : Quiet min max s) (hpc : s.workers[i]? = some .loopHead) :
    ∃ t, (system min max 0).run s (.addTask ⟨0, true⟩ :: List.replicate 6 (.worker i)) = some t ∧
      Quiet min max t ∧ t.workers = s.workers.set i (.running ⟨0, true⟩) ∧
      t.idleThread = s.idleThread - 1 ∧ t.curThread = s.curThread := by
  have hlt : i < s.workers.length := (List.getElem?_eq_some_iff.mp hpc).1
  obtain ⟨hmin, hmax, hexit, hstop, htasks, hmutex, hids, hmanager⟩ := hquiet
  refine ⟨{ s with
    workers := s.workers.set i (.running ⟨0, true⟩), idleThread := s.idleThread - 1,
    pendingNotify := s.pendingNotify + 1, added := s.added ++ [⟨0, true⟩],
    taken := s.taken ++ [⟨0, true⟩] }, ?_,
    ⟨hmin, hmax, hexit, hstop, htasks, hmutex, hids, hmanager⟩, rfl, rfl, rfl⟩
  simp only [List.replicate, Transition.run, system, step, workerStep, workerStepAt, State.goto,
    hpc, hstop, htasks, hmutex, hlt, ↓reduceIte, Option.bind_some, List.getElem?_set, List.set_set,
    List.nil_append, List.isEmpty_cons, Bool.not_false, Bool.false_eq_true, Bool.false_and]

/-- A worker finishes its task. -/
theorem exists_run_finish {task : Task} (hquiet : Quiet min max s)
    (hpc : s.workers[i]? = some (.running task)) :
    ∃ t, (system min max 0).run s (List.replicate 2 (.worker i)) = some t ∧
      Quiet min max t ∧ t.workers = s.workers.set i .loopHead ∧
      t.idleThread = s.idleThread + 1 ∧ t.curThread = s.curThread := by
  have hlt : i < s.workers.length := (List.getElem?_eq_some_iff.mp hpc).1
  obtain ⟨hmin, hmax, hexit, hstop, htasks, hmutex, hids, hmanager⟩ := hquiet
  refine ⟨{ s with
    workers := s.workers.set i .loopHead, idleThread := s.idleThread + 1,
    completed := s.completed ++ [task] }, ?_,
    ⟨hmin, hmax, hexit, hstop, htasks, hmutex, hids, hmanager⟩, rfl, rfl, rfl⟩
  simp only [List.replicate, Transition.run, system, step, workerStep, workerStepAt, State.goto,
    hpc, hlt, ↓reduceIte, Option.bind_some, List.getElem?_set, List.set_set]

/-- A worker with nothing to do goes to sleep. -/
theorem exists_run_sleep (hquiet : Quiet min max s) (hpc : s.workers[i]? = some .loopHead) :
    ∃ t, (system min max 0).run s (List.replicate 4 (.worker i)) = some t ∧
      Quiet min max t ∧ t.workers = s.workers.set i .asleep ∧
      t.idleThread = s.idleThread ∧ t.curThread = s.curThread := by
  have hlt : i < s.workers.length := (List.getElem?_eq_some_iff.mp hpc).1
  obtain ⟨hmin, hmax, hexit, hstop, htasks, hmutex, hids, hmanager⟩ := hquiet
  refine ⟨{ s with workers := s.workers.set i .asleep }, ?_,
    ⟨hmin, hmax, hexit, hstop, htasks, hmutex, hids, hmanager⟩, rfl, rfl, rfl⟩
  simp only [List.replicate, Transition.run, system, step, workerStep, workerStepAt, State.goto,
    hpc, hstop, htasks, hmutex, hlt, ↓reduceIte, Option.bind_some, List.getElem?_set, List.set_set,
    List.isEmpty_nil, Bool.not_false, Bool.and_self, Bool.false_eq_true]

/-- With nobody idle and room for another worker the manager starts one. -/
theorem exists_run_spawn (hquiet : Quiet min max s) (hidle : s.idleThread = 0)
    (hcur : s.curThread = min) (hpos : 0 < min) (hmax : min < max) :
    ∃ t, (system min max 0).run s (List.replicate 9 .manager) = some t ∧
      Quiet min max t ∧ t.workers = s.workers ++ [.loopHead] ∧
      t.idleThread = 1 ∧ t.curThread = min + 1 := by
  obtain ⟨hmin, hmax', hexit, hstop, htasks, hmutex, hids, hmanager⟩ := hquiet
  have hbranch : ¬min.tdiv 2 < 0 := by
    have : 0 ≤ min.tdiv 2 := Int.tdiv_nonneg (by omega) (by omega)
    omega
  refine ⟨{ s with
    workers := s.workers ++ [.loopHead], idleThread := 1, curThread := min + 1,
    threads := s.threads ++ [(s.workers.length, true)], manager := .loopHead }, ?_,
    ⟨hmin, hmax', hexit, hstop, htasks, hmutex, hids, rfl⟩, rfl, rfl, rfl⟩
  simp [List.replicate, Transition.run, system, step, managerStep, managerBranch, hmanager, hstop,
    hidle, hcur, hmin, hmax', hmax, hbranch]

/-- What one worker can do, all workers at the same position can do one after the other. -/
theorem exists_run_each {pc pc' : WorkerPc} {d : Int}
    (hone : ∀ s i, Quiet min max s → s.workers[i]? = some pc →
      ∃ as t, (system min max 0).run s as = some t ∧ Quiet min max t ∧
        t.workers = s.workers.set i pc' ∧ t.idleThread = s.idleThread + d ∧
        t.curThread = s.curThread)
    (n : Nat) (done rest : List WorkerPc) (hquiet : Quiet min max s)
    (hworkers : s.workers = done ++ (List.replicate n pc ++ rest)) :
    ∃ as t, (system min max 0).run s as = some t ∧ Quiet min max t ∧
      t.workers = done ++ (List.replicate n pc' ++ rest) ∧
      t.idleThread = s.idleThread + n * d ∧ t.curThread = s.curThread := by
  induction n generalizing s done with
  | zero => exact ⟨[], s, rfl, hquiet, hworkers, by simp, rfl⟩
  | succ n ih =>
    -- the next one is the first that has not gone yet
    have hpc : s.workers[done.length]? = some pc := by
      rw [hworkers, List.replicate_succ, List.getElem?_append_right (Nat.le_refl _), Nat.sub_self]
      rfl
    obtain ⟨as, s₁, hrun, hquiet₁, hset, hidle, hcur⟩ := hone s done.length hquiet hpc
    have hworkers₁ : s₁.workers = (done ++ [pc']) ++ (List.replicate n pc ++ rest) := by
      rw [hset, hworkers, List.replicate_succ, List.set_append_right _ _ (Nat.le_refl _),
        Nat.sub_self, List.append_assoc]
      rfl
    obtain ⟨bs, t, hrun', hquiet', hworkers', hidle', hcur'⟩ := ih (done ++ [pc']) hquiet₁ hworkers₁
    refine ⟨as ++ bs, t, ?_, hquiet', ?_, ?_, hcur'.trans hcur⟩
    · rw [Transition.run_append, hrun, Option.bind_some, hrun']
    · rw [hworkers', List.append_assoc, List.replicate_succ]
      rfl
    · rw [hidle', hidle]
      push_cast
      rw [Int.add_mul, Int.one_mul]
      omega

/-- With all workers idle and one more than the minimum the manager releases two tokens and wakes
    whoever sleeps. -/
theorem exists_run_release (hquiet : Quiet min max s) (hidle : s.idleThread = min + 1)
    (hcur : s.curThread = min + 1) (hpos : 0 < min) :
    ∃ t, (system min max 0).run s (List.replicate 7 .manager) = some t ∧
      t.workers = notifyAll s.workers ∧ t.exitThread = 2 ∧ t.stop = false ∧
      t.queueMutex = none ∧ t.idsMutex = none := by
  obtain ⟨hmin, hmax, hexit, hstop, htasks, hmutex, hids, hmanager⟩ := hquiet
  have hbranch : (min + 1).tdiv 2 < min + 1 ∧ min < min + 1 := by
    have hdiv := Int.tdiv_eq_ediv_of_nonneg (a := min + 1) (b := 2) (by omega)
    omega
  refine ⟨{ s with workers := notifyAll s.workers, exitThread := 2, manager := .waitIds }, ?_, rfl,
    rfl, hstop, hmutex, hids⟩
  simp only [List.replicate, Transition.run, system, step, managerStep, managerBranch, hmanager,
    hstop, hidle, hcur, hmin, hbranch, and_self, ↓reduceIte, Option.bind_some, Bool.false_eq_true]

variable (min max) in
/-- A worker that was woken goes through the exit branch if there is a token. -/
theorem exists_run_leave (hpc : s.workers[i]? = some .woken) (htok : 0 < s.exitThread)
    (hmutex : s.queueMutex = none) (hids : s.idsMutex = none) :
    ∃ t, (system min max 0).run s (List.replicate 9 (.worker i)) = some t ∧
      t.workers = s.workers.set i .exited ∧ t.exitThread = s.exitThread - 1 ∧ t.stop = s.stop ∧
      t.queueMutex = none ∧ t.idsMutex = none := by
  have hlt : i < s.workers.length := (List.getElem?_eq_some_iff.mp hpc).1
  refine ⟨{ s with
    workers := s.workers.set i .exited, curThread := s.curThread - 1,
    idleThread := s.idleThread - 1, exitThread := s.exitThread - 1, ids := s.ids ++ [i],
    queueMutex := none, idsMutex := none }, ?_, rfl, rfl, rfl, rfl, rfl⟩
  simp only [List.replicate, Transition.run, system, step, workerStep, workerStepAt, State.goto,
    hpc, htok, hmutex, hids, hlt, ↓reduceIte, Option.bind_some, List.getElem?_set, List.set_set]

end

/-- A pool that can grow can fall below its minimum. -/
theorem exists_below_minimum {min max : Int} (hpos : 0 < min) (hmax : min < max) :
    ∃ s, (system min max 0).Reachable s ∧ ¬KeepsMinimum min s := by
  obtain ⟨k, hk⟩ : ∃ k : Nat, min = k + 1 := ⟨(min - 1).toNat, by omega⟩
  have hn : min.toNat = k + 1 := by omega
  have hstart : Quiet min max (start min max 0) := ⟨rfl, rfl, rfl, rfl, rfl, rfl, rfl, rfl⟩
  have hreach : (system min max 0).Reachable (start min max 0) := Transition.Reachable.of_init _ rfl
  have hworkers : (start min max 0).workers = [] ++ (List.replicate (k + 1) .loopHead ++ []) := by
    simp [start, hn]
  -- all workers take a task
  obtain ⟨as₁, s₁, hrun₁, hquiet₁, hworkers₁, hidle₁, hcur₁⟩ :=
    exists_run_each (d := -1) (fun s i hquiet hpc => ⟨_, exists_run_take hquiet hpc⟩) (k + 1) [] []
      hstart hworkers
  have hidle₁ : s₁.idleThread = 0 := by
    rw [hidle₁]
    show min + _ = 0
    push_cast
    omega
  -- the manager starts another one, and then they all finish
  obtain ⟨s₂, hrun₂, hquiet₂, hworkers₂, hidle₂, hcur₂⟩ :=
    exists_run_spawn hquiet₁ hidle₁ hcur₁ hpos hmax
  have hworkers₂ : s₂.workers =
      [] ++ (List.replicate (k + 1) (.running ⟨0, true⟩) ++ [.loopHead]) := by
    simp [hworkers₂, hworkers₁]
  obtain ⟨as₃, s₃, hrun₃, hquiet₃, hworkers₃, hidle₃, hcur₃⟩ :=
    exists_run_each (d := 1) (fun s i hquiet hpc => ⟨_, exists_run_finish hquiet hpc⟩) (k + 1) []
      [.loopHead] hquiet₂ hworkers₂
  have hworkers₃ : s₃.workers = .loopHead :: .loopHead :: List.replicate k .loopHead := by
    rw [hworkers₃, List.nil_append, ← List.replicate_succ']
    rfl
  have hidle₃ : s₃.idleThread = min + 1 := by
    rw [hidle₃, hidle₂]
    push_cast
    omega
  have hcur₃ : s₃.curThread = min + 1 := hcur₃.trans hcur₂
  -- two of them go to sleep
  obtain ⟨s₄, hrun₄, hquiet₄, hworkers₄, hidle₄, hcur₄⟩ :=
    exists_run_sleep (i := 0) hquiet₃ (by rw [hworkers₃]; rfl)
  obtain ⟨s₅, hrun₅, hquiet₅, hworkers₅, hidle₅, hcur₅⟩ :=
    exists_run_sleep (i := 1) hquiet₄ (by rw [hworkers₄, hworkers₃]; rfl)
  have hworkers₅ : s₅.workers = .asleep :: .asleep :: List.replicate k .loopHead := by
    rw [hworkers₅, hworkers₄, hworkers₃]
    rfl
  -- the manager wakes them, and they take the two tokens
  obtain ⟨s₆, hrun₆, hworkers₆, htok₆, hstop₆, hmutex₆, hids₆⟩ := exists_run_release hquiet₅
    (by rw [hidle₅, hidle₄, hidle₃]) (by rw [hcur₅, hcur₄, hcur₃]) hpos
  have hworkers₆ : s₆.workers = .woken :: .woken :: List.replicate k .loopHead := by
    rw [hworkers₆, hworkers₅]
    simp [notifyAll, WorkerPc.notified]
  obtain ⟨s₇, hrun₇, hworkers₇, htok₇, hstop₇, hmutex₇, hids₇⟩ :=
    exists_run_leave min max (i := 0) (by rw [hworkers₆]; rfl) (by omega) hmutex₆ hids₆
  obtain ⟨s₈, hrun₈, hworkers₈, -, hstop₈, -, -⟩ :=
    exists_run_leave min max (i := 1) (by rw [hworkers₇, hworkers₆]; rfl) (by omega) hmutex₇ hids₇
  have hworkers₈ : s₈.workers = .exited :: .exited :: List.replicate k .loopHead := by
    rw [hworkers₈, hworkers₇, hworkers₆]
    rfl
  refine ⟨s₈, ((((((hreach.run hrun₁).run hrun₂).run hrun₃).run hrun₄).run hrun₅).run hrun₆).run
    hrun₇ |>.run hrun₈, fun hkeeps => ?_⟩
  have hlive : liveWorkers s₈ = k := by
    rw [liveWorkers, hworkers₈]
    simp [List.countP_replicate, WorkerPc.stays, WorkerPc.leaving]
  have := hkeeps (by rw [hstop₈, hstop₇, hstop₆])
  omega

theorem start_keepsMinimum (min max exitThread : Int) :
    KeepsMinimum min (start min max exitThread) := by
  intro _
  have hlive : liveWorkers (start min max exitThread) = min.toNat := by
    simp [liveWorkers, start, List.countP_replicate, WorkerPc.stays, WorkerPc.leaving]
  omega

/-- A step keeps the minimum, unless it takes the exit branch with no worker to spare. -/
theorem step_keepsMinimum_iff {min : Int} {s s' : State} {a : Action} (hs : KeepsMinimum min s)
    (h : step s a = some s') : KeepsMinimum min s' ↔ ExitsAboveMinimum min s a := by
  cases hstop : s.stop with
  | true =>
    -- nothing is asked any more
    refine iff_of_true (fun hstop' => ?_) fun _ _ _ hstop' => ?_
    · rw [step_stop h hstop] at hstop'
      cases hstop'
    · rw [hstop] at hstop'
      cases hstop'
  | false =>
    cases hstop' : s'.stop with
    | true =>
      refine iff_of_true (fun hkept => ?_) ?_
      · rw [hstop'] at hkept
        cases hkept
      · -- the step that sets the flag is no worker step
        rintro i rfl
        obtain ⟨pc, -, -, hframe⟩ := workerStep_frame h
        rw [hframe.stop, hstop] at hstop'
        cases hstop'
    | false =>
      have hmin := hs hstop
      obtain ⟨i, rfl, hpc, htok, hcount⟩ | ⟨hother, hcount⟩ := step_liveWorkers h hstop hstop'
      · constructor
        · intro hkept j hj _ _ _
          have := hkept hstop'
          omega
        · intro habove _
          have := habove i rfl hpc hstop htok
          omega
      · refine iff_of_true (fun _ => by omega) fun i hi hpc _ htok => ?_
        exact absurd htok (hother i hi hpc)

/-- A pool that cannot grow never releases a token, so nobody leaves. -/
theorem reachable_keepsMinimum {min max : Int} (hmax : max ≤ min) {s : State}
    (h : (system min max 0).Reachable s) : KeepsMinimum min s := by
  refine (reachable_invariant (I := fun s => Fixed min max s ∧ KeepsMinimum min s)
    ⟨start_fixed min max, start_keepsMinimum min max 0⟩ ?_ h).2
  intro s s' a ⟨hfixed, hkeeps⟩ hstep
  refine ⟨step_fixed hmax hfixed hstep, (step_keepsMinimum_iff hkeeps hstep).mpr ?_⟩
  intro i _ _ _ htok
  rw [hfixed.exitThread] at htok
  omega

/-- A pool keeps its minimum in every reachable state exactly if that is not positive or the pool
    cannot grow. Along a run it does exactly as long as no worker takes the exit branch when there
    are only as many live workers as the minimum. -/
theorem keepsMinimum_iff (min max : Int) :
    ((∀ s, (system min max 0).Reachable s → KeepsMinimum min s) ↔ min ≤ 0 ∨ max ≤ min) ∧
    (∀ as, (system min max 0).Always (KeepsMinimum min) (start min max 0) as ↔
      (system min max 0).AllSteps (ExitsAboveMinimum min) (start min max 0) as) := by
  constructor
  · constructor
    · intro h
      by_cases hgrow : 0 < min ∧ min < max
      · obtain ⟨s, hreach, hbelow⟩ := exists_below_minimum hgrow.1 hgrow.2
        exact absurd (h s hreach) hbelow
      · omega
    · rintro (hmin | hmax) s hreach
      · intro _
        omega
      · exact reachable_keepsMinimum hmax hreach
  · intro as
    -- the test of the tokens waits for nothing
    have hdisabled : ∀ s a, step s a = none → ExitsAboveMinimum min s a := by
      rintro s a hnone i rfl hpc
      simp [step, workerStep, hpc, workerStepAt] at hnone
    exact Transition.always_iff_allSteps (I := fun _ => True) (fun _ _ _ _ _ => trivial)
      hdisabled (fun s a s' _ hs h => step_keepsMinimum_iff hs h) trivial
      (start_keepsMinimum min max 0)

/-- A pool of one to two workers ends up without any. -/
theorem below_minimum_small :
    ¬∀ (min max : Int) (s : State), min ≤ max → (system min max 0).Reachable s →
      KeepsMinimum min s := by
  intro h
  have hpos : (0 : Int) < 1 := by decide
  have hmax : (1 : Int) < 2 := by decide
  obtain ⟨s, hreach, hbelow⟩ := exists_below_minimum hpos hmax
  exact hbelow (h 1 2 s (Int.le_of_lt hmax) hreach)

end ThreadPool
