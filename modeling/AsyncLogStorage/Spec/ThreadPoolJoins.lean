import AsyncLogStorage.Native.ThreadPoolOrder
import AsyncLogStorage.Spec.ThreadPoolAccount
import Mathlib.Data.List.Nodup

/-!
# Joining each worker once

Both the destructor and the manager join worker threads. The destructor goes through
`m_workers` before it joins the manager, so the manager may still clean up or start a
thread meanwhile. Between `joinable()` and `join()` of one of them the other can find the
same thread joinable, an element that is inserted behind the loop is not met, and the
manager can erase the element on which the loop stands.

## Key results

- `step_sound`: what keeps the joins apart
- `step_spoiled`, `spoiled_of_not_joinsApart`: what spoils them does so for good
- `joinedOnce_iff`: in which runs each thread is joined once
-/

namespace ThreadPool

/-- The thread that the manager joins next. -/
def ManagerPc.joining : ManagerPc → Option Nat
  | .reapJoin ids => some (ids.headD 0)
  | _ => none

/-- The worker thread that the destructor joins next. -/
def DtorPc.joining : DtorPc → Option Nat
  | .joinWorker tid _ => some tid
  | _ => none

/-- The joins of worker threads that have returned and those that come next. -/
def State.allJoins (s : State) : List Nat :=
  s.joins ++ s.manager.joining.toList ++ s.dtor.joining.toList

/-- The loop of the destructor does not meet an element for thread `i` any more. -/
def DtorPc.passed (rank : Nat ↪ Nat) (i : Nat) : DtorPc → Bool
  | .notCalled | .notifyAll => false
  | .joinLoop visited => behind rank visited i
  | .joinWorker tid _ => decide (rank i < rank tid)
  | _ => true

/-- The same between `++it` and `joinable()`, where the loop has its element already. -/
def OrderedState.passed (rank : Nat ↪ Nat) (s : OrderedState) (i : Nat) : Bool :=
  match s.pool.dtor, s.loop with
  | .joinLoop _, .entered tid => decide (rank i < rank tid)
  | dtor, _ => dtor.passed rank i

/-- No thread was joined twice, `m_workers.clear()` finds no joinable one, and the destructor
    has used no iterator that was invalid. -/
def JoinedOnce (s : OrderedState) : Prop :=
  s.pool.joins.Nodup ∧ (s.pool.dtor = .clear → ∀ t ∈ s.pool.threads, t.2 = false) ∧
    s.loop ≠ .crashed

instance (s : OrderedState) : Decidable (JoinedOnce s) := inferInstanceAs (Decidable (_ ∧ _ ∧ _))

/-- The manager inserts no element behind the loop of the destructor and erases none on which
    it stands, and neither of the two finds a thread joinable that the other one is about to
    join. -/
def JoinsApart (rank : Nat ↪ Nat) (s : OrderedState) : Action → Prop
  | .manager =>
    (∀ tid, s.pool.manager = .insert tid → s.passed rank tid = false) ∧
      (∀ ids, s.pool.manager = .reapErase ids → s.standsOn ≠ some (ids.headD 0)) ∧
      ∀ ids, s.pool.manager = .reapJoinable ids → (ids.headD 0, true) ∈ s.pool.threads →
        s.pool.dtor.joining ≠ some (ids.headD 0)
  | .dtor _ => ∀ visited tid, s.pool.dtor = .joinLoop visited → s.loop = .entered tid →
      (tid, true) ∈ s.pool.threads → s.pool.manager.joining ≠ some tid
  | _ => True

variable {rank : Nat ↪ Nat}

section

variable {s s' : State}

/-! ## Steps -/

/-- What callers and workers leave alone. -/
structure ThreadsFrame (s s' : State) : Prop where
  manager : s'.manager = s.manager
  dtor : s'.dtor = s.dtor
  threads : s'.threads = s.threads
  joins : s'.joins = s.joins
  stop : s'.stop = s.stop
  length : s'.workers.length = s.workers.length

theorem step_threadsFrame {a : Action} (hmanager : a ≠ .manager) (hdtor : ∀ sel, a ≠ .dtor sel)
    (h : step s a = some s') : ThreadsFrame s s' := by
  cases a with
  | dtor sel => exact absurd rfl (hdtor sel)
  | manager => exact absurd rfl hmanager
  | addTask task =>
    obtain ⟨-, hs⟩ := Option.ite_none_right_eq_some.mp h
    cases hs
    exact ⟨rfl, rfl, rfl, rfl, rfl, rfl⟩
  | notifyOne sel =>
    obtain ⟨-, hs⟩ := Option.ite_none_right_eq_some.mp h
    obtain ⟨ws, hws, rfl⟩ := Option.map_eq_some_iff.mp hs
    refine ⟨rfl, rfl, rfl, rfl, rfl, ?_⟩
    obtain ⟨-, rfl⟩ | ⟨-, rfl⟩ := notifyOne_cases hws
    · exact List.length_set
    · rfl
  | worker i =>
    obtain ⟨pc, -, hstep, hframe⟩ := workerStep_frame h
    obtain ⟨hthreads, hjoins⟩ := workerStepAt_threads hstep
    refine ⟨hframe.manager, hframe.dtor, hthreads, hjoins, hframe.stop, ?_⟩
    rw [hframe.workers, List.length_set]

theorem managerStep_allJoins (h : managerStep s = some s') :
    s'.joins = s.joins ++ s.manager.joining.toList := by
  cases hm : s.manager with
  | exited =>
    simp only [managerStep, hm] at h
    cases h
  | lockIds | reapJoin =>
    simp only [managerStep, hm] at h
    obtain ⟨-, hs⟩ := Option.ite_none_right_eq_some.mp h
    cases hs
    simp [ManagerPc.joining]
  | reap ids =>
    cases ids with
    | nil =>
      simp only [managerStep, hm] at h
      cases h
      simp [ManagerPc.joining]
    | cons id rest =>
      simp only [managerStep, hm] at h
      cases h
      simp [ManagerPc.joining]
  | _ =>
    simp only [managerStep, hm] at h
    cases h
    simp [ManagerPc.joining]

/-- The manager joins what it has found joinable. -/
theorem ManagerPc.joining_next {pc : ManagerPc} {i : Nat} (h : (pc.next s).joining = some i) :
    ∃ ids, pc = .reapJoinable ids ∧ i = ids.headD 0 ∧ (i, true) ∈ s.threads := by
  have hgoes := pc.goes_next s
  generalize pc.next s = pc' at h hgoes
  cases hgoes with
  | joinable hmem =>
    cases h
    exact ⟨_, rfl, rfl, hmem⟩
  | _ => cases h

theorem ManagerPc.next_eq_insert {pc : ManagerPc} {tid : Nat} (h : pc.next s = .insert tid) :
    pc = .spawn ∧ tid = s.workers.length := by
  have hgoes := pc.goes_next s
  rw [h] at hgoes
  cases hgoes with
  | spawn => exact ⟨rfl, rfl⟩

/-- A thread object that is joinable was so before, or it was inserted. -/
theorem ManagerPc.of_mem_threads {pc : ManagerPc} {i : Nat} (h : (i, true) ∈ pc.threads s) :
    ((i, true) ∈ s.threads ∧ pc.joining ≠ some i) ∨ pc = .insert i := by
  cases pc with
  | reapJoin ids =>
    left
    obtain ⟨t, hmem, ht⟩ := List.mem_map.mp h
    split at ht
    · cases ht
    · rename_i hne
      rw [ht] at hmem hne
      exact ⟨hmem, fun heq => hne (Option.some.inj heq).symm⟩
  | reapErase ids => exact .inl ⟨(List.mem_filter.mp h).1, by simp [joining]⟩
  | insert tid =>
    obtain hmem | heq := List.mem_append.mp h
    · exact .inl ⟨hmem, by simp [joining]⟩
    · right
      simp only [List.mem_singleton, Prod.mk.injEq, and_true] at heq
      rw [heq]
  | _ => exact .inl ⟨h, by simp [joining]⟩

/-- The manager adds at most the element that it inserts. -/
theorem ManagerPc.mem_keys_threads {pc : ManagerPc} {i : Nat}
    (h : i ∈ (pc.threads s).map (·.1)) : i ∈ s.threads.map (·.1) ∨ pc = .insert i := by
  obtain ⟨t, ht, rfl⟩ := List.mem_map.mp h
  cases pc with
  | reapJoin ids =>
    left
    obtain ⟨u, hu, rfl⟩ := List.mem_map.mp ht
    refine List.mem_map.mpr ⟨u, hu, ?_⟩
    split
    · rfl
    · rfl
  | reapErase ids => exact .inl (List.mem_map.mpr ⟨t, (List.mem_filter.mp ht).1, rfl⟩)
  | insert tid =>
    obtain hmem | heq := List.mem_append.mp ht
    · exact .inl (List.mem_map.mpr ⟨t, hmem, rfl⟩)
    · right
      rw [List.mem_singleton.mp heq]
  | _ => exact .inl (List.mem_map.mpr ⟨t, ht, rfl⟩)

/-- Marking a thread as joined changes no key. -/
theorem keys_joined (threads : List (Nat × Bool)) (tid : Nat) :
    (threads.map fun t => if t.1 = tid then (t.1, false) else t).map (·.1) =
      threads.map (·.1) := by
  rw [List.map_map]
  refine List.map_congr_left fun t _ => ?_
  simp only [Function.comp]
  split
  · rfl
  · rfl

theorem mem_joined {threads : List (Nat × Bool)} {tid i : Nat}
    (h : (i, true) ∈ threads.map fun t => if t.1 = tid then (t.1, false) else t) :
    (i, true) ∈ threads ∧ i ≠ tid := by
  obtain ⟨t, hmem, ht⟩ := List.mem_map.mp h
  split at ht
  · cases ht
  · rename_i hne
    rw [ht] at hmem hne
    exact ⟨hmem, hne⟩

/-- A join that comes next is a join, whether it has returned or not. -/
theorem count_allJoins (s : State) (i : Nat) :
    s.allJoins.count i = s.joins.count i + s.manager.joining.toList.count i +
      s.dtor.joining.toList.count i := by
  simp only [State.allJoins, List.count_append]

theorem managerStep_count (h : managerStep s = some s') (i : Nat) :
    s'.allJoins.count i = s.allJoins.count i + s'.manager.joining.toList.count i := by
  have hdtor : s'.dtor = s.dtor := (managerStep_frame h).2.2.2.2.1
  simp only [State.allJoins, managerStep_allJoins h, hdtor, List.count_append]
  omega

/-- An element that the manager does not erase stays in the map. -/
theorem ManagerPc.keys_threads_kept {pc : ManagerPc} {i : Nat} (hi : i ∈ s.threads.map (·.1))
    (hkept : ∀ ids, pc = .reapErase ids → ids.headD 0 ≠ i) : i ∈ (pc.threads s).map (·.1) := by
  cases pc with
  | reapJoin ids =>
    rw [ManagerPc.threads, keys_joined]
    exact hi
  | reapErase ids =>
    obtain ⟨t, ht, rfl⟩ := List.mem_map.mp hi
    refine List.mem_map.mpr ⟨t, List.mem_filter.mpr ⟨ht, ?_⟩, rfl⟩
    simpa using (hkept ids rfl).symm
  | insert tid =>
    rw [ManagerPc.threads, List.map_append]
    exact List.mem_append_left _ hi
  | _ => exact hi

theorem ManagerPc.joining_eq_some {pc : ManagerPc} {i : Nat} (h : pc.joining = some i) :
    ∃ ids, pc = .reapJoin ids ∧ ids.headD 0 = i := by
  cases pc with
  | reapJoin ids => exact ⟨ids, rfl, Option.some.inj h⟩
  | _ => cases h

theorem DtorPc.joining_eq_some {pc : DtorPc} {i : Nat} (h : pc.joining = some i) :
    ∃ visited, pc = .joinWorker i visited := by
  cases pc with
  | joinWorker tid visited =>
    cases h
    exact ⟨visited, rfl⟩
  | _ => cases h

/-- Where the manager gets from its insertion once the flag is set. -/
def ManagerPc.leavingInsert : ManagerPc → Bool
  | .incCur | .incIdle | .loopHead | .exited => true
  | _ => false

/-- The manager has nothing more to do than to see the flag. -/
theorem ManagerPc.leavingInsert_next {pc : ManagerPc} (hstop : s.stop = true)
    (h : pc.leavingInsert = true) :
    (pc.next s).leavingInsert = true ∧ pc.threads s = s.threads := by
  cases pc with
  | loopHead =>
    simp only [next, hstop, ↓reduceIte]
    exact ⟨rfl, rfl⟩
  | incCur | incIdle | exited => exact ⟨rfl, rfl⟩
  | _ => cases h

end

section

variable {s s' : OrderedState}

/-- Threads are joined by the manager and the destructor. -/
theorem orderedStep_cases {a : Action} (h : orderedStep rank s a = some s') :
    s.loop ≠ .crashed ∧
    ((a ≠ .manager ∧ (∀ sel, a ≠ .dtor sel) ∧ ThreadsFrame s.pool s'.pool ∧ s'.loop = s.loop) ∨
      (a = .manager ∧ ∃ pool, managerStep s.pool = some pool ∧ s' = ⟨pool, s.loop⟩) ∨
      ∃ sel, a = .dtor sel ∧ orderedDtorStep rank s sel = some s') := by
  obtain ⟨hloop, h⟩ := Option.ite_none_left_eq_some.mp h
  refine ⟨hloop, ?_⟩
  cases a with
  | dtor sel => exact .inr (.inr ⟨sel, rfl, h⟩)
  | manager =>
    obtain ⟨pool, hpool, rfl⟩ := Option.map_eq_some_iff.mp h
    exact .inr (.inl ⟨rfl, pool, hpool, rfl⟩)
  | _ =>
    obtain ⟨pool, hpool, rfl⟩ := Option.map_eq_some_iff.mp h
    exact .inl ⟨by simp, by simp, step_threadsFrame (by simp) (by simp) hpool, rfl⟩

/-- The destructor leaves the manager, and it joins what it was about to join. -/
theorem DtorMoves.allJoins (h : DtorMoves rank s s') :
    s'.pool.manager = s.pool.manager ∧
      s'.pool.joins = s.pool.joins ++ s.pool.dtor.joining.toList := by
  cases h with
  | call hd | notify hd | loopEnd hd | enter hd | joinable hd | notJoinable hd | join hd
  | joinManager hd | clear hd => simp [hd, DtorPc.joining]

theorem DtorMoves.count (h : DtorMoves rank s s') (i : Nat) :
    s'.pool.allJoins.count i = s.pool.allJoins.count i + s'.pool.dtor.joining.toList.count i := by
  obtain ⟨hmanager, hjoins⟩ := h.allJoins
  simp only [State.allJoins, hjoins, hmanager, List.count_append]
  omega

theorem dangling_eq_false_iff :
    s.dangling = false ↔ ∀ i, s.standsOn = some i → i ∈ s.pool.threads.map (·.1) := by
  simp only [OrderedState.dangling, Option.any_eq_false, decide_eq_false_iff_not,
    Classical.not_not]

/-- Before `++it` the loop stands on the element that it came to last. -/
theorem OrderedState.standsOn_joinLoop {visited : List Nat} (hd : s.pool.dtor = .joinLoop visited)
    (hloop : s.loop = .advance) : s.standsOn = visited.head? := by
  simp only [standsOn, hd, hloop]

theorem OrderedState.standsOn_entered {visited : List Nat} {tid : Nat}
    (hd : s.pool.dtor = .joinLoop visited) (hloop : s.loop = .entered tid) :
    s.standsOn = some tid := by
  simp only [standsOn, hd, hloop]

theorem OrderedState.standsOn_joinWorker {tid : Nat} {visited : List Nat}
    (hd : s.pool.dtor = .joinWorker tid visited) : s.standsOn = some tid := by
  simp only [standsOn, hd]

theorem OrderedState.passed_entered {visited : List Nat} {tid i : Nat}
    (hd : s.pool.dtor = .joinLoop visited) (hloop : s.loop = .entered tid) :
    s.passed rank i = decide (rank i < rank tid) := by
  simp only [passed, hd, hloop]

theorem OrderedState.passed_advance {i : Nat} (hloop : s.loop = .advance) :
    s.passed rank i = s.pool.dtor.passed rank i := by
  unfold passed
  split
  · rename_i visited tid hvisited hentered
    cases hloop.symm.trans hentered
  · rfl

/-- Only between `++it` and `joinable()` does it matter where the loop is. -/
theorem OrderedState.passed_of_ne {i : Nat} (hd : ∀ visited, s.pool.dtor ≠ .joinLoop visited) :
    s.passed rank i = s.pool.dtor.passed rank i := by
  unfold passed
  split
  · rename_i visited tid hvisited hloop
    exact absurd hvisited (hd visited)
  · rfl

/-! ## The numbers of the threads -/

/-- The map or the joins know of thread `i`, or the loop of the destructor stands on it. -/
def OrderedState.Knows (s : OrderedState) (i : Nat) : Prop :=
  i ∈ s.pool.threads.map (·.1) ∨ i ∈ s.pool.joins ∨ s.standsOn = some i

/-- What holds of the threads and the destructor in every reachable state. -/
structure Tracked (s : OrderedState) : Prop where
  keys : (s.pool.threads.map (·.1)).Nodup
  started : ∀ i, s.Knows i → i < s.pool.workers.length
  /-- The thread that the manager is about to insert is new. -/
  fresh : ∀ i, s.pool.manager = .insert i → i < s.pool.workers.length ∧ ¬s.Knows i
  visiting : ∀ tid visited, s.pool.dtor = .joinWorker tid visited → visited.head? = some tid
  called : s.pool.dtor ≠ .notCalled → s.pool.stop = true
  left : s.pool.dtor = .clear → s.pool.manager = .exited

theorem orderedStart_tracked (min max exitThread : Int) :
    Tracked (orderedStart min max exitThread) := by
  have hkeys : (start min max exitThread).threads.map (·.1) = List.range min.toNat := by
    simp only [start, List.map_map]
    exact List.map_id _
  refine ⟨?_, ?_, by simp [orderedStart, start], by simp [orderedStart, start],
    by simp [orderedStart, start], by simp [orderedStart, start]⟩
  · rw [orderedStart, hkeys]
    exact List.nodup_range
  · intro i hi
    obtain hi | hi | hi := hi
    · rw [orderedStart, hkeys] at hi
      simpa [orderedStart, start] using hi
    · cases hi
    · cases hi

theorem ThreadsFrame.standsOn (hframe : ThreadsFrame s.pool s'.pool) (hloop : s'.loop = s.loop) :
    s'.standsOn = s.standsOn := by
  rw [OrderedState.standsOn, OrderedState.standsOn, hframe.dtor, hloop]

theorem ThreadsFrame.tracked (hframe : ThreadsFrame s.pool s'.pool) (hloop : s'.loop = s.loop)
    (hs : Tracked s) : Tracked s' := by
  have hknows : ∀ i, s'.Knows i ↔ s.Knows i := by
    intro i
    rw [OrderedState.Knows, OrderedState.Knows, hframe.threads, hframe.joins,
      hframe.standsOn hloop]
  obtain ⟨hmanager, hdtor, hthreads, hjoins, hstop, hlength⟩ := hframe
  refine ⟨?_, ?_, ?_, ?_, ?_, ?_⟩
  · rw [hthreads]
    exact hs.keys
  · intro i hi
    rw [hlength]
    exact hs.started i ((hknows i).mp hi)
  · intro i hi
    rw [hmanager] at hi
    rw [hlength, hknows]
    exact hs.fresh i hi
  · rw [hdtor]
    exact hs.visiting
  · rw [hdtor, hstop]
    exact hs.called
  · rw [hdtor, hmanager]
    exact hs.left

/-- The manager leaves the loop of the destructor. -/
theorem managerStep_standsOn {pool : State} (h : managerStep s.pool = some pool) :
    OrderedState.standsOn ⟨pool, s.loop⟩ = s.standsOn := by
  have hdtor : pool.dtor = s.pool.dtor := (managerStep_frame h).2.2.2.2.1
  simp only [OrderedState.standsOn, hdtor]

theorem managerStep_passed {pool : State} (h : managerStep s.pool = some pool) (i : Nat) :
    OrderedState.passed rank ⟨pool, s.loop⟩ i = s.passed rank i := by
  have hdtor : pool.dtor = s.pool.dtor := (managerStep_frame h).2.2.2.2.1
  simp only [OrderedState.passed, hdtor]

/-- What becomes known is the thread that the manager inserts, or one that it joins. -/
theorem managerStep_knows {pool : State} (h : managerStep s.pool = some pool) {i : Nat}
    (hi : OrderedState.Knows ⟨pool, s.loop⟩ i) :
    s.Knows i ∨ s.pool.manager = .insert i ∨ s.pool.manager.joining = some i := by
  obtain hi | hi | hi := hi
  · rw [(managerStep_moves h).threads] at hi
    exact (ManagerPc.mem_keys_threads hi).imp .inl .inl
  · rw [managerStep_allJoins h] at hi
    obtain hi | hi := List.mem_append.mp hi
    · exact .inl (.inr (.inl hi))
    · exact .inr (.inr (Option.mem_toList.mp hi))
  · rw [managerStep_standsOn h] at hi
    exact .inl (.inr (.inr hi))

/-- The manager keeps the keys apart. -/
theorem managerStep_keys (hs : Tracked s) {pool : State} (h : managerStep s.pool = some pool) :
    (pool.threads.map (·.1)).Nodup := by
  rw [(managerStep_moves h).threads]
  cases hm : s.pool.manager with
  | reapJoin ids =>
    rw [ManagerPc.threads, keys_joined]
    exact hs.keys
  | reapErase ids => exact hs.keys.sublist (List.filter_sublist.map _)
  | insert tid =>
    rw [ManagerPc.threads, List.map_append]
    refine List.nodup_append.mpr ⟨hs.keys, by simp, ?_⟩
    rintro i hi j hj rfl
    obtain rfl : i = tid := by simpa using hj
    exact (hs.fresh i hm).2 (.inl hi)
  | _ => exact hs.keys

theorem managerStep_tracked (hs : Tracked s) {pool : State} (h : managerStep s.pool = some pool) :
    Tracked ⟨pool, s.loop⟩ := by
  have hframe := managerStep_moves h
  obtain ⟨hstop, -, -, -, hdtor, hworkers⟩ := managerStep_frame h
  have hlength : s.pool.workers.length ≤ pool.workers.length := by
    obtain ⟨-, hw⟩ | ⟨-, hw⟩ | ⟨-, hw⟩ := hworkers
    · simp [hw, notifyAll]
    · simp [hw]
    · simp [hw]
  refine ⟨managerStep_keys hs h, ?_, ?_, ?_, ?_, ?_⟩
  · intro i hi
    show i < pool.workers.length
    obtain hi | hi | hi := managerStep_knows h hi
    · have := hs.started i hi
      omega
    · have := (hs.fresh i hi).1
      omega
    · -- a thread that is joined has ended
      obtain ⟨ids, hm, rfl⟩ := ManagerPc.joining_eq_some hi
      have := (List.getElem?_eq_some_iff.mp (hframe.joined ids hm)).1
      omega
  · intro i hi
    rw [hframe.manager] at hi
    obtain ⟨hm, rfl⟩ := ManagerPc.next_eq_insert hi
    constructor
    · obtain ⟨hne, -⟩ | ⟨-, hw⟩ | ⟨-, hw⟩ := hworkers
      · rw [hm] at hne
        cases hne
      · simp [hw]
      · simp only [managerStep, hm] at h
        cases h
        simp
    · intro hi
      obtain hi | hi | hi := managerStep_knows h hi
      · exact absurd (hs.started _ hi) (Nat.lt_irrefl _)
      · rw [hm] at hi
        cases hi
      · rw [hm] at hi
        cases hi
  · rw [hdtor]
    exact hs.visiting
  · rw [hdtor, hstop]
    exact hs.called
  · intro hd
    rw [hdtor] at hd
    exact absurd (hs.left hd) hframe.running

/-- What a step of the destructor leaves of the elements and of what it has come to. -/
theorem DtorMoves.frame (hcalled : s.pool.dtor ≠ .notCalled → s.pool.stop = true)
    (h : DtorMoves rank s s') :
    s'.pool.workers.length = s.pool.workers.length ∧ s'.pool.stop = true ∧
      (s'.pool.threads.map (·.1)).Sublist (s.pool.threads.map (·.1)) ∧
      (∀ tid visited, s'.pool.dtor = .joinWorker tid visited → visited.head? = some tid) ∧
      (s'.pool.dtor = .clear → s.pool.manager = .exited) := by
  cases h with
  | call hd => exact ⟨rfl, rfl, List.Sublist.refl _, by simp, by simp⟩
  | notify hd =>
    exact ⟨by simp [notifyAll], hcalled (by simp [hd]), List.Sublist.refl _, by simp, by simp⟩
  | loopEnd hd | notJoinable hd =>
    exact ⟨rfl, hcalled (by simp [hd]), List.Sublist.refl _, by simp, by simp⟩
  | enter hd => exact ⟨rfl, hcalled (by simp [hd]), List.Sublist.refl _, by simp [hd], by simp [hd]⟩
  | joinable hd =>
    refine ⟨rfl, hcalled (by simp [hd]), List.Sublist.refl _, fun i visited heq => ?_, by simp⟩
    cases heq
    rfl
  | join hd =>
    refine ⟨rfl, hcalled (by simp [hd]), ?_, by simp, by simp⟩
    rw [keys_joined]
  | joinManager hd hexited =>
    exact ⟨rfl, hcalled (by simp [hd]), List.Sublist.refl _, by simp, fun _ => hexited⟩
  | clear hd hlast =>
    refine ⟨rfl, hcalled (by simp [hd]), List.nil_sublist _, fun tid visited heq => ?_,
      fun heq => ?_⟩
    · obtain rfl | rfl := hlast
      · cases heq
      · cases heq
    · obtain rfl | rfl := hlast
      · cases heq
      · cases heq

/-- The loop comes to stand on elements of the map. -/
theorem DtorMoves.dangling (hs : Tracked s) (hdangling : s.dangling = false)
    (h : DtorMoves rank s s') : s'.dangling = false := by
  rw [dangling_eq_false_iff] at hdangling ⊢
  intro i hi
  cases h with
  | call hd => cases hi
  | notify hd => cases hi
  | loopEnd hd => cases hi
  | enter hd hloop hnext =>
    simp only [OrderedState.standsOn, hd, Option.some.injEq] at hi
    rw [← hi]
    exact List.mem_map.mpr ⟨_, (mem_of_nextThread hnext).1, rfl⟩
  | joinable hd hloop hmem => exact hdangling i ((OrderedState.standsOn_entered hd hloop).trans hi)
  | notJoinable hd hloop hmem =>
    exact hdangling i ((OrderedState.standsOn_entered hd hloop).trans hi)
  | @join visited tid hd hexited =>
    rw [OrderedState.standsOn_joinLoop rfl rfl, hs.visiting tid visited hd] at hi
    rw [keys_joined]
    exact hdangling i ((OrderedState.standsOn_joinWorker hd).trans hi)
  | joinManager hd => cases hi
  | clear hd hlast =>
    obtain rfl | rfl := hlast
    · cases hi
    · cases hi

theorem DtorMoves.tracked (hs : Tracked s) (hdangling : s.dangling = false)
    (h : DtorMoves rank s s') : Tracked s' := by
  obtain ⟨hlength, hstop, hkeys, hvisiting, hleft⟩ := h.frame hs.called
  obtain ⟨hmanager, hjoins⟩ := h.allJoins
  -- the destructor gets to know of nobody
  have hknows : ∀ i, s'.Knows i → s.Knows i := by
    intro i hi
    obtain hi | hi | hi := hi
    · exact .inl (hkeys.subset hi)
    · rw [hjoins] at hi
      obtain hi | hi := List.mem_append.mp hi
      · exact .inr (.inl hi)
      · obtain ⟨visited, hd⟩ := DtorPc.joining_eq_some (Option.mem_toList.mp hi)
        exact .inr (.inr (OrderedState.standsOn_joinWorker hd))
    · exact .inl (hkeys.subset (dangling_eq_false_iff.mp (h.dangling hs hdangling) i hi))
  refine ⟨hs.keys.sublist hkeys, ?_, ?_, hvisiting, fun _ => hstop, ?_⟩
  · intro i hi
    rw [hlength]
    exact hs.started i (hknows i hi)
  · intro i hi
    rw [hmanager] at hi
    rw [hlength]
    exact ⟨(hs.fresh i hi).1, fun hk => (hs.fresh i hi).2 (hknows i hk)⟩
  · rw [hmanager]
    exact hleft

/-- Behind an invalid iterator the model says nothing new of the threads. -/
theorem Tracked.crash (hs : Tracked s) : Tracked { s with loop := .crashed } := by
  have hknows : ∀ i, OrderedState.Knows { s with loop := .crashed } i → s.Knows i := by
    intro i hi
    obtain hi | hi | hi := hi
    · exact .inl hi
    · exact .inr (.inl hi)
    · refine .inr (.inr ?_)
      cases hd : s.pool.dtor with
      | joinWorker tid visited => simpa only [OrderedState.standsOn, hd] using hi
      | _ =>
        simp only [OrderedState.standsOn, hd] at hi
        cases hi
  exact { hs with
    started := fun i hi => hs.started i (hknows i hi)
    fresh := fun i hi => ⟨(hs.fresh i hi).1, fun hk => (hs.fresh i hi).2 (hknows i hk)⟩ }

theorem orderedStep_tracked {a : Action} (hs : Tracked s) (h : orderedStep rank s a = some s') :
    Tracked s' := by
  obtain ⟨-, ⟨-, -, hframe, hloop⟩ | ⟨-, pool, hpool, rfl⟩ | ⟨sel, -, hdtor⟩⟩ :=
    orderedStep_cases h
  · exact hframe.tracked hloop hs
  · exact managerStep_tracked hs hpool
  · obtain ⟨-, rfl⟩ | ⟨hdangling, hmoves⟩ := orderedDtorStep_cases hdtor
    · exact hs.crash
    · exact hmoves.tracked hs hdangling

/-! ## Joins that are apart -/

/-- Each join is of another thread, a thread that is joinable lies ahead of the loop, and the
    loop stands on an element of the map. -/
structure Sound (rank : Nat ↪ Nat) (s : OrderedState) : Prop where
  once : ∀ i, s.pool.allJoins.count i ≤ 1
  joinable : ∀ i, (i, true) ∈ s.pool.threads → i ∉ s.pool.joins ∧ s.passed rank i = false
  dangling : s.dangling = false
  loop : s.loop ≠ .crashed

theorem Sound.joinedOnce (hs : Sound rank s) : JoinedOnce s := by
  refine ⟨?_, ?_, hs.loop⟩
  · rw [List.nodup_iff_count]
    intro i
    have hcount := count_allJoins s.pool i
    have honce := hs.once i
    omega
  · intro hd t ht
    obtain ⟨i, joinable⟩ := t
    cases joinable with
    | false => rfl
    | true =>
      have hpassed := (hs.joinable i ht).2
      rw [OrderedState.passed_of_ne (by simp [hd]), hd] at hpassed
      cases hpassed

/-- A thread that is found joinable is joined for the first time, if nobody else is about to
    join it. -/
theorem Sound.count_eq_zero {i : Nat} (hs : Sound rank s) (hmem : (i, true) ∈ s.pool.threads)
    (hmanager : s.pool.manager.joining ≠ some i) (hdtor : s.pool.dtor.joining ≠ some i) :
    s.pool.allJoins.count i = 0 := by
  have hjoins : s.pool.joins.count i = 0 := List.count_eq_zero.mpr (hs.joinable i hmem).1
  have hm : s.pool.manager.joining.toList.count i = 0 :=
    List.count_eq_zero.mpr fun h => hmanager (Option.mem_toList.mp h)
  have hd : s.pool.dtor.joining.toList.count i = 0 :=
    List.count_eq_zero.mpr fun h => hdtor (Option.mem_toList.mp h)
  rw [count_allJoins, hjoins, hm, hd]

/-- One more join of `i` is the first one, or there is none. -/
private theorem once_of_joining {n : Nat} {o : Option Nat} {i : Nat} (hle : n ≤ 1)
    (hzero : o = some i → n = 0) : n + o.toList.count i ≤ 1 := by
  cases o with
  | none => simpa using hle
  | some j =>
    by_cases hij : j = i
    · rw [hzero (by rw [hij])]
      simp [hij]
    · simpa [hij] using hle

theorem managerStep_sound (htracked : Tracked s) (hs : Sound rank s)
    (hC : JoinsApart rank s .manager) {pool : State} (h : managerStep s.pool = some pool) :
    Sound rank ⟨pool, s.loop⟩ := by
  obtain ⟨hinsert, herase, hreap⟩ := hC
  have hframe := managerStep_moves h
  constructor
  case once =>
    intro i
    rw [managerStep_count h]
    apply once_of_joining (hs.once i)
    intro hjoining
    rw [hframe.manager] at hjoining
    obtain ⟨ids, hm, rfl, hmem⟩ := ManagerPc.joining_next hjoining
    exact hs.count_eq_zero hmem (by simp [hm, ManagerPc.joining]) (hreap ids hm hmem)
  case joinable =>
    intro i hi
    rw [hframe.threads] at hi
    rw [managerStep_allJoins h, managerStep_passed h]
    obtain ⟨hmem, hne⟩ | hm := ManagerPc.of_mem_threads hi
    · obtain ⟨hnot, hpassed⟩ := hs.joinable i hmem
      refine ⟨fun hjoin => ?_, hpassed⟩
      obtain hjoin | hjoin := List.mem_append.mp hjoin
      · exact hnot hjoin
      · exact hne (Option.mem_toList.mp hjoin)
    · rw [hm]
      have hnot : i ∉ s.pool.joins := fun hjoin => (htracked.fresh i hm).2 (.inr (.inl hjoin))
      simp [ManagerPc.joining, hnot, hinsert i hm]
  case dangling =>
    rw [dangling_eq_false_iff]
    intro i hi
    rw [managerStep_standsOn h] at hi
    rw [hframe.threads]
    apply ManagerPc.keys_threads_kept (dangling_eq_false_iff.mp hs.dangling i hi)
    intro ids hm hid
    exact herase ids hm (hid ▸ hi)
  case loop => exact hs.loop

/-- Of what is joinable, the loop of the destructor has passed nothing when it goes on. -/
private theorem Sound.rank_le_of_nextThread {visited : List Nat} {i : Nat} {t : Nat × Bool}
    (hs : Sound rank s) (hd : s.pool.dtor = .joinLoop visited) (hloop : s.loop = .advance)
    (hnext : nextThread rank s.pool visited = some t) (hi : (i, true) ∈ s.pool.threads) :
    rank t.1 ≤ rank i := by
  have hpassed := (hs.joinable i hi).2
  rw [OrderedState.passed_advance hloop, hd, DtorPc.passed] at hpassed
  obtain hbehind | hle := behind_or_le_of_nextThread hnext hi
  · rw [hpassed] at hbehind
    cases hbehind
  · exact hle

/-- At the element of thread `tid`, what is joinable does not lie before it. -/
private theorem Sound.rank_le_of_entered {visited : List Nat} {i tid : Nat} (hs : Sound rank s)
    (hd : s.pool.dtor = .joinLoop visited) (hloop : s.loop = .entered tid)
    (hi : (i, true) ∈ s.pool.threads) : rank tid ≤ rank i := by
  have hpassed := (hs.joinable i hi).2
  rw [OrderedState.passed_entered hd hloop] at hpassed
  simpa using hpassed

/-- The next element lies ahead of all that are behind. -/
private theorem rank_lt_of_behind {visited : List Nat} {i : Nat} {t : Nat × Bool}
    (hnext : nextThread rank s.pool visited = some t) (hi : behind rank visited i = true) :
    rank i < rank t.1 := by
  have hahead := (mem_of_nextThread hnext).2
  simp only [behind, Option.any_eq_true, Option.any_eq_false, decide_eq_true_eq,
    decide_eq_false_iff_not] at hi hahead
  obtain ⟨last, hlast, hle⟩ := hi
  have hlt := hahead last hlast
  omega

/-- Where the loop of the destructor gets to, nothing that is joinable is left behind. -/
private theorem DtorMoves.joinable_ahead (htracked : Tracked s) (hs : Sound rank s)
    (h : DtorMoves rank s s') {i : Nat} (hi : (i, true) ∈ s'.pool.threads) :
    (i, true) ∈ s.pool.threads ∧ s.pool.dtor.joining ≠ some i ∧ s'.passed rank i = false := by
  cases h with
  | call hd => exact ⟨hi, by simp [hd, DtorPc.joining], rfl⟩
  | notify hd => exact ⟨hi, by simp [hd, DtorPc.joining], rfl⟩
  | @loopEnd visited hd hloop hnext =>
    -- the loop ends when it is past all elements
    have hpassed := (hs.joinable i hi).2
    rw [OrderedState.passed_advance hloop, hd, DtorPc.passed,
      behind_of_nextThread_eq_none hnext hi] at hpassed
    cases hpassed
  | @enter visited t hd hloop hnext =>
    have hle : rank t.1 ≤ rank i := hs.rank_le_of_nextThread hd hloop hnext hi
    refine ⟨hi, by simp [hd, DtorPc.joining], ?_⟩
    rw [OrderedState.passed_entered (s := ⟨s.pool, .entered t.1⟩) hd rfl]
    simpa using hle
  | @joinable visited tid hd hloop hmem =>
    have hle : rank tid ≤ rank i := hs.rank_le_of_entered hd hloop hi
    exact ⟨hi, by simp [hd, DtorPc.joining],
      by simpa [OrderedState.passed, DtorPc.passed] using hle⟩
  | @notJoinable visited tid hd hloop hmem =>
    have hle : rank tid ≤ rank i := hs.rank_le_of_entered hd hloop hi
    have hne : rank i ≠ rank tid := by
      intro heq
      obtain rfl := rank.injective heq
      exact hmem hi
    have hlt : rank tid < rank i := by omega
    exact ⟨hi, by simp [hd, DtorPc.joining],
      by simpa [OrderedState.passed, DtorPc.passed, behind] using hlt⟩
  | @join visited tid hd hexited =>
    obtain ⟨hmem, hne⟩ := mem_joined hi
    have hpassed := (hs.joinable i hmem).2
    rw [OrderedState.passed_of_ne (by simp [hd]), hd] at hpassed
    refine ⟨hmem, by simpa [hd, DtorPc.joining] using hne.symm, ?_⟩
    have hlt : rank tid < rank i := by
      have hle : rank tid ≤ rank i := by simpa [DtorPc.passed] using hpassed
      exact Nat.lt_of_le_of_ne hle fun heq => hne (rank.injective heq).symm
    simpa [OrderedState.passed, DtorPc.passed, behind, htracked.visiting tid visited hd] using hlt
  | joinManager hd hexited =>
    have hpassed := (hs.joinable i hi).2
    rw [OrderedState.passed_of_ne (by simp [hd]), hd] at hpassed
    cases hpassed
  | clear hd hlast => cases hi

theorem DtorMoves.sound {sel : Nat} (htracked : Tracked s) (hs : Sound rank s)
    (hC : JoinsApart rank s (.dtor sel)) (h : DtorMoves rank s s') : Sound rank s' := by
  constructor
  case once =>
    intro i
    rw [h.count]
    apply once_of_joining (hs.once i)
    intro hjoining
    obtain ⟨visited', hd'⟩ := DtorPc.joining_eq_some hjoining
    cases h with
    | @joinable visited tid hd hloop hmem =>
      cases hd'
      exact hs.count_eq_zero hmem (hC visited i hd hloop hmem) (by simp [hd, DtorPc.joining])
    | enter hd => cases hd.symm.trans hd'
    | clear hd hlast =>
      obtain rfl | rfl := hlast
      · cases hd'
      · cases hd'
    | _ => cases hd'
  case joinable =>
    intro i hi
    obtain ⟨hmem, hne, hpassed⟩ := h.joinable_ahead htracked hs hi
    refine ⟨fun hjoin => ?_, hpassed⟩
    rw [h.allJoins.2] at hjoin
    obtain hjoin | hjoin := List.mem_append.mp hjoin
    · exact (hs.joinable i hmem).1 hjoin
    · exact hne (Option.mem_toList.mp hjoin)
  case dangling => exact h.dangling htracked hs.dangling
  case loop => cases h <;> simp

/-- Steps that keep the joins apart join no thread twice and leave none. -/
theorem step_sound {a : Action} (htracked : Tracked s) (hs : Sound rank s)
    (hC : JoinsApart rank s a) (h : orderedStep rank s a = some s') : Sound rank s' := by
  obtain ⟨-, ⟨-, -, hframe, hloop⟩ | ⟨rfl, pool, hpool, rfl⟩ | ⟨sel, rfl, hdtor⟩⟩ :=
    orderedStep_cases h
  · have hjoins : s'.pool.allJoins = s.pool.allJoins := by
      rw [State.allJoins, State.allJoins, hframe.joins, hframe.manager, hframe.dtor]
    constructor
    · rw [hjoins]
      exact hs.once
    · simp only [OrderedState.passed, hframe.threads, hframe.joins, hframe.dtor, hloop]
      exact hs.joinable
    · rw [OrderedState.dangling, hframe.standsOn hloop, hframe.threads]
      exact hs.dangling
    · rw [hloop]
      exact hs.loop
  · exact managerStep_sound htracked hs hC hpool
  · obtain ⟨hdangling, -⟩ | ⟨-, hmoves⟩ := orderedDtorStep_cases hdtor
    · cases hs.dangling.symm.trans hdangling
    · exact hmoves.sound htracked hs hC

theorem orderedStart_sound (min max exitThread : Int) :
    Sound rank (orderedStart min max exitThread) := by
  constructor
  · intro i
    simp [State.allJoins, orderedStart, start, ManagerPc.joining, DtorPc.joining]
  · intro i _
    exact ⟨by simp [orderedStart, start], rfl⟩
  · rfl
  · simp [orderedStart]

/-! ## Joins that are not -/

/-- The loop of the destructor is past a joinable thread, and the manager cleans up no more. -/
def Overlooked (rank : Nat ↪ Nat) (s : OrderedState) : Prop :=
  s.pool.manager.leavingInsert = true ∧
    ∃ i, (i, true) ∈ s.pool.threads ∧ s.passed rank i = true

/-- A thread is joined twice or will be, one is overlooked, or the loop stands on an element
    that was erased; behind `m_workers.clear()` nothing is said. -/
def Spoiled (rank : Nat ↪ Nat) (s : OrderedState) : Prop :=
  (∃ i, 2 ≤ s.pool.allJoins.count i) ∨ Overlooked rank s ∨ s.dangling = true ∨
    s.loop = .crashed ∨ s.pool.dtor = .terminated ∨ s.pool.dtor = .returned

/-- The manager spoils a run when it inserts an element behind the loop, erases the one on
    which it stands, or finds the thread joinable that the destructor is about to join. -/
private theorem spoiled_of_manager {pool : State} (h : managerStep s.pool = some pool)
    (hC : ¬JoinsApart rank s .manager) : Spoiled rank ⟨pool, s.loop⟩ := by
  have hframe := managerStep_moves h
  have hdtor : pool.dtor = s.pool.dtor := (managerStep_frame h).2.2.2.2.1
  simp only [JoinsApart, Classical.not_and_iff_not_or_not, Classical.not_forall] at hC
  obtain ⟨tid, hm, hpassed⟩ | ⟨ids, hm, hstands⟩ | ⟨ids, hm, hmem, hjoining⟩ := hC
  · -- the new thread is behind the loop
    refine .inr (.inl ⟨?_, tid, ?_, ?_⟩)
    · rw [hframe.manager, hm]
      rfl
    · rw [hframe.threads, hm]
      exact List.mem_append_right _ (List.mem_singleton.mpr rfl)
    · rw [managerStep_passed h]
      simpa using hpassed
  · -- the loop is left with an iterator that is invalid
    refine .inr (.inr (.inl ?_))
    rw [OrderedState.dangling, managerStep_standsOn h, Classical.not_not.mp hstands, hframe.threads,
      hm]
    simp [ManagerPc.threads]
  · -- the destructor is about to join the thread
    refine .inl ⟨ids.headD 0, ?_⟩
    have hany : (s.pool.threads.any fun t => t.1 = ids.headD 0 ∧ t.2) = true :=
      List.any_eq_true.mpr ⟨_, hmem, by simp⟩
    have hjoining' : pool.manager.joining = some (ids.headD 0) := by
      rw [hframe.manager, hm, ManagerPc.next, if_pos hany]
      rfl
    rw [count_allJoins, hjoining', hdtor, Classical.not_not.mp hjoining]
    simp

/-- A step that does not keep the joins apart spoils the run. -/
theorem spoiled_of_not_joinsApart {a : Action} (h : orderedStep rank s a = some s')
    (hC : ¬JoinsApart rank s a) : Spoiled rank s' := by
  obtain ⟨-, ⟨hmanager, hdtor, -⟩ | ⟨rfl, pool, hpool, rfl⟩ | ⟨sel, rfl, hdtor⟩⟩ :=
    orderedStep_cases h
  · cases a with
    | manager => exact absurd rfl hmanager
    | dtor sel => exact absurd rfl (hdtor sel)
    | _ => exact absurd trivial hC
  · exact spoiled_of_manager hpool hC
  · simp only [JoinsApart, Classical.not_forall] at hC
    obtain ⟨visited, tid, hd, hloop, hmem, hjoining⟩ := hC
    obtain ⟨-, rfl⟩ | ⟨-, hmoves⟩ := orderedDtorStep_cases hdtor
    · exact .inr (.inr (.inr (.inl rfl)))
    · -- the manager is about to join the thread
      refine .inl ⟨tid, ?_⟩
      have hjoining' : s'.pool.dtor.joining = some tid := by
        cases hmoves with
        | joinable hd' hloop' =>
          cases hloop.symm.trans hloop'
          rfl
        | notJoinable hd' hloop' hnot =>
          cases hloop.symm.trans hloop'
          exact absurd hmem hnot
        | loopEnd hd' hloop' => cases hloop.symm.trans hloop'
        | enter hd' hloop' => cases hloop.symm.trans hloop'
        | call hd' | notify hd' | join hd' | joinManager hd' | clear hd' =>
          cases hd.symm.trans hd'
      rw [count_allJoins, hmoves.allJoins.1, Classical.not_not.mp hjoining, hjoining']
      simp

private theorem DtorMoves.overlooked (htracked : Tracked s) (hs : Overlooked rank s)
    (h : DtorMoves rank s s') : Spoiled rank s' := by
  obtain ⟨hm, i, hi, hpassed⟩ := hs
  cases h with
  | call hd | notify hd =>
    rw [OrderedState.passed_of_ne (by simp [hd]), hd] at hpassed
    cases hpassed
  | loopEnd hd => exact .inr (.inl ⟨hm, i, hi, rfl⟩)
  | @enter visited t hd hloop hnext =>
    rw [OrderedState.passed_advance hloop, hd] at hpassed
    have hlt : rank i < rank t.1 := rank_lt_of_behind hnext hpassed
    refine .inr (.inl ⟨hm, i, hi, ?_⟩)
    rw [OrderedState.passed_entered (s := ⟨s.pool, .entered t.1⟩) hd rfl]
    simpa using hlt
  | @joinable visited tid hd hloop hmem =>
    rw [OrderedState.passed_entered hd hloop] at hpassed
    exact .inr (.inl ⟨hm, i, hi, hpassed⟩)
  | @notJoinable visited tid hd hloop hmem =>
    rw [OrderedState.passed_entered hd hloop, decide_eq_true_eq] at hpassed
    refine .inr (.inl ⟨hm, i, hi, ?_⟩)
    simp only [OrderedState.passed, DtorPc.passed, behind, List.head?_cons, Option.any_some,
      decide_eq_true_eq]
    omega
  | @join visited tid hd hexited =>
    -- the worker that is joined is another one
    rw [OrderedState.passed_of_ne (by simp [hd]), hd] at hpassed
    have hlt : rank i < rank tid := by simpa [DtorPc.passed] using hpassed
    have hne : i ≠ tid := by
      rintro rfl
      omega
    refine .inr (.inl ⟨hm, i, List.mem_map.mpr ⟨_, hi, if_neg hne⟩, ?_⟩)
    simp only [OrderedState.passed, DtorPc.passed, behind, htracked.visiting tid visited hd,
      Option.any_some, decide_eq_true_eq]
    omega
  | joinManager hd => exact .inr (.inl ⟨hm, i, hi, rfl⟩)
  | clear hd hlast => exact .inr (.inr (.inr (.inr hlast)))

/-- The manager puts back no element that it has erased. -/
private theorem managerStep_dangling (htracked : Tracked s) (hs : s.dangling = true)
    {pool : State} (h : managerStep s.pool = some pool) :
    OrderedState.dangling ⟨pool, s.loop⟩ = true := by
  obtain ⟨tid, hstands, herased⟩ := (Option.any_eq_true _ _).mp hs
  refine (Option.any_eq_true _ _).mpr ⟨tid, (managerStep_standsOn h).trans hstands, ?_⟩
  rw [decide_eq_true_eq] at herased ⊢
  intro hmem
  rw [(managerStep_moves h).threads] at hmem
  obtain hmem | hm := ManagerPc.mem_keys_threads hmem
  · exact herased hmem
  · exact (htracked.fresh tid hm).2 (.inr (.inr hstands))

private theorem managerStep_spoiled (htracked : Tracked s) (hs : Spoiled rank s) {pool : State}
    (h : managerStep s.pool = some pool) : Spoiled rank ⟨pool, s.loop⟩ := by
  have hdtor : pool.dtor = s.pool.dtor := (managerStep_frame h).2.2.2.2.1
  have hframe := managerStep_moves h
  obtain ⟨i, htwice⟩ | ⟨hm, i, hi, hpassed⟩ | hdangling | hcrashed | hend := hs
  · refine .inl ⟨i, ?_⟩
    rw [managerStep_count h]
    omega
  · have hcalled : s.pool.dtor ≠ .notCalled := by
      intro hd
      rw [OrderedState.passed_of_ne (by simp [hd]), hd] at hpassed
      cases hpassed
    have hstop := htracked.called hcalled
    obtain ⟨hnext, hthreads⟩ := ManagerPc.leavingInsert_next hstop hm
    refine .inr (.inl ⟨?_, i, ?_, ?_⟩)
    · rw [hframe.manager]
      exact hnext
    · rw [hframe.threads, hthreads]
      exact hi
    · rw [managerStep_passed h]
      exact hpassed
  · exact .inr (.inr (.inl (managerStep_dangling htracked hdangling h)))
  · exact .inr (.inr (.inr (.inl hcrashed)))
  · rw [Spoiled, hdtor]
    exact .inr (.inr (.inr (.inr hend)))

private theorem DtorMoves.spoiled (htracked : Tracked s) (hdangling : s.dangling = false)
    (hloop : s.loop ≠ .crashed) (hs : Spoiled rank s) (h : DtorMoves rank s s') :
    Spoiled rank s' := by
  obtain ⟨i, htwice⟩ | hover | herased | hcrashed | hend := hs
  · refine .inl ⟨i, ?_⟩
    rw [h.count]
    omega
  · exact h.overlooked htracked hover
  · cases hdangling.symm.trans herased
  · exact absurd hcrashed hloop
  · obtain hend | hend := hend
    · cases h with
      | call hd | notify hd | loopEnd hd | enter hd | joinable hd | notJoinable hd | join hd
      | joinManager hd | clear hd => cases hend.symm.trans hd
    · cases h with
      | call hd | notify hd | loopEnd hd | enter hd | joinable hd | notJoinable hd | join hd
      | joinManager hd | clear hd => cases hend.symm.trans hd

/-- What is spoilt stays spoilt. -/
theorem step_spoiled {a : Action} (htracked : Tracked s) (hs : Spoiled rank s)
    (h : orderedStep rank s a = some s') : Spoiled rank s' := by
  obtain ⟨halive, ⟨-, -, hframe, hloop⟩ | ⟨-, pool, hpool, rfl⟩ | ⟨sel, -, hdtor⟩⟩ :=
    orderedStep_cases h
  · have hjoins : s'.pool.allJoins = s.pool.allJoins := by
      rw [State.allJoins, State.allJoins, hframe.joins, hframe.manager, hframe.dtor]
    simp only [Spoiled, Overlooked, OrderedState.passed, OrderedState.dangling, hjoins,
      hframe.standsOn hloop, hframe.manager, hframe.threads, hframe.dtor, hloop]
    exact hs
  · exact managerStep_spoiled htracked hs hpool
  · obtain ⟨-, rfl⟩ | ⟨hdangling, hmoves⟩ := orderedDtorStep_cases hdtor
    · exact .inr (.inr (.inr (.inl rfl)))
    · exact hmoves.spoiled htracked hdangling halive hs

/-- When the destructor gets to `m_workers.clear()`, it shows that the run was spoilt. -/
theorem not_spoiled_of_joinedOnce (htracked : Tracked s) (hd : s.pool.dtor = .clear)
    (h : JoinedOnce s) : ¬Spoiled rank s := by
  obtain ⟨hnodup, hclear, hloop⟩ := h
  rintro (⟨i, htwice⟩ | ⟨-, i, hi, -⟩ | hdangling | hcrashed | hend | hend)
  · have hcount := List.nodup_iff_count.mp hnodup i
    rw [count_allJoins, htracked.left hd, hd] at htwice
    simp only [ManagerPc.joining, DtorPc.joining, Option.toList_none, List.count_nil] at htwice
    omega
  · cases hclear hd _ hi
  · simp only [OrderedState.dangling, OrderedState.standsOn, hd] at hdangling
    cases hdangling
  · exact hloop hcrashed
  · cases hd.symm.trans hend
  · cases hd.symm.trans hend

/-! ## Runs -/

theorem run_tracked {min max exitThread : Int} {as : List Action} (hs : Tracked s)
    (hrun : (orderedSystem rank min max exitThread).run s as = some s') : Tracked s' := by
  apply Transition.run_invariant (I := Tracked) (C := fun _ _ => True) _ hs
    (Transition.allSteps_of_forall (D := fun _ => True) (fun _ _ => trivial) s) hrun
  intro s a s' hs _ hstep
  exact orderedStep_tracked hs hstep

end

/-- In a run whose steps keep the joins apart, no thread is joined twice, `m_workers.clear()`
    finds no joinable one and the loop uses no invalid iterator; and in a run that gets to
    `m_workers.clear()` that is so only if they do. -/
theorem joinedOnce_iff (rank : Nat ↪ Nat) (min max exitThread : Int) (as : List Action) :
    ((orderedSystem rank min max exitThread).AllSteps (JoinsApart rank)
        (orderedStart min max exitThread) as →
      (orderedSystem rank min max exitThread).Always JoinedOnce
        (orderedStart min max exitThread) as) ∧
    ∀ s, (orderedSystem rank min max exitThread).run (orderedStart min max exitThread) as = some s →
      s.pool.dtor = .clear →
      (JoinedOnce s ↔ (orderedSystem rank min max exitThread).AllSteps (JoinsApart rank)
        (orderedStart min max exitThread) as) := by
  have htracked := orderedStart_tracked min max exitThread
  have hsound : Sound rank (orderedStart min max exitThread) :=
    orderedStart_sound min max exitThread
  constructor
  · intro hC
    apply Transition.always_of_allSteps (I := fun s => Tracked s ∧ Sound rank s) _ _
      ⟨htracked, hsound⟩ hC
    · intro s a s' hs hC hstep
      exact ⟨orderedStep_tracked hs.1 hstep, step_sound hs.1 hs.2 hC hstep⟩
    · intro s hs
      exact hs.2.joinedOnce
  · intro s hrun hd
    constructor
    · intro hjoined
      have hend := run_tracked htracked hrun
      apply Transition.allSteps_of_run (I := Tracked) (K := Spoiled rank) _ _ _ htracked hrun
        (not_spoiled_of_joinedOnce hend hd hjoined)
      · intro s a s' hs hstep
        exact orderedStep_tracked hs hstep
      · intro s a s' _ hstep hnot
        exact spoiled_of_not_joinsApart hstep hnot
      · intro s a s' hs hspoiled hstep
        exact step_spoiled hs hspoiled hstep
    · intro hC
      have hend := Transition.run_invariant (I := fun s => Tracked s ∧ Sound rank s)
        (fun s a s' hs hC hstep =>
          ⟨orderedStep_tracked hs.1 hstep, step_sound hs.1 hs.2 hC hstep⟩)
        ⟨htracked, hsound⟩ hC hrun
      exact hend.2.joinedOnce

/-- The first task makes the manager start a second worker. The stop comes before it does, and
    the new worker is inserted when the loop of the destructor is over. -/
def lateInsertSchedule : List Action :=
  [Action.addTask ⟨0, true⟩] ++ List.replicate 6 (Action.worker 0) ++
    List.replicate 5 Action.manager ++ [Action.dtor 0, Action.dtor 0] ++
    List.replicate 3 (Action.worker 0) ++ List.replicate 4 (Action.dtor 0) ++
    List.replicate 5 Action.manager ++ [Action.dtor 0]

/-- Later both workers sleep and the manager lets them exit. -/
def exitedSchedule : List Action :=
  [Action.addTask ⟨0, true⟩] ++ List.replicate 6 (Action.worker 0) ++
    List.replicate 9 Action.manager ++ List.replicate 6 (Action.worker 0) ++
    List.replicate 4 (Action.worker 1) ++ List.replicate 7 Action.manager ++
    List.replicate 9 (Action.worker 1) ++ List.replicate 9 (Action.worker 0) ++
    List.replicate 4 Action.manager

/-- The manager has found the second worker joinable when the destructor finds it too. -/
def doubleJoinSchedule : List Action :=
  exitedSchedule ++ List.replicate 8 (Action.dtor 0) ++ [Action.manager]

/-- The destructor has joined the first worker when the manager erases both. -/
def erasedSchedule : List Action :=
  exitedSchedule ++ List.replicate 5 (Action.dtor 0) ++ List.replicate 5 Action.manager ++
    [Action.dtor 0]

/-- A thread can be joined twice, one can be joinable at `m_workers.clear()`, and the loop of
    the destructor can be left with an iterator that is invalid. -/
theorem not_joinedOnce :
    (¬∀ (rank : Nat ↪ Nat) (min max exitThread : Int) (s : OrderedState),
      (orderedSystem rank min max exitThread).Reachable s → s.pool.joins.Nodup) ∧
    (¬∀ (rank : Nat ↪ Nat) (min max exitThread : Int) (s : OrderedState),
      (orderedSystem rank min max exitThread).Reachable s → s.pool.dtor = .clear →
        ∀ t ∈ s.pool.threads, t.2 = false) ∧
    ¬∀ (rank : Nat ↪ Nat) (min max exitThread : Int) (s : OrderedState),
      (orderedSystem rank min max exitThread).Reachable s → s.loop ≠ .crashed := by
  have hinit : (orderedSystem (Function.Embedding.refl Nat) 1 2 0).init (orderedStart 1 2 0) := rfl
  refine ⟨fun h => ?_, fun h => ?_, fun h => ?_⟩
  · have hrun : ((orderedSystem (Function.Embedding.refl Nat) 1 2 0).run (orderedStart 1 2 0)
        doubleJoinSchedule).any (fun s => decide (s.pool.joins = [0, 1, 1])) = true := by decide
    obtain ⟨s, hs, htwice⟩ := Transition.exists_reachable_of_run hinit hrun
    have hnodup := h _ 1 2 0 s hs
    rw [htwice] at hnodup
    exact absurd hnodup (by decide)
  · have hrun : ((orderedSystem (Function.Embedding.refl Nat) 1 2 0).run (orderedStart 1 2 0)
        lateInsertSchedule).any
          (fun s => decide (s.pool.dtor = .clear ∧ (1, true) ∈ s.pool.threads)) = true := by
      decide
    obtain ⟨s, hs, hd, hmem⟩ := Transition.exists_reachable_of_run hinit hrun
    cases h _ 1 2 0 s hs hd _ hmem
  · have hrun : ((orderedSystem (Function.Embedding.refl Nat) 1 2 0).run (orderedStart 1 2 0)
        erasedSchedule).any (fun s => decide (s.loop = .crashed)) = true := by decide
    obtain ⟨s, hs, hcrashed⟩ := Transition.exists_reachable_of_run hinit hrun
    exact h _ 1 2 0 s hs hcrashed

end ThreadPool
