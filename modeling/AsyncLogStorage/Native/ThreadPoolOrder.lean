import AsyncLogStorage.Native.ThreadPool
import Mathlib.Logic.Embedding.Basic

/-!
# The join loop in the order of the map

The loop of `ThreadPool.dtorStep` meets the elements of `m_workers` in any order and ends
when it has met them all. `m_workers` is a `std::map`, which keeps them in the order of
their thread ids, and the loop goes up through that order: an element that the manager
inserts behind it is not met. `rank` says where a thread's id stands in the order, on
which the order of the starts has no influence.

The loop holds an iterator, which `m_workers.erase(it)` of the manager makes invalid when
it is the one of the same element. What the loop does with it then is undefined, and the
model ends there.
-/

namespace ThreadPool

/-- Where the loop over `m_workers` is between two joins. -/
inductive LoopPc where
  /-- Before `++it`, and at first before `begin()`. -/
  | advance
  /-- At the element of thread `tid`, before `joinable()`. -/
  | entered (tid : Nat)
  /-- The loop has used an iterator that was invalid. -/
  | crashed
deriving DecidableEq, Repr

/-- The pool, and the loop of its destructor over the map. -/
structure OrderedState where
  pool : State
  loop : LoopPc
deriving DecidableEq, Repr

/-- The thread on whose element the loop stands. -/
def OrderedState.standsOn (s : OrderedState) : Option Nat :=
  match s.pool.dtor, s.loop with
  | .joinLoop _, .entered tid => some tid
  | .joinLoop visited, .advance => visited.head?
  | .joinWorker tid _, _ => some tid
  | _, _ => none

/-- The element on which the loop stands was erased. -/
def OrderedState.dangling (s : OrderedState) : Bool :=
  s.standsOn.any fun tid => decide (tid ∉ s.pool.threads.map (·.1))

variable (rank : Nat ↪ Nat)

/-- The loop over `m_workers` is at the element of thread `tid`, or further on. -/
def behind (visited : List Nat) (tid : Nat) : Bool :=
  visited.head?.any fun last => decide (rank tid ≤ rank last)

/-- The element that `++it` leads to, where the one that it leaves is in the map. -/
def nextThread (s : State) (visited : List Nat) : Option (Nat × Bool) :=
  (s.threads.filter fun t => !behind rank visited t.1).minOn? fun t => rank t.1

/-- The next step of the destructor, whose loop goes up through the thread ids. -/
def orderedDtorStep (s : OrderedState) (sel : Nat) : Option OrderedState :=
  if s.dangling then
    some { s with loop := .crashed }
  else
    match s.pool.dtor, s.loop with
    | .joinLoop visited, .advance =>
      match nextThread rank s.pool visited with
      | none => some { s with pool := { s.pool with dtor := .joinManager } }
      | some t => some { s with loop := .entered t.1 }
    | .joinLoop visited, .entered tid =>
      if (tid, true) ∈ s.pool.threads then
        some ⟨{ s.pool with dtor := .joinWorker tid (tid :: visited) }, .advance⟩
      else
        some ⟨{ s.pool with dtor := .joinLoop (tid :: visited) }, .advance⟩
    | .joinLoop _, .crashed => none
    | _, _ => (dtorStep s.pool sel).map fun pool => ⟨pool, .advance⟩

def orderedStep (s : OrderedState) (a : Action) : Option OrderedState :=
  if s.loop = .crashed then
    none
  else
    match a with
    | .dtor sel => orderedDtorStep rank s sel
    | a => (step s.pool a).map fun pool => { s with pool := pool }

def orderedStart (min max exitThread : Int) : OrderedState :=
  ⟨start min max exitThread, .advance⟩

/-- The pool with its thread ids ordered by `rank`. -/
def orderedSystem (min max exitThread : Int) : Transition OrderedState Action where
  init s := s = orderedStart min max exitThread
  step := orderedStep rank

variable {rank}

/-- Every element that is left comes behind the next one. -/
theorem behind_or_le_of_nextThread {s : State} {visited : List Nat} {t u : Nat × Bool}
    (h : nextThread rank s visited = some t) (hu : u ∈ s.threads) :
    behind rank visited u.1 = true ∨ rank t.1 ≤ rank u.1 := by
  by_cases hbehind : behind rank visited u.1 = true
  · exact .inl hbehind
  · right
    have hmem : u ∈ s.threads.filter fun t => !behind rank visited t.1 := by
      rw [List.mem_filter]
      exact ⟨hu, by simpa using hbehind⟩
    have hle := List.apply_get_minOn?_le_of_mem (f := fun t : Nat × Bool => rank t.1) hmem
    have hget := Option.some_get (List.isSome_minOn?_of_mem (f := fun t : Nat × Bool => rank t.1)
      hmem)
    rw [nextThread, ← hget] at h
    rw [Option.some.inj h] at hle
    exact hle

theorem mem_of_nextThread {s : State} {visited : List Nat} {t : Nat × Bool}
    (h : nextThread rank s visited = some t) : t ∈ s.threads ∧ behind rank visited t.1 = false := by
  have hmem := List.mem_filter.mp (List.minOn?_mem h)
  exact ⟨hmem.1, by simpa using hmem.2⟩

/-- The loop ends when it is past all elements. -/
theorem behind_of_nextThread_eq_none {s : State} {visited : List Nat} {u : Nat × Bool}
    (h : nextThread rank s visited = none) (hu : u ∈ s.threads) :
    behind rank visited u.1 = true := by
  by_contra hbehind
  have hmem : u ∈ s.threads.filter fun t => !behind rank visited t.1 := by
    rw [List.mem_filter]
    exact ⟨hu, by simpa using hbehind⟩
  have hsome := List.isSome_minOn?_of_mem (f := fun t : Nat × Bool => rank t.1) hmem
  rw [nextThread] at h
  rw [h] at hsome
  cases hsome

/-- What a step of the destructor does that uses no invalid iterator. -/
inductive DtorMoves (rank : Nat ↪ Nat) (s : OrderedState) : OrderedState → Prop where
  | call (hd : s.pool.dtor = .notCalled) :
      DtorMoves rank s ⟨{ s.pool with dtor := .notifyAll, stop := true }, .advance⟩
  | notify (hd : s.pool.dtor = .notifyAll) :
      DtorMoves rank s
        ⟨{ s.pool with dtor := .joinLoop [], workers := notifyAll s.pool.workers }, .advance⟩
  | loopEnd {visited : List Nat} (hd : s.pool.dtor = .joinLoop visited)
      (hloop : s.loop = .advance) (hnext : nextThread rank s.pool visited = none) :
      DtorMoves rank s ⟨{ s.pool with dtor := .joinManager }, .advance⟩
  | enter {visited : List Nat} {t : Nat × Bool} (hd : s.pool.dtor = .joinLoop visited)
      (hloop : s.loop = .advance) (hnext : nextThread rank s.pool visited = some t) :
      DtorMoves rank s ⟨s.pool, .entered t.1⟩
  | joinable {visited : List Nat} {tid : Nat} (hd : s.pool.dtor = .joinLoop visited)
      (hloop : s.loop = .entered tid) (hmem : (tid, true) ∈ s.pool.threads) :
      DtorMoves rank s ⟨{ s.pool with dtor := .joinWorker tid (tid :: visited) }, .advance⟩
  | notJoinable {visited : List Nat} {tid : Nat} (hd : s.pool.dtor = .joinLoop visited)
      (hloop : s.loop = .entered tid) (hmem : (tid, true) ∉ s.pool.threads) :
      DtorMoves rank s ⟨{ s.pool with dtor := .joinLoop (tid :: visited) }, .advance⟩
  | join {visited : List Nat} {tid : Nat} (hd : s.pool.dtor = .joinWorker tid visited)
      (hexited : s.pool.workers[tid]? = some .exited) :
      DtorMoves rank s
        ⟨{ s.pool with
          dtor := .joinLoop visited
          threads := s.pool.threads.map fun t => if t.1 = tid then (t.1, false) else t
          joins := s.pool.joins ++ [tid] }, .advance⟩
  | joinManager (hd : s.pool.dtor = .joinManager) (hexited : s.pool.manager = .exited) :
      DtorMoves rank s ⟨{ s.pool with dtor := .clear }, .advance⟩
  | clear {last : DtorPc} (hd : s.pool.dtor = .clear)
      (hlast : last = .terminated ∨ last = .returned) :
      DtorMoves rank s ⟨{ s.pool with dtor := last, threads := [] }, .advance⟩

/-- What the steps of the destructor do. -/
theorem orderedDtorStep_cases {s s' : OrderedState} {sel : Nat}
    (h : orderedDtorStep rank s sel = some s') :
    (s.dangling = true ∧ s' = { s with loop := .crashed }) ∨
      (s.dangling = false ∧ DtorMoves rank s s') := by
  by_cases hdangling : s.dangling = true
  · simp only [orderedDtorStep, if_pos hdangling, Option.some.injEq] at h
    exact .inl ⟨hdangling, h.symm⟩
  · rw [orderedDtorStep, if_neg hdangling] at h
    refine .inr ⟨by simpa using hdangling, ?_⟩
    obtain ⟨pool, loop⟩ := s
    cases hd : pool.dtor with
    | joinLoop visited =>
      cases loop with
      | advance =>
        simp only [hd] at h
        cases hnext : nextThread rank pool visited with
        | none =>
          simp only [hnext, Option.some.injEq] at h
          rw [← h]
          exact .loopEnd hd rfl hnext
        | some t =>
          simp only [hnext, Option.some.injEq] at h
          rw [← h]
          exact .enter hd rfl hnext
      | entered tid =>
        simp only [hd] at h
        by_cases hmem : (tid, true) ∈ pool.threads
        · rw [if_pos hmem, Option.some.injEq] at h
          rw [← h]
          exact .joinable hd rfl hmem
        · rw [if_neg hmem, Option.some.injEq] at h
          rw [← h]
          exact .notJoinable hd rfl hmem
      | crashed =>
        simp only [hd] at h
        cases h
    | notCalled =>
      simp only [hd, dtorStep, Option.map_some, Option.some.injEq] at h
      rw [← h]
      exact .call hd
    | notifyAll =>
      simp only [hd, dtorStep, Option.map_some, Option.some.injEq] at h
      rw [← h]
      exact .notify hd
    | joinWorker tid visited =>
      simp only [hd, dtorStep] at h
      obtain ⟨pool', hs, rfl⟩ := Option.map_eq_some_iff.mp h
      obtain ⟨hexited, hs⟩ := Option.ite_none_right_eq_some.mp hs
      cases hs
      exact .join hd hexited
    | joinManager =>
      simp only [hd, dtorStep] at h
      obtain ⟨pool', hs, rfl⟩ := Option.map_eq_some_iff.mp h
      obtain ⟨hexited, hs⟩ := Option.ite_none_right_eq_some.mp hs
      cases hs
      exact .joinManager hd hexited
    | clear =>
      simp only [hd, dtorStep, Option.map_some, Option.some.injEq] at h
      rw [← h]
      apply DtorMoves.clear hd
      split
      · exact .inl rfl
      · exact .inr rfl
    | returned | terminated =>
      simp only [hd, dtorStep] at h
      cases h

end ThreadPool
