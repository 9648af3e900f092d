import AsyncLogStorage.ForStd.List
import AsyncLogStorage.ForStd.Transition

/-!
# Readers–writer locks for the standard library

An object whose operations run in small steps, each operation in a section under a
readers–writer lock. Any number of threads call operations, and between two small steps of one
thread the others may take theirs.

If the operations that run under the read lock do not change the state, then every execution has
an atomic one: the operations that have left their sections, in that order, each of them run
from its first step to its last with nothing in between, return the same results.

## Key results

- `RwObject.Locked`: what the lock word says of the threads
- `RwObject.exists_step`: while an operation is under way some thread can go on
- `RwObject.reachable_atomic`: a reachable state has an atomic one with the same log, and the
  same shared state when nobody writes
- `RwObject.Ends.unique`: an operation that runs alone has one outcome
-/

inductive RwMode where
  | read
  | write
deriving DecidableEq, Repr

/-- Operations `ω` on a shared state `σ`, with local states `ℓ` and results `ρ`. -/
structure RwObject (σ ω ℓ ρ : Type) where
  /-- How the section of an operation takes the lock. -/
  mode : ω → RwMode
  /-- The local state at the start of the section. -/
  enter : ω → ℓ
  /-- The next small step of the section, or the result at its end. -/
  next : ω → ℓ → σ → (ℓ × σ) ⊕ ρ

namespace RwObject

variable {σ ω ℓ ρ : Type}

/-! ## An operation alone -/

/-- An operation that runs alone, for at most `fuel` steps. -/
def run (O : RwObject σ ω ℓ ρ) (op : ω) : Nat → ℓ → σ → Option (σ × ρ)
  | 0, _, _ => none
  | fuel + 1, l, s =>
    match O.next op l s with
    | .inl next => O.run op fuel next.1 next.2
    | .inr r => some (s, r)

/-- The whole operation. -/
def perform (O : RwObject σ ω ℓ ρ) (op : ω) (fuel : Nat) (s : σ) : Option (σ × ρ) :=
  O.run op fuel (O.enter op) s

/-- An operation that runs alone from `l` and `x` comes to its end. -/
def Ends (O : RwObject σ ω ℓ ρ) (op : ω) (l : ℓ) (x : σ) (out : σ × ρ) : Prop :=
  ∃ fuel, O.run op fuel l x = some out

/-- Small steps of one operation lead from `l` and `s` to `l'` and `s'`. -/
inductive Steps (O : RwObject σ ω ℓ ρ) (op : ω) (l : ℓ) (s : σ) : ℓ → σ → Prop where
  | refl : Steps O op l s l s
  | snoc {l' l'' : ℓ} {s' s'' : σ} (h : Steps O op l s l' s')
      (hnext : O.next op l' s' = .inl (l'', s'')) : Steps O op l s l'' s''

/-- The operations under the read lock leave the state as it is. -/
def ReadsOnly (O : RwObject σ ω ℓ ρ) : Prop :=
  ∀ op l s l' s', O.mode op = .read → O.Steps op (O.enter op) s l s →
    O.next op l s = .inl (l', s') → s' = s

/-! ## The object under its lock -/

/-- Where a thread is. -/
inductive RwPc (ω ℓ ρ : Type) where
  | idle
  /-- Before it has the lock. -/
  | calling (op : ω)
  | inside (op : ω) (l : ℓ)
  /-- Before it gives the lock back. -/
  | leaving (op : ω) (r : ρ)
deriving DecidableEq, Repr

/-- The thread has the lock in a mode. -/
def RwPc.holds (O : RwObject σ ω ℓ ρ) (m : RwMode) : RwPc ω ℓ ρ → Bool
  | .inside op _ => O.mode op == m
  | .leaving op _ => O.mode op == m
  | _ => false

@[simp] theorem RwPc.holds_idle (O : RwObject σ ω ℓ ρ) (m : RwMode) :
    (RwPc.idle : RwPc ω ℓ ρ).holds O m = false := rfl

@[simp] theorem RwPc.holds_calling (O : RwObject σ ω ℓ ρ) (m : RwMode) (op : ω) :
    (RwPc.calling op : RwPc ω ℓ ρ).holds O m = false := rfl

@[simp] theorem RwPc.holds_inside (O : RwObject σ ω ℓ ρ) (m : RwMode) (op : ω) (l : ℓ) :
    (RwPc.inside op l : RwPc ω ℓ ρ).holds O m = (O.mode op == m) := rfl

@[simp] theorem RwPc.holds_leaving (O : RwObject σ ω ℓ ρ) (m : RwMode) (op : ω) (r : ρ) :
    (RwPc.leaving op r : RwPc ω ℓ ρ).holds O m = (O.mode op == m) := rfl

structure RwState (σ ω ℓ ρ : Type) where
  shared : σ
  /-- The lock: the number of readers, and whether there is a writer. -/
  readers : Nat
  writer : Bool
  threads : List (RwPc ω ℓ ρ)
  /-- The operations that have given the lock back, with their threads and results. -/
  log : List (Nat × ω × ρ)
deriving DecidableEq, Repr

inductive RwAction (ω : Type) where
  | call (i : Nat) (op : ω)
  | lock (i : Nat)
  /-- A small step of the section. -/
  | step (i : Nat)
  | unlock (i : Nat)
deriving DecidableEq, Repr

/-- The lock is free for a mode. -/
def RwState.free (s : RwState σ ω ℓ ρ) : RwMode → Bool
  | .read => !s.writer
  | .write => !s.writer && s.readers == 0

def RwState.acquire (s : RwState σ ω ℓ ρ) : RwMode → RwState σ ω ℓ ρ
  | .read => { s with readers := s.readers + 1 }
  | .write => { s with writer := true }

def RwState.release (s : RwState σ ω ℓ ρ) : RwMode → RwState σ ω ℓ ρ
  | .read => { s with readers := s.readers - 1 }
  | .write => { s with writer := false }

def step (O : RwObject σ ω ℓ ρ) (s : RwState σ ω ℓ ρ) : RwAction ω → Option (RwState σ ω ℓ ρ)
  | .call i op =>
    match s.threads[i]? with
    | some .idle => some { s with threads := s.threads.set i (.calling op) }
    | _ => none
  | .lock i =>
    match s.threads[i]? with
    | some (.calling op) =>
      if s.free (O.mode op) then
        some ({ s with
          threads := s.threads.set i (.inside op (O.enter op)) }.acquire (O.mode op))
      else none
    | _ => none
  | .step i =>
    match s.threads[i]? with
    | some (.inside op l) =>
      match O.next op l s.shared with
      | .inl next =>
        some { s with shared := next.2, threads := s.threads.set i (.inside op next.1) }
      | .inr r => some { s with threads := s.threads.set i (.leaving op r) }
    | _ => none
  | .unlock i =>
    match s.threads[i]? with
    | some (.leaving op r) =>
      some ({ s with
        threads := s.threads.set i .idle
        log := s.log ++ [(i, op, r)] }.release (O.mode op))
    | _ => none

/-- `n` threads that have not called anything, on the state `shared`. -/
def start (shared : σ) (n : Nat) : RwState σ ω ℓ ρ where
  shared := shared
  readers := 0
  writer := false
  threads := List.replicate n .idle
  log := []

/-- The object under its lock. -/
def system (O : RwObject σ ω ℓ ρ) (shared : σ) : Transition (RwState σ ω ℓ ρ) (RwAction ω) where
  init s := ∃ n, s = start shared n
  step := O.step

/-! ## The atomic object -/

/-- The state and the log of an object each of whose operations is one step. -/
structure AtomicState (σ ω ρ : Type) where
  shared : σ
  log : List (Nat × ω × ρ)
deriving DecidableEq, Repr

/-- Thread `i` performs an operation, which takes at most `fuel` small steps. -/
structure AtomicAction (ω : Type) where
  i : Nat
  op : ω
  fuel : Nat
deriving DecidableEq, Repr

def atomic (O : RwObject σ ω ℓ ρ) (shared : σ) :
    Transition (AtomicState σ ω ρ) (AtomicAction ω) where
  init t := t = ⟨shared, []⟩
  step t a := (O.perform a.op a.fuel t.shared).map fun after =>
    ⟨after.1, t.log ++ [(a.i, a.op, after.2)]⟩

variable {O : RwObject σ ω ℓ ρ} {s s' : RwState σ ω ℓ ρ}

/-! ## What a step does -/

/-- The kinds of steps. -/
theorem step_cases {a : RwAction ω} (h : O.step s a = some s') :
    (∃ i op, a = .call i op ∧ s.threads[i]? = some .idle ∧
      s' = { s with threads := s.threads.set i (.calling op) }) ∨
    (∃ i op, a = .lock i ∧ s.threads[i]? = some (.calling op) ∧ s.free (O.mode op) = true ∧
      s' = { s with threads := s.threads.set i (.inside op (O.enter op)) }.acquire (O.mode op)) ∨
    (∃ i op l l' x, a = .step i ∧ s.threads[i]? = some (.inside op l) ∧
      O.next op l s.shared = .inl (l', x) ∧
      s' = { s with shared := x, threads := s.threads.set i (.inside op l') }) ∨
    (∃ i op l r, a = .step i ∧ s.threads[i]? = some (.inside op l) ∧
      O.next op l s.shared = .inr r ∧
      s' = { s with threads := s.threads.set i (.leaving op r) }) ∨
    ∃ i op r, a = .unlock i ∧ s.threads[i]? = some (.leaving op r) ∧
      s' = { s with
        threads := s.threads.set i .idle
        log := s.log ++ [(i, op, r)] }.release (O.mode op) := by
  cases a with
  | call i op =>
    simp only [step] at h
    split at h
    · rename_i hi
      exact .inl ⟨i, op, rfl, hi, (Option.some.inj h).symm⟩
    · cases h
  | lock i =>
    simp only [step] at h
    split at h
    · rename_i op hi
      obtain ⟨hfree, h⟩ := Option.ite_none_right_eq_some.mp h
      exact .inr (.inl ⟨i, op, rfl, hi, hfree, (Option.some.inj h).symm⟩)
    · cases h
  | step i =>
    simp only [step] at h
    split at h
    · rename_i op l hi
      split at h
      · rename_i next hnext
        exact .inr (.inr (.inl
          ⟨i, op, l, next.1, next.2, rfl, hi, hnext, (Option.some.inj h).symm⟩))
      · rename_i r hnext
        exact .inr (.inr (.inr (.inl ⟨i, op, l, r, rfl, hi, hnext, (Option.some.inj h).symm⟩)))
    · cases h
  | unlock i =>
    simp only [step] at h
    split at h
    · rename_i op r hi
      exact .inr (.inr (.inr (.inr ⟨i, op, r, rfl, hi, (Option.some.inj h).symm⟩)))
    · cases h

@[simp] theorem acquire_threads (s : RwState σ ω ℓ ρ) (m : RwMode) :
    (s.acquire m).threads = s.threads := by
  cases m <;> rfl

@[simp] theorem acquire_shared (s : RwState σ ω ℓ ρ) (m : RwMode) :
    (s.acquire m).shared = s.shared := by
  cases m <;> rfl

@[simp] theorem acquire_log (s : RwState σ ω ℓ ρ) (m : RwMode) :
    (s.acquire m).log = s.log := by
  cases m <;> rfl

@[simp] theorem release_threads (s : RwState σ ω ℓ ρ) (m : RwMode) :
    (s.release m).threads = s.threads := by
  cases m <;> rfl

@[simp] theorem release_shared (s : RwState σ ω ℓ ρ) (m : RwMode) :
    (s.release m).shared = s.shared := by
  cases m <;> rfl

@[simp] theorem release_log (s : RwState σ ω ℓ ρ) (m : RwMode) :
    (s.release m).log = s.log := by
  cases m <;> rfl

/-! ## The lock -/

/-- What the lock word says of the threads. -/
structure Locked (O : RwObject σ ω ℓ ρ) (s : RwState σ ω ℓ ρ) : Prop where
  readers_eq : s.threads.countP (·.holds O .read) = s.readers
  writers_eq : s.threads.countP (·.holds O .write) = if s.writer then 1 else 0
  apart : s.writer = true → s.readers = 0
  /-- A thread that has it for writing is the only one that has it. -/
  alone : ∀ (i j : Nat) pc pc' m, s.threads[i]? = some pc → s.threads[j]? = some pc' →
    pc.holds O .write = true → pc'.holds O m = true → i = j

private theorem countP_set_add {α : Type} {p : α → Bool} {as : List α} {i : Nat} {a : α} (b : α)
    (h : as[i]? = some a) :
    (as.set i b).countP p + (if p a then 1 else 0) = as.countP p + if p b then 1 else 0 := by
  obtain ⟨hi, rfl⟩ := List.getElem?_eq_some_iff.mp h
  rw [List.countP_set hi]
  have hpos : p as[i] = true → 0 < as.countP p := by
    intro hp
    exact List.countP_pos_iff.mpr ⟨as[i], List.getElem_mem hi, hp⟩
  split <;> rename_i hp
  · have := hpos hp
    omega
  · omega

theorem Locked.readers_pos (h : Locked O s) {i : Nat} {pc : RwPc ω ℓ ρ}
    (hi : s.threads[i]? = some pc) (hpc : pc.holds O .read = true) : 0 < s.readers := by
  rw [← h.readers_eq]
  exact List.countP_pos_iff.mpr ⟨pc, List.mem_of_getElem? hi, hpc⟩

theorem Locked.writer_eq (h : Locked O s) {i : Nat} {pc : RwPc ω ℓ ρ}
    (hi : s.threads[i]? = some pc) (hpc : pc.holds O .write = true) : s.writer = true := by
  have hpos := List.countP_pos_iff.mpr ⟨pc, List.mem_of_getElem? hi, hpc⟩
  rw [h.writers_eq] at hpos
  cases hw : s.writer with
  | true => rfl
  | false => simp [hw] at hpos

/-- While a thread reads nobody writes. -/
theorem Locked.writer_eq_false (h : Locked O s) {i : Nat} {pc : RwPc ω ℓ ρ}
    (hi : s.threads[i]? = some pc) (hpc : pc.holds O .read = true) : s.writer = false := by
  have hpos := h.readers_pos hi hpc
  cases hw : s.writer with
  | false => rfl
  | true =>
    have := h.apart hw
    omega

/-- Nobody has a lock that is free for writing, and nobody writes when it is free for reading. -/
theorem Locked.not_holds (h : Locked O s) {m : RwMode} (hfree : s.free m = true) {i : Nat}
    {pc : RwPc ω ℓ ρ} (hi : s.threads[i]? = some pc) :
    pc.holds O .write = false ∧ (m = .write → pc.holds O .read = false) := by
  constructor
  · cases hpc : pc.holds O .write with
    | false => rfl
    | true =>
      have hw := h.writer_eq hi hpc
      cases m <;> simp [RwState.free, hw] at hfree
  · rintro rfl
    cases hpc : pc.holds O .read with
    | false => rfl
    | true =>
      have hpos := h.readers_pos hi hpc
      simp [RwState.free] at hfree
      omega

/-- A thread that goes on without touching the lock. -/
theorem Locked.goes (h : Locked O s) {i : Nat} {pc pc' : RwPc ω ℓ ρ}
    (hi : s.threads[i]? = some pc) (x : σ) (hsame : ∀ m, pc'.holds O m = pc.holds O m) :
    Locked O { s with shared := x, threads := s.threads.set i pc' } := by
  have hcount : ∀ m, (s.threads.set i pc').countP (·.holds O m) =
      s.threads.countP (·.holds O m) := by
    intro m
    have hadd := countP_set_add (p := (·.holds O m)) pc' hi
    simp only [hsame m] at hadd
    omega
  -- what a thread holds now it held before
  have hback : ∀ (j : Nat) (pcj : RwPc ω ℓ ρ), (s.threads.set i pc')[j]? = some pcj →
      ∃ pcj' : RwPc ω ℓ ρ, s.threads[j]? = some pcj' ∧ ∀ m, pcj.holds O m = pcj'.holds O m := by
    intro j pcj hj
    obtain ⟨rfl, rfl⟩ | ⟨-, hj⟩ := List.getElem?_set_cases hj
    · exact ⟨pc, hi, hsame⟩
    · exact ⟨pcj, hj, fun _ => rfl⟩
  refine ⟨(hcount .read).trans h.readers_eq, (hcount .write).trans h.writers_eq, h.apart, ?_⟩
  intro j k pcj pck m hj hk hwrite hholds
  obtain ⟨pcj', hj', hsamej⟩ := hback j pcj hj
  obtain ⟨pck', hk', hsamek⟩ := hback k pck hk
  rw [hsamej] at hwrite
  rw [hsamek] at hholds
  exact h.alone j k pcj' pck' m hj' hk' hwrite hholds

/-- A thread takes a free lock. -/
theorem Locked.acquire (h : Locked O s) {i : Nat} {op : ω}
    (hi : s.threads[i]? = some (.calling op)) (hfree : s.free (O.mode op) = true) :
    Locked O ({ s with
      threads := s.threads.set i (.inside op (O.enter op)) }.acquire (O.mode op)) := by
  have hread := countP_set_add (p := (·.holds O .read)) (.inside op (O.enter op)) hi
  have hwrite := countP_set_add (p := (·.holds O .write)) (.inside op (O.enter op)) hi
  have hreaders := h.readers_eq
  have hwriters := h.writers_eq
  have halone : ∀ (j k : Nat) pcj pck m,
      (s.threads.set i (.inside op (O.enter op)))[j]? = some pcj →
      (s.threads.set i (.inside op (O.enter op)))[k]? = some pck →
      pcj.holds O .write = true → pck.holds O m = true → j = k := by
    intro j k pcj pck m hj hk hwj hmk
    obtain ⟨rfl, rfl⟩ | ⟨hne, hj⟩ := List.getElem?_set_cases hj
    · obtain ⟨rfl, -⟩ | ⟨-, hk⟩ := List.getElem?_set_cases hk
      · rfl
      · -- it takes the lock for writing, so nobody has it
        have hmode : O.mode op = .write := by simpa using hwj
        obtain ⟨hnotw, hnotr⟩ := h.not_holds hfree hk
        cases m with
        | read => simp [hnotr hmode] at hmk
        | write => simp [hnotw] at hmk
    · simp [(h.not_holds hfree hj).1] at hwj
  cases hmode : O.mode op with
  | read =>
    rw [hmode] at hfree
    simp [hmode] at hread hwrite
    constructor
    case readers_eq =>
      show (s.threads.set i (.inside op (O.enter op))).countP (·.holds O .read) = s.readers + 1
      omega
    case writers_eq => exact hwrite.trans hwriters
    case apart =>
      intro hw
      have hw : s.writer = true := hw
      simp [RwState.free, hw] at hfree
    case alone => exact halone
  | write =>
    rw [hmode] at hfree
    simp [hmode] at hread hwrite
    simp [RwState.free] at hfree
    rw [hfree.1] at hwriters
    constructor
    case readers_eq => exact hread.trans hreaders
    case writers_eq =>
      show (s.threads.set i (.inside op (O.enter op))).countP (·.holds O .write) = 1
      simp only [Bool.false_eq_true, ↓reduceIte] at hwriters
      omega
    case apart => exact fun _ => hfree.2
    case alone => exact halone

/-- A thread gives the lock back. -/
theorem Locked.release (h : Locked O s) {i : Nat} {op : ω} {r : ρ}
    (hi : s.threads[i]? = some (.leaving op r)) (log : List (Nat × ω × ρ)) :
    Locked O ({ s with
      threads := s.threads.set i .idle
      log := log }.release (O.mode op)) := by
  have hread := countP_set_add (p := (·.holds O .read)) .idle hi
  have hwrite := countP_set_add (p := (·.holds O .write)) .idle hi
  have hreaders := h.readers_eq
  have hwriters := h.writers_eq
  have halone : ∀ (j k : Nat) pcj pck m, (s.threads.set i .idle)[j]? = some pcj →
      (s.threads.set i .idle)[k]? = some pck →
      pcj.holds O .write = true → pck.holds O m = true → j = k := by
    intro j k pcj pck m hj hk hwj hmk
    obtain ⟨-, rfl⟩ | ⟨-, hj⟩ := List.getElem?_set_cases hj
    · simp at hwj
    · obtain ⟨-, rfl⟩ | ⟨-, hk⟩ := List.getElem?_set_cases hk
      · simp at hmk
      · exact h.alone j k pcj pck m hj hk hwj hmk
  cases hmode : O.mode op with
  | read =>
    simp [hmode] at hread hwrite
    have hwriter := h.writer_eq_false hi (by simp [hmode])
    constructor
    case readers_eq =>
      show (s.threads.set i .idle).countP (·.holds O .read) = s.readers - 1
      omega
    case writers_eq => exact hwrite.trans hwriters
    case apart =>
      intro hw
      have hw : s.writer = true := hw
      simp [hw] at hwriter
    case alone => exact halone
  | write =>
    simp [hmode] at hread hwrite
    have hwriter := h.writer_eq hi (by simp [hmode])
    rw [hwriter] at hwriters
    constructor
    case readers_eq => exact hread.trans hreaders
    case writers_eq =>
      show (s.threads.set i .idle).countP (·.holds O .write) = 0
      simp only [↓reduceIte] at hwriters
      omega
    case apart => exact fun hw => nomatch hw
    case alone => exact halone

theorem step_locked {a : RwAction ω} (h : Locked O s) (hstep : O.step s a = some s') :
    Locked O s' := by
  obtain ⟨i, op, -, hi, rfl⟩ | ⟨i, op, -, hi, hfree, rfl⟩ | ⟨i, op, l, l', x, -, hi, -, rfl⟩ |
    ⟨i, op, l, r, -, hi, -, rfl⟩ | ⟨i, op, r, -, hi, rfl⟩ := step_cases hstep
  · exact h.goes hi s.shared fun _ => by rfl
  · exact h.acquire hi hfree
  · exact h.goes hi x fun _ => by rfl
  · exact h.goes hi s.shared fun _ => by rfl
  · exact h.release hi _

theorem start_locked (O : RwObject σ ω ℓ ρ) (shared : σ) (n : Nat) :
    Locked O (start shared n : RwState σ ω ℓ ρ) where
  readers_eq := by simp [start]
  writers_eq := by simp [start]
  apart := by simp [start]
  alone := by
    intro i j pc pc' m hi _ hwrite
    obtain ⟨-, rfl⟩ := List.mem_replicate.mp (List.mem_of_getElem? hi)
    simp at hwrite

/-! ## Operations alone -/

/-- What an operation does alone does not depend on the fuel it is given. -/
theorem run_add {op : ω} {fuel : Nat} {l : ℓ} {x : σ} {out : σ × ρ}
    (h : O.run op fuel l x = some out) (more : Nat) : O.run op (fuel + more) l x = some out := by
  induction fuel generalizing l x with
  | zero => cases h
  | succ fuel ih =>
    rw [Nat.succ_add]
    simp only [run] at h ⊢
    split at h
    · exact ih h
    · exact h

/-- An operation that runs alone has one outcome. -/
theorem Ends.unique {op : ω} {l : ℓ} {x : σ} {out out' : σ × ρ} (h : O.Ends op l x out)
    (h' : O.Ends op l x out') : out = out' := by
  obtain ⟨fuel, hrun⟩ := h
  obtain ⟨fuel', hrun'⟩ := h'
  have hmore := run_add hrun fuel'
  have hmore' := run_add hrun' fuel
  rw [Nat.add_comm] at hmore'
  exact Option.some.inj (hmore.symm.trans hmore')

theorem Ends.here {op : ω} {l : ℓ} {x : σ} {r : ρ} (h : O.next op l x = .inr r) :
    O.Ends op l x (x, r) :=
  ⟨1, by simp only [run, h]⟩

theorem Ends.next {op : ω} {l l' : ℓ} {x x' : σ} {out : σ × ρ}
    (h : O.next op l x = .inl (l', x')) (hends : O.Ends op l' x' out) : O.Ends op l x out := by
  obtain ⟨fuel, hrun⟩ := hends
  exact ⟨fuel + 1, by simp only [run, h, hrun]⟩

/-- The steps that an operation has taken come before those that are left. -/
theorem Steps.ends {op : ω} {l l' : ℓ} {x x' : σ} {out : σ × ρ} (h : O.Steps op l x l' x')
    (hends : O.Ends op l' x' out) : O.Ends op l x out := by
  induction h with
  | refl => exact hends
  | snoc _ hnext ih => exact ih (hends.next hnext)

/-- The operations under the read lock leave the state as it is where each step does that has
an invariant of the local state to go by. -/
theorem readsOnly_of_invariant (I : ω → ℓ → σ → Prop) (henter : ∀ op x, I op (O.enter op) x)
    (hnext : ∀ op l x l' x', O.mode op = .read → I op l x → O.next op l x = .inl (l', x') →
      x' = x ∧ I op l' x) : O.ReadsOnly := by
  have hsteps : ∀ {op l x x'}, O.mode op = .read → O.Steps op (O.enter op) x l x' →
      x' = x ∧ I op l x := by
    intro op l x x' hmode h
    induction h with
    | refl => exact ⟨rfl, henter op x⟩
    | snoc _ hstep ih =>
      obtain ⟨rfl, hI⟩ := ih
      exact hnext op _ _ _ _ hmode hI hstep
  intro op l x l' x' hmode h hstep
  exact (hnext op l x l' x' hmode (hsteps hmode h).2 hstep).1

/-! ## The atomic execution -/

/-- What the threads are doing, seen from the atomic object. -/
structure Matches (O : RwObject σ ω ℓ ρ) (s : RwState σ ω ℓ ρ) (t : AtomicState σ ω ρ) :
    Prop where
  locked : Locked O s
  log_eq : s.log = t.log
  /-- The operations under way have run from the state of the atomic object. -/
  inside : ∀ (i : Nat) op l, s.threads[i]? = some (.inside op l) →
    O.Steps op (O.enter op) t.shared l s.shared
  leaving : ∀ (i : Nat) op r, s.threads[i]? = some (.leaving op r) →
    ∃ l, O.Steps op (O.enter op) t.shared l s.shared ∧ O.next op l s.shared = .inr r
  quiet : s.writer = false → s.shared = t.shared

variable {t : AtomicState σ ω ρ}

/-- A thread that is about to call. -/
theorem Matches.call (h : Matches O s t) {i : Nat} {op : ω} (hi : s.threads[i]? = some .idle) :
    Matches O { s with threads := s.threads.set i (.calling op) } t where
  locked := h.locked.goes hi s.shared fun _ => by rfl
  log_eq := h.log_eq
  inside := by
    intro j opj l hj
    obtain ⟨-, hpc⟩ | ⟨-, hj⟩ := List.getElem?_set_cases hj
    · cases hpc
    · exact h.inside j opj l hj
  leaving := by
    intro j opj r hj
    obtain ⟨-, hpc⟩ | ⟨-, hj⟩ := List.getElem?_set_cases hj
    · cases hpc
    · exact h.leaving j opj r hj
  quiet := h.quiet

/-- A thread that gets the lock starts in the state of the atomic object. -/
theorem Matches.lock (h : Matches O s t) {i : Nat} {op : ω}
    (hi : s.threads[i]? = some (.calling op)) (hfree : s.free (O.mode op) = true) :
    Matches O ({ s with
      threads := s.threads.set i (.inside op (O.enter op)) }.acquire (O.mode op)) t := by
  have hwriter : s.writer = false := by
    cases hmode : O.mode op <;> simp [hmode, RwState.free] at hfree
    · exact hfree
    · exact hfree.1
  have hquiet := h.quiet hwriter
  refine ⟨h.locked.acquire hi hfree, by simpa using h.log_eq, ?_, ?_, ?_⟩
  · intro j opj l hj
    simp only [acquire_threads, acquire_shared] at hj ⊢
    obtain ⟨-, hpc⟩ | ⟨-, hj⟩ := List.getElem?_set_cases hj
    · cases hpc
      rw [hquiet]
      exact .refl
    · exact h.inside j opj l hj
  · intro j opj r hj
    simp only [acquire_threads, acquire_shared] at hj ⊢
    obtain ⟨-, hpc⟩ | ⟨-, hj⟩ := List.getElem?_set_cases hj
    · cases hpc
    · exact h.leaving j opj r hj
  · intro _
    simpa using hquiet

/-- A small step: a writer is alone, and a reader leaves the state as it is. -/
theorem Matches.step (h : Matches O s t) (hreads : O.ReadsOnly) {i : Nat} {op : ω} {l l' : ℓ}
    {x : σ} (hi : s.threads[i]? = some (.inside op l))
    (hnext : O.next op l s.shared = .inl (l', x)) :
    Matches O { s with shared := x, threads := s.threads.set i (.inside op l') } t := by
  have hlocked : Locked O { s with shared := x, threads := s.threads.set i (.inside op l') } :=
    h.locked.goes hi x fun _ => by rfl
  have hsteps := h.inside i op l hi
  cases hmode : O.mode op with
  | read =>
    have hwriter := h.locked.writer_eq_false hi (by simp [hmode])
    have hquiet := h.quiet hwriter
    rw [← hquiet] at hsteps
    obtain rfl := hreads op l s.shared l' x hmode hsteps hnext
    refine ⟨hlocked, h.log_eq, ?_, ?_, fun _ => hquiet⟩
    · intro j opj lj hj
      obtain ⟨-, hpc⟩ | ⟨-, hj⟩ := List.getElem?_set_cases hj
      · cases hpc
        rw [← hquiet]
        exact hsteps.snoc hnext
      · exact h.inside j opj lj hj
    · intro j opj r hj
      obtain ⟨-, hpc⟩ | ⟨-, hj⟩ := List.getElem?_set_cases hj
      · cases hpc
      · exact h.leaving j opj r hj
  | write =>
    have hwriter := h.locked.writer_eq hi (by simp [hmode])
    -- nobody else has the lock
    have halone : ∀ (j : Nat) pc m, i ≠ j → s.threads[j]? = some pc → pc.holds O m = false := by
      intro j pc m hne hj
      cases hpc : pc.holds O m with
      | false => rfl
      | true => exact absurd (h.locked.alone i j _ pc m hi hj (by simp [hmode]) hpc) hne
    refine ⟨hlocked, h.log_eq, ?_, ?_, ?_⟩
    · intro j opj lj hj
      obtain ⟨-, hpc⟩ | ⟨hne, hj⟩ := List.getElem?_set_cases hj
      · cases hpc
        exact hsteps.snoc hnext
      · have := halone j _ (O.mode opj) hne hj
        simp at this
    · intro j opj r hj
      obtain ⟨-, hpc⟩ | ⟨hne, hj⟩ := List.getElem?_set_cases hj
      · cases hpc
      · have := halone j _ (O.mode opj) hne hj
        simp at this
    · intro hw
      have hw : s.writer = false := hw
      simp [hw] at hwriter

/-- A section comes to its end. -/
theorem Matches.leave (h : Matches O s t) {i : Nat} {op : ω} {l : ℓ} {r : ρ}
    (hi : s.threads[i]? = some (.inside op l)) (hnext : O.next op l s.shared = .inr r) :
    Matches O { s with threads := s.threads.set i (.leaving op r) } t where
  locked := h.locked.goes hi s.shared fun _ => by rfl
  log_eq := h.log_eq
  inside := by
    intro j opj lj hj
    obtain ⟨-, hpc⟩ | ⟨-, hj⟩ := List.getElem?_set_cases hj
    · cases hpc
    · exact h.inside j opj lj hj
  leaving := by
    intro j opj rj hj
    obtain ⟨-, hpc⟩ | ⟨-, hj⟩ := List.getElem?_set_cases hj
    · cases hpc
      exact ⟨l, h.inside i op l hi, hnext⟩
    · exact h.leaving j opj rj hj
  quiet := h.quiet

/-- The atomic object performs an operation when its thread gives the lock back. -/
theorem Matches.unlock (h : Matches O s t) {i : Nat} {op : ω} {r : ρ}
    (hi : s.threads[i]? = some (.leaving op r)) :
    O.Ends op (O.enter op) t.shared (s.shared, r) ∧
      Matches O ({ s with
        threads := s.threads.set i .idle
        log := s.log ++ [(i, op, r)] }.release (O.mode op))
        ⟨s.shared, t.log ++ [(i, op, r)]⟩ := by
  obtain ⟨l, hsteps, hnext⟩ := h.leaving i op r hi
  have hends := hsteps.ends (.here hnext)
  -- somebody else with the lock is a reader beside a reader
  have hsame : ∀ (j : Nat) pc m, i ≠ j → s.threads[j]? = some pc → pc.holds O m = true →
      s.shared = t.shared := by
    intro j pc m hne hj hpc
    cases hmode : O.mode op with
    | read => exact h.quiet (h.locked.writer_eq_false hi (by simp [hmode]))
    | write => exact absurd (h.locked.alone i j _ pc m hi hj (by simp [hmode]) hpc) hne
  refine ⟨hends, h.locked.release hi _, by simp [h.log_eq], ?_, ?_, by simp⟩
  · intro j opj lj hj
    simp only [release_threads, release_shared] at hj ⊢
    obtain ⟨-, hpc⟩ | ⟨hne, hj⟩ := List.getElem?_set_cases hj
    · cases hpc
    · simpa [hsame j _ (O.mode opj) hne hj (by simp)] using h.inside j opj lj hj
  · intro j opj rj hj
    simp only [release_threads, release_shared] at hj ⊢
    obtain ⟨-, hpc⟩ | ⟨hne, hj⟩ := List.getElem?_set_cases hj
    · cases hpc
    · simpa [hsame j _ (O.mode opj) hne hj (by simp)] using h.leaving j opj rj hj

theorem start_matches (O : RwObject σ ω ℓ ρ) (shared : σ) (n : Nat) :
    Matches O (start shared n : RwState σ ω ℓ ρ) ⟨shared, []⟩ where
  locked := start_locked O shared n
  log_eq := rfl
  inside := by
    intro i op l hi
    obtain ⟨-, hpc⟩ := List.mem_replicate.mp (List.mem_of_getElem? hi)
    cases hpc
  leaving := by
    intro i op r hi
    obtain ⟨-, hpc⟩ := List.mem_replicate.mp (List.mem_of_getElem? hi)
    cases hpc
  quiet := fun _ => rfl

/-- A step of a thread that does not give the lock back is no step of the atomic object. -/
theorem Matches.stutter (hreads : O.ReadsOnly) {a : RwAction ω} (h : Matches O s t)
    (hstep : O.step s a = some s') (hne : ∀ i, a ≠ .unlock i) : Matches O s' t := by
  obtain ⟨i, op, -, hi, rfl⟩ | ⟨i, op, -, hi, hfree, rfl⟩ | ⟨i, op, l, l', x, -, hi, hnext, rfl⟩ |
    ⟨i, op, l, r, -, hi, hnext, rfl⟩ | ⟨i, op, r, ha, -⟩ := step_cases hstep
  · exact h.call hi
  · exact h.lock hi hfree
  · exact h.step hreads hi hnext
  · exact h.leave hi hnext
  · exact absurd ha (hne i)

/-- A step of a thread is no step of the atomic object, or the one that performs its
operation. -/
theorem step_matches (hreads : O.ReadsOnly) (shared : σ) {a : RwAction ω} (h : Matches O s t)
    (hstep : O.step s a = some s') :
    ∃ as t', (O.atomic shared).run t as = some t' ∧ Matches O s' t' := by
  by_cases hunlock : ∃ i, a = .unlock i
  · obtain ⟨i, rfl⟩ := hunlock
    simp only [step] at hstep
    split at hstep
    · rename_i op r hi
      cases hstep
      obtain ⟨⟨fuel, hrun⟩, hmatches⟩ := h.unlock hi
      refine ⟨[⟨i, op, fuel⟩], _, ?_, hmatches⟩
      simp [Transition.run, atomic, perform, hrun]
    · cases hstep
  · exact ⟨[], t, rfl, h.stutter hreads hstep fun i ha => hunlock ⟨i, ha⟩⟩

/-- Every execution has an atomic one. -/
theorem reachable_atomic (hreads : O.ReadsOnly) {shared : σ}
    (h : (O.system shared).Reachable s) :
    ∃ t, (O.atomic shared).Reachable t ∧ Matches O s t := by
  apply h.simulate
  · rintro _ ⟨n, rfl⟩
    exact ⟨⟨shared, []⟩, rfl, start_matches O shared n⟩
  · intro s a s' t h hstep
    exact step_matches hreads shared h hstep

/-! ## The operations under way -/

/-- The operation that a thread has called. -/
def RwPc.op : RwPc ω ℓ ρ → Option ω
  | .idle => none
  | .calling op => some op
  | .inside op _ => some op
  | .leaving op _ => some op

/-- The operations that the threads have called. -/
def RwState.ops (s : RwState σ ω ℓ ρ) : List (Option ω) := s.threads.map RwPc.op

/-- How an action changes them. -/
def RwAction.opsAfter (ops : List (Option ω)) : RwAction ω → List (Option ω)
  | .call i op => ops.set i (some op)
  | .unlock i => ops.set i none
  | _ => ops

theorem op_eq_of_ops {i : Nat} {pc : RwPc ω ℓ ρ} {op : Option ω} (hi : s.threads[i]? = some pc)
    (hop : s.ops[i]? = some op) : pc.op = op := by
  simpa [RwState.ops, hi] using hop

private theorem map_op_set {i : Nat} {pc pc' : RwPc ω ℓ ρ} (hi : s.threads[i]? = some pc)
    (hsame : pc'.op = pc.op) : (s.threads.set i pc').map RwPc.op = s.threads.map RwPc.op := by
  have hget : (s.threads.map RwPc.op)[i]? = some pc.op := by simp [hi]
  obtain ⟨hlt, heq⟩ := List.getElem?_eq_some_iff.mp hget
  rw [List.map_set, hsame, ← heq, List.set_getElem_self]

theorem ops_of_step {a : RwAction ω} (h : O.step s a = some s') : s'.ops = a.opsAfter s.ops := by
  obtain ⟨i, op, rfl, hi, rfl⟩ | ⟨i, op, rfl, hi, -, rfl⟩ | ⟨i, op, l, l', x, rfl, hi, -, rfl⟩ |
    ⟨i, op, l, r, rfl, hi, -, rfl⟩ | ⟨i, op, r, rfl, hi, rfl⟩ := step_cases h
  · simp [RwState.ops, RwAction.opsAfter, RwPc.op]
  · simp only [RwState.ops, RwAction.opsAfter, acquire_threads]
    exact map_op_set hi rfl
  · exact map_op_set hi rfl
  · exact map_op_set hi rfl
  · simp [RwState.ops, RwAction.opsAfter, RwPc.op]

@[simp] theorem ops_start (shared : σ) (n : Nat) :
    (start shared n : RwState σ ω ℓ ρ).ops = List.replicate n none := by
  simp [RwState.ops, start, RwPc.op]

/-! ## No deadlock -/

/-- While an operation is under way some thread can go on. -/
theorem exists_step (h : Locked O s) {i : Nat} {pc : RwPc ω ℓ ρ} (hi : s.threads[i]? = some pc)
    (hpc : pc ≠ .idle) : ∃ j, ∃ a ∈ [RwAction.lock j, .step j, .unlock j],
      ∃ s', O.step s a = some s' := by
  have hholder : ∀ (j : Nat) pc m, s.threads[j]? = some pc → pc.holds O m = true →
      ∃ j, ∃ a ∈ [RwAction.lock j, .step j, .unlock j], ∃ s', O.step s a = some s' := by
    intro j pc m hj hpc
    cases pc with
    | idle => simp at hpc
    | calling op => simp at hpc
    | inside op l =>
      refine ⟨j, .step j, by simp, ?_⟩
      cases hnext : O.next op l s.shared with
      | inl next => exact ⟨_, by simp only [step, hj, hnext]; rfl⟩
      | inr r => exact ⟨_, by simp only [step, hj, hnext]; rfl⟩
    | leaving op r => exact ⟨j, .unlock j, by simp, _, by simp only [step, hj]; rfl⟩
  -- a thread that waits for the lock gets it unless somebody has it
  by_cases hheld : ∃ (j : Nat) (pc : RwPc ω ℓ ρ) (m : RwMode),
      s.threads[j]? = some pc ∧ pc.holds O m = true
  · obtain ⟨j, pc, m, hj, hpc⟩ := hheld
    exact hholder j pc m hj hpc
  · have hnone : ∀ m, s.threads.countP (·.holds O m) = 0 := by
      intro m
      rw [List.countP_eq_zero]
      intro pc hmem hpc
      obtain ⟨j, hj⟩ := List.getElem?_of_mem hmem
      exact hheld ⟨j, pc, m, hj, hpc⟩
    have hreaders := h.readers_eq
    have hwriters := h.writers_eq
    rw [hnone] at hreaders hwriters
    have hwriter : s.writer = false := by
      cases hw : s.writer with
      | false => rfl
      | true => simp [hw] at hwriters
    cases pc with
    | idle => exact absurd rfl hpc
    | calling op =>
      have hfree : s.free (O.mode op) = true := by
        cases O.mode op <;> simp [RwState.free, hwriter, ← hreaders]
      exact ⟨i, .lock i, by simp, _, by simp only [step, hi, hfree, ↓reduceIte]; rfl⟩
    | inside op l => exact hholder i _ (O.mode op) hi (by simp)
    | leaving op r => exact hholder i _ (O.mode op) hi (by simp)

end RwObject
