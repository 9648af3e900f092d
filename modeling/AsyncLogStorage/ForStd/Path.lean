/-!
# Lexical paths for the standard library

Places in a tree of named nodes, reached by walking up and down from the root or
from a current node that is somewhere in the tree. A `Place` is the normal form of
such a walk: how often it leaves the start upwards and which names it then follows
down. At the root going up stays where it is.

## Key results

- `Place.walk_eq`: a walk from `p` climbs and descends as its own normal form says
- `Place.climb_descend_eq_child_iff`: when a walk from `p` ends in a child of `p`
- `Place.climb_descend_prefix_iff`: when it ends at `p` or on the way to it
-/

namespace Path

variable {α : Type}

/-- One component of a path. -/
inductive Step (α : Type) where
  | stay
  | up
  | down (name : α)
deriving DecidableEq, Repr

/-- A node, seen from the root or from the current node. -/
structure Place (α : Type) where
  rooted : Bool
  /-- How far above the start the names begin. -/
  ups : Nat
  names : List α
deriving DecidableEq, Repr

namespace Place

def root : Place α := { rooted := true, ups := 0, names := [] }

/-- The current node. -/
def here : Place α := { rooted := false, ups := 0, names := [] }

def up (p : Place α) : Place α :=
  if p.names = [] then { p with ups := if p.rooted then p.ups else p.ups + 1 }
  else { p with names := p.names.dropLast }

/-- Follow the names down. -/
def descend (p : Place α) (names : List α) : Place α := { p with names := p.names ++ names }

def child (p : Place α) (name : α) : Place α := p.descend [name]

/-- Go up `n` times. -/
def climb (p : Place α) (n : Nat) : Place α :=
  { p with
    ups := if p.rooted then p.ups else p.ups + (n - p.names.length)
    names := p.names.take (p.names.length - n) }

def step (p : Place α) : Step α → Place α
  | .stay => p
  | .up => p.up
  | .down name => p.child name

def walk (p : Place α) (steps : List (Step α)) : Place α := steps.foldl step p

@[simp] theorem walk_nil (p : Place α) : p.walk [] = p := rfl

@[simp] theorem walk_append (p : Place α) (xs ys : List (Step α)) :
    p.walk (xs ++ ys) = (p.walk xs).walk ys := List.foldl_append

@[simp] theorem walk_singleton (p : Place α) (x : Step α) : p.walk [x] = p.step x := rfl

@[simp] theorem descend_nil (p : Place α) : p.descend [] = p := by
  simp only [descend, List.append_nil]

@[simp] theorem climb_zero (p : Place α) : p.climb 0 = p := by
  cases p
  simp [climb]

/-! ## Walks and their normal forms -/

theorem rooted_step (p : Place α) (x : Step α) : (p.step x).rooted = p.rooted := by
  cases x with
  | stay => rfl
  | up => simp only [step, up]; split <;> rfl
  | down name => rfl

theorem rooted_walk (p : Place α) (steps : List (Step α)) : (p.walk steps).rooted = p.rooted := by
  induction steps generalizing p with
  | nil => rfl
  | cons x xs ih => exact (ih (p.step x)).trans (rooted_step p x)

/-- Going up after a descent undoes its last step. -/
theorem up_descend_concat (p : Place α) (names : List α) (name : α) :
    (p.descend (names ++ [name])).up = p.descend names := by
  simp [up, descend, ← List.append_assoc]

/-- Going up once more is climbing one step further. -/
theorem up_climb (p : Place α) (n : Nat) : (p.climb n).up = p.climb (n + 1) := by
  obtain ⟨rooted, ups, names⟩ := p
  simp only [up, climb, List.take_eq_nil_iff]
  by_cases hn : names.length ≤ n
  · -- the names are used up already
    have hz : names.length - n = 0 := by omega
    have hz' : names.length - (n + 1) = 0 := by omega
    simp only [hz, true_or, ↓reduceIte, hz']
    cases rooted with
    | true => simp
    | false =>
      simp only [Bool.false_eq_true, ↓reduceIte, List.take_zero, mk.injEq, true_and, and_true]
      omega
  · -- one more name is dropped
    have hne : ¬(names.length - n = 0 ∨ names = []) := by
      intro h
      rcases h with h | h
      · omega
      · rw [h] at hn; exact hn (Nat.zero_le _)
    rw [if_neg hne]
    have hsub : n + 1 - names.length = n - names.length := by omega
    simp only [hsub, List.dropLast_eq_take, List.length_take, List.take_take, mk.injEq, true_and]
    congr 1
    omega

/-- A walk from `p` does what its normal form says: it climbs, then it descends. -/
theorem walk_eq (p : Place α) (steps : List (Step α)) :
    p.walk steps = (p.climb (here.walk steps).ups).descend (here.walk steps).names := by
  -- the normal form of a longer walk comes from that of the walk without its last step
  suffices h : ∀ rev : List (Step α), p.walk rev.reverse =
      (p.climb (here.walk rev.reverse).ups).descend (here.walk rev.reverse).names by
    have := h steps.reverse
    rwa [List.reverse_reverse] at this
  intro rev
  induction rev with
  | nil => simp [here]
  | cons x rev ih =>
    rw [List.reverse_cons, walk_append, walk_append, ih, walk_singleton, walk_singleton]
    have hfree : (here.walk rev.reverse : Place α).rooted = false := rooted_walk here _
    generalize here.walk rev.reverse = q at hfree
    obtain ⟨rooted, ups, names⟩ := q
    cases hfree
    cases x with
    | stay => rfl
    | up =>
      -- it undoes the last name, or climbs once more if there is none
      simp only [step]
      cases hnames : names.reverse with
      | nil =>
        have hnil : names = [] := by simpa using hnames
        subst hnil
        simpa [up] using up_climb p ups
      | cons a as =>
        have hcat : names = as.reverse ++ [a] := by
          rw [← List.reverse_reverse names, hnames, List.reverse_cons]
        subst hcat
        rw [up_descend_concat]
        simp [up]
    | down name =>
      simp [step, child, descend, List.append_assoc]

/-- A climb of `u` levels and a descent end in a child of the start exactly when the
    climb stays below the start's own beginning and the descent follows the same names
    back before its last step. -/
theorem climb_descend_eq_child_iff {p : Place α} {u : Nat} {names : List α} {name : α} :
    (p.climb u).descend names = p.child name ↔
      (p.rooted = true ∨ u ≤ p.names.length) ∧
      names = p.names.drop (p.names.length - u) ++ [name] := by
  obtain ⟨rooted, ups, ns⟩ := p
  simp only [climb, descend, child, mk.injEq, true_and]
  -- the names that are kept cancel on both sides
  have hsplit : ns = ns.take (ns.length - u) ++ ns.drop (ns.length - u) :=
    (List.take_append_drop _ _).symm
  have hnames : ns.take (ns.length - u) ++ names = ns ++ [name] ↔
      names = ns.drop (ns.length - u) ++ [name] := by
    constructor
    · intro h
      have h' : ns.take (ns.length - u) ++ names =
          ns.take (ns.length - u) ++ (ns.drop (ns.length - u) ++ [name]) := by
        rw [h, ← List.append_assoc, ← hsplit]
      exact List.append_cancel_left h'
    · intro h
      rw [h, ← List.append_assoc, ← hsplit]
  rw [hnames]
  -- only a start that is not the root can be left upwards
  apply and_congr_left'
  cases rooted with
  | true => simp
  | false =>
    simp only [Bool.false_eq_true, ↓reduceIte, false_or]
    omega

/-- A climb of `u` levels and a descent end on the way from the start's own beginning to
    the start exactly when the descent follows the same names back. -/
theorem climb_descend_prefix_iff {p : Place α} {u : Nat} {names : List α} :
    (((p.climb u).descend names).ups = p.ups ∧ ((p.climb u).descend names).names <+: p.names) ↔
      (p.rooted = true ∨ u ≤ p.names.length) ∧
      names <+: p.names.drop (p.names.length - u) := by
  obtain ⟨rooted, ups, ns⟩ := p
  simp only [climb, descend]
  have hsplit : ns = ns.take (ns.length - u) ++ ns.drop (ns.length - u) :=
    (List.take_append_drop _ _).symm
  have hnames : ns.take (ns.length - u) ++ names <+: ns ↔ names <+: ns.drop (ns.length - u) := by
    constructor
    · intro h
      have h' : ns.take (ns.length - u) ++ names <+:
          ns.take (ns.length - u) ++ ns.drop (ns.length - u) := by rwa [← hsplit]
      exact (List.prefix_append_right_inj _).mp h'
    · intro h
      have h' := (List.prefix_append_right_inj (ns.take (ns.length - u))).mpr h
      rwa [← hsplit] at h'
  rw [hnames]
  apply and_congr_left'
  cases rooted with
  | true => simp
  | false =>
    simp only [Bool.false_eq_true, ↓reduceIte, false_or]
    omega

/-- A walk whose last step goes down ends in a child. -/
theorem exists_walk_eq_child {p : Place α} {steps : List (Step α)} {name : α}
    (h : steps.getLast? = some (.down name)) : ∃ q : Place α, p.walk steps = q.child name := by
  obtain ⟨init, rfl⟩ := List.getLast?_eq_some_iff.mp h
  exact ⟨p.walk init, by rw [walk_append, walk_singleton]; rfl⟩

end Place

/-! ## Byte strings as paths -/

/-- What a component between two slashes means. -/
def component (part : List UInt8) : Step (List UInt8) :=
  if part = [] ∨ part = [46] then .stay
  else if part = [46, 46] then .up
  else .down part

/-- The components of a path. -/
def components (path : List UInt8) : List (Step (List UInt8)) := (path.splitOn 47).map component

/-- Lexical normalisation of `.` and `..`. -/
def normalise (path : List UInt8) : Place (List UInt8) :=
  (if path.head? = some 47 then Place.root else Place.here).walk (components path)

theorem components_ne_nil (path : List UInt8) : components path ≠ [] := by
  simp only [components, ne_eq, List.map_eq_nil_iff]
  exact List.splitOn_ne_nil 47 path

/-- The components of two paths with a slash between them. -/
theorem components_append_slash (path rest : List UInt8) :
    components (path ++ 47 :: rest) = components path ++ components rest := by
  simp only [components, List.splitOn_append_cons_self, List.map_append]

/-- A directory that is written with its final slash. -/
theorem exists_of_getLast?_slash {dir : List UInt8} (h : dir.getLast? = some 47) :
    ∃ init, dir = init ++ [47] := by
  obtain ⟨init, hinit⟩ := List.getLast?_eq_some_iff.mp h
  exact ⟨init, hinit⟩

/-- The normal form of a path below such a directory. -/
theorem normalise_append {dir : List UInt8} (rest : List UInt8) (h : dir.getLast? = some 47) :
    normalise (dir ++ rest) = (normalise dir).walk (components rest) := by
  obtain ⟨init, hinit⟩ := exists_of_getLast?_slash h
  have hhead : (dir ++ rest).head? = dir.head? := by
    rw [hinit]
    cases init with
    | nil => rfl
    | cons a as => rfl
  have hwhole : components (dir ++ rest) = components init ++ components rest := by
    rw [hinit, List.append_assoc, List.singleton_append, components_append_slash]
  -- the slash at the end adds an empty component to the directory itself
  have hdir : components dir = components init ++ [.stay] := by
    rw [hinit, components_append_slash]
    rfl
  simp only [normalise, hhead, hwhole, hdir, Place.walk_append,
    Place.walk_singleton, Place.step]

/-- The last component of a path below such a directory is that of the rest. -/
theorem getLast?_components_append {dir : List UInt8} (rest : List UInt8)
    (h : dir.getLast? = some 47) :
    (components (dir ++ rest)).getLast? = (components rest).getLast? := by
  obtain ⟨init, hinit⟩ := exists_of_getLast?_slash h
  rw [hinit, List.append_assoc, List.singleton_append, components_append_slash,
    List.getLast?_append]
  cases hlast : (components rest).getLast? with
  | none => exact absurd (List.getLast?_eq_none_iff.mp hlast) (components_ne_nil rest)
  | some x => rfl

end Path
