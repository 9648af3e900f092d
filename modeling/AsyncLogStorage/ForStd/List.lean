import Mathlib.Data.List.Forall2

/-!
# List lemmas for the standard library

Lists as the contents of a fixed range of cells: storing a run of elements at a
position (`List.overwrite`) and changing the number of cells (`List.resize`). Also the
parts that a list is split into, the places that count, and the elements of lists that are
related one by one.
-/

namespace List

variable {α : Type}

/-! ## Overwriting a range -/

/-- Store `xs` from position `pos` on. What would land past the last cell is dropped. -/
def overwrite (l : List α) (pos : Nat) (xs : List α) : List α :=
  (l.take pos ++ xs ++ l.drop (pos + xs.length)).take l.length

@[simp] theorem length_overwrite (l : List α) (pos : Nat) (xs : List α) :
    (l.overwrite pos xs).length = l.length := by
  simp only [overwrite, length_take, length_append, length_drop]
  omega

/-- A store that ends inside the range drops nothing. -/
theorem overwrite_eq {l : List α} {pos : Nat} {xs : List α} (h : pos + xs.length ≤ l.length) :
    l.overwrite pos xs = l.take pos ++ xs ++ l.drop (pos + xs.length) := by
  rw [overwrite, take_of_length_le]
  simp only [length_append, length_take, length_drop]
  omega

/-- The cells from `r` up to the end of a store hold what was before it, then the
    stored elements. -/
theorem drop_take_overwrite {l : List α} {r pos : Nat} {xs : List α} (hr : r ≤ pos)
    (h : pos + xs.length ≤ l.length) :
    ((l.overwrite pos xs).drop r).take (pos + xs.length - r) =
      (l.drop r).take (pos - r) ++ xs := by
  have hlen : (l.take pos).length = pos := length_take_of_le (by omega)
  have hkeep : r ≤ (l.take pos ++ xs).length := by simp only [length_append, hlen]; omega
  rw [overwrite_eq h, drop_append_of_le_length hkeep, drop_append_of_le_length (by omega),
    drop_take, take_left']
  simp only [length_append, length_take, length_drop]
  omega

/-- A store over all cells leaves what was stored. -/
theorem overwrite_zero_of_length_eq {l xs : List α} (h : xs.length = l.length) :
    l.overwrite 0 xs = xs := by
  rw [overwrite_eq (by omega), take_zero, nil_append, Nat.zero_add, drop_of_length_le (by omega),
    append_nil]

/-- A cell that was set holds the new element, and the others hold theirs. -/
theorem getElem?_set_cases {l : List α} {i j : Nat} {a b : α} (h : (l.set i a)[j]? = some b) :
    (i = j ∧ b = a) ∨ (i ≠ j ∧ l[j]? = some b) := by
  rw [getElem?_set] at h
  split at h
  · rename_i hij
    split at h
    · exact .inl ⟨hij, (Option.some.inj h).symm⟩
    · cases h
  · rename_i hij
    exact .inr ⟨hij, h⟩

/-- Setting one cell loses at most the element that was there. -/
theorem mem_set_or_eq {l : List α} {i : Nat} {a b c : α} (ha : a ∈ l) (hi : l[i]? = some c) :
    a ∈ l.set i b ∨ a = c := by
  obtain ⟨j, hj⟩ := getElem?_of_mem ha
  by_cases hij : i = j
  · subst hij
    rw [hi] at hj
    exact .inr (Option.some.inj hj).symm
  · left
    exact mem_of_getElem? (i := j) (by rw [getElem?_set_ne hij, hj])

/-! ## Separators -/

/-- What stands before a separator that it does not contain is determined, and so is the rest. -/
theorem append_cons_inj_left {x y z w : List α} {a : α} (hx : a ∉ x) (hy : a ∉ y) :
    x ++ a :: z = y ++ a :: w ↔ x = y ∧ z = w := by
  constructor
  · intro h
    induction x generalizing y with
    | nil =>
      cases y with
      | nil => exact ⟨rfl, (cons.inj h).2⟩
      | cons b y =>
        obtain ⟨rfl, -⟩ := cons.inj h
        exact absurd mem_cons_self hy
    | cons b x ih =>
      cases y with
      | nil =>
        obtain ⟨rfl, -⟩ := cons.inj h
        exact absurd mem_cons_self hx
      | cons c y =>
        obtain ⟨rfl, hrest⟩ := cons.inj h
        obtain ⟨rfl, rfl⟩ := ih (not_mem_of_not_mem_cons hx) (not_mem_of_not_mem_cons hy) hrest
        exact ⟨rfl, rfl⟩
  · rintro ⟨rfl, rfl⟩
    rfl

/-- So is what stands behind one, and the rest before it. -/
theorem append_cons_inj_right {x y z w : List α} {a : α} (hz : a ∉ z) (hw : a ∉ w) :
    x ++ a :: z = y ++ a :: w ↔ x = y ∧ z = w := by
  have hz' : a ∉ z.reverse := by rwa [mem_reverse]
  have hw' : a ∉ w.reverse := by rwa [mem_reverse]
  have hback : ∀ u v : List α, (u ++ a :: v).reverse = v.reverse ++ a :: u.reverse := by
    intro u v
    rw [reverse_append, reverse_cons, append_assoc, singleton_append]
  rw [← reverse_inj, hback, hback, append_cons_inj_left hz' hw', reverse_inj, reverse_inj]
  exact and_comm

/-! ## Changing the number of cells -/

/-- Keep the first `n` cells and fill up with `a`. -/
def resize (l : List α) (n : Nat) (a : α) : List α :=
  l.take n ++ replicate (n - l.length) a

@[simp] theorem length_resize (l : List α) (n : Nat) (a : α) : (l.resize n a).length = n := by
  simp only [resize, length_append, length_take, length_replicate]
  omega

/-- Cells below both sizes keep their contents. -/
theorem drop_take_resize {l : List α} {n r w : Nat} (a : α) (hw : w ≤ l.length) (hn : w ≤ n) :
    ((l.resize n a).drop r).take (w - r) = (l.drop r).take (w - r) := by
  rw [← drop_take, ← drop_take, resize, take_append_of_le_length (by rw [length_take]; omega),
    take_take, Nat.min_eq_left hn]

/-! ## Runs inside a list -/

/-- A run without the element in the middle lies on one side of it. -/
theorem infix_append_cons_iff {l as bs : List α} {c : α} (hc : c ∉ l) :
    l <:+: as ++ c :: bs ↔ l <:+: as ∨ l <:+: bs := by
  -- the element cannot start anything of the run
  have hstart : ∀ {l' : List α}, l' <+: c :: bs → c ∉ l' → l' = [] := by
    intro l' hpre hmem
    cases l' with
    | nil => rfl
    | cons a l' =>
      obtain ⟨rfl, -⟩ := cons_prefix_cons.mp hpre
      exact absurd mem_cons_self hmem
  constructor
  · intro h
    -- before the element, behind it, or across it
    obtain h | h | ⟨l₁, l₂, rfl, hl₁, hl₂⟩ := infix_append_iff.mp h
    · exact .inl h
    · obtain h | h := infix_cons_iff.mp h
      · rw [hstart h hc]
        exact .inl nil_infix
      · exact .inr h
    · have hnil := hstart hl₂ fun hmem => hc (mem_append_right l₁ hmem)
      rw [hnil, append_nil]
      exact .inl hl₁.isInfix
  · rintro (h | h)
    · exact h.trans (prefix_append as _).isInfix
    · exact (h.trans (suffix_cons c bs).isInfix).trans (suffix_append as _).isInfix

/-- So it does where the first part ends in an element that the run has not. -/
theorem infix_append_iff_of_getLast {l as bs : List α} {c : α} (hlast : as.getLast? = some c)
    (hc : c ∉ l) : l <:+: as ++ bs ↔ l <:+: as ∨ l <:+: bs := by
  obtain ⟨init, rfl⟩ := getLast?_eq_some_iff.mp hlast
  have hinit : l <:+: init ++ [c] ↔ l <:+: init ∨ l <:+: [] := infix_append_cons_iff hc
  rw [append_assoc, singleton_append, infix_append_cons_iff hc, hinit, infix_nil]
  constructor
  · rintro (h | h)
    · exact .inl (.inl h)
    · exact .inr h
  · rintro ((h | rfl) | h)
    · exact .inl h
    · exact .inl nil_infix
    · exact .inr h

/-- And where the second part starts with one. -/
theorem infix_append_iff_of_head {l as bs : List α} {c : α} (hhead : bs.head? = some c)
    (hc : c ∉ l) : l <:+: as ++ bs ↔ l <:+: as ∨ l <:+: bs := by
  obtain ⟨rest, rfl⟩ := head?_eq_some_iff.mp hhead
  have hrest : l <:+: [] ++ c :: rest ↔ l <:+: [] ∨ l <:+: rest := infix_append_cons_iff hc
  rw [nil_append] at hrest
  rw [infix_append_cons_iff hc, hrest, infix_nil]
  constructor
  · rintro (h | h)
    · exact .inl h
    · exact .inr (.inr h)
  · rintro (h | rfl | h)
    · exact .inl h
    · exact .inl nil_infix
    · exact .inr h

/-- A run that ends in `c` lies before everything without `c`. -/
theorem infix_of_infix_append {l as bs : List α} {c : α} (hl : l.getLast? = some c) (hc : c ∉ bs)
    (h : l <:+: as ++ bs) : l <:+: as := by
  obtain ⟨init, rfl⟩ := getLast?_eq_some_iff.mp hl
  obtain h | h | ⟨l₁, l₂, hsplit, hl₁, hl₂⟩ := infix_append_iff.mp h
  · exact h
  · exact absurd (h.subset (mem_append_right init (mem_singleton_self c))) hc
  · rcases eq_nil_or_concat l₂ with rfl | ⟨rest, last, rfl⟩
    · rw [append_nil] at hsplit
      rw [hsplit]
      exact hl₁.isInfix
    · -- the run would reach into the part without `c`
      rw [concat_eq_append, ← append_assoc] at hsplit
      rw [concat_eq_append] at hl₂
      have hlast : [c] = [last] := (append_inj' hsplit rfl).2
      rw [← hlast] at hl₂
      exact absurd (hl₂.subset (mem_append_right rest (mem_singleton_self c))) hc

/-! ## Splitting -/

/-- No part of a list that was split holds the element it was split at. -/
theorem not_mem_of_mem_splitOn [BEq α] [LawfulBEq α] {a : α} {l part : List α}
    (h : part ∈ l.splitOn a) : a ∉ part := by
  induction l generalizing part with
  | nil =>
    rw [splitOn_nil, mem_singleton] at h
    rw [h]
    exact not_mem_nil
  | cons x l ih =>
    rw [splitOn_cons_eq_if_modifyHead] at h
    split at h
    · -- `x` ends the first part, which is empty
      obtain rfl | h := mem_cons.mp h
      · exact not_mem_nil
      · exact ih h
    · -- `x` goes to the front of the first part
      rename_i hx
      cases hsplit : l.splitOn a with
      | nil => exact absurd hsplit (splitOn_ne_nil a l)
      | cons first rest =>
        rw [hsplit] at h ih
        obtain rfl | h := mem_cons.mp h
        · rw [mem_cons, not_or]
          exact ⟨fun heq => hx (by rw [heq, beq_self_eq_true]), ih mem_cons_self⟩
        · exact ih (mem_cons_of_mem first h)

/-! ## Counting -/

private theorem two_le_countP_of_lt {l : List α} {p : α → Bool} {i j : Nat} {a b : α} (hlt : i < j)
    (hi : l[i]? = some a) (hj : l[j]? = some b) (ha : p a = true) (hb : p b = true) :
    2 ≤ l.countP p := by
  have hfront : 0 < (l.take j).countP p := by
    refine countP_pos_iff.mpr ⟨a, mem_of_getElem? (i := i) ?_, ha⟩
    rw [getElem?_take_of_lt hlt, hi]
  have hback : 0 < (l.drop j).countP p := by
    refine countP_pos_iff.mpr ⟨b, mem_of_getElem? (i := 0) ?_, hb⟩
    rw [getElem?_drop, Nat.add_zero, hj]
  have hsum : (l.take j).countP p + (l.drop j).countP p = l.countP p := by
    rw [← countP_append, take_append_drop]
  omega

/-- Two places count twice. -/
theorem two_le_countP {l : List α} {p : α → Bool} {i j : Nat} {a b : α} (hne : i ≠ j)
    (hi : l[i]? = some a) (hj : l[j]? = some b) (ha : p a = true) (hb : p b = true) :
    2 ≤ l.countP p := by
  obtain hlt | hlt := Nat.lt_or_gt_of_ne hne
  · exact two_le_countP_of_lt hlt hi hj ha hb
  · exact two_le_countP_of_lt hlt hj hi hb ha

/-! ## Related lists -/

variable {β : Type} {R : α → β → Prop}

theorem Forall₂.exists_of_mem_left {as : List α} {bs : List β} {a : α} (h : Forall₂ R as bs)
    (ha : a ∈ as) : ∃ b ∈ bs, R a b := by
  induction h with
  | nil => exact nomatch ha
  | cons hhead _ ih =>
    obtain rfl | ha := mem_cons.mp ha
    · exact ⟨_, mem_cons_self, hhead⟩
    · obtain ⟨b, hb, hr⟩ := ih ha
      exact ⟨b, mem_cons_of_mem _ hb, hr⟩

theorem Forall₂.exists_of_mem_right {as : List α} {bs : List β} {b : β} (h : Forall₂ R as bs)
    (hb : b ∈ bs) : ∃ a ∈ as, R a b :=
  h.flip.exists_of_mem_left hb

/-- The parts of an image of a list are the images of parts of the list. -/
theorem exists_of_flatten_eq_map {f : α → β} {parts : List (List β)} {l : List α}
    (h : parts.flatten = l.map f) :
    ∃ parts' : List (List α), parts'.flatten = l ∧ parts = parts'.map (map f) := by
  induction parts generalizing l with
  | nil => exact ⟨[], (map_eq_nil_iff.mp h.symm).symm, rfl⟩
  | cons part parts ih =>
    rw [flatten_cons] at h
    obtain ⟨l₁, l₂, rfl, h₁, h₂⟩ := map_eq_append_iff.mp h.symm
    obtain ⟨parts', hflat, rfl⟩ := ih h₂.symm
    exact ⟨l₁ :: parts', by rw [flatten_cons, hflat], by rw [map_cons, h₁]⟩

/-- Relating the indices of a list, one by one, is relating its elements. -/
theorem forall₂_range_iff {as : List α} {bs : List β} {S : Nat → β → Prop}
    (h : ∀ (i : Nat) (hi : i < as.length) (b : β), S i b ↔ R (as.get ⟨i, hi⟩) b) :
    Forall₂ S (range as.length) bs ↔ Forall₂ R as bs := by
  -- the index at each position of the range is the position
  have hget : ∀ (i : Nat) (hi : i < (range as.length).length) (hi' : i < as.length) (b : β),
      S ((range as.length).get ⟨i, hi⟩) b ↔ R (as.get ⟨i, hi'⟩) b := by
    intro i hi hi' b
    rw [get_eq_getElem, getElem_range]
    exact h i hi' b
  rw [forall₂_iff_get, forall₂_iff_get]
  constructor
  · rintro ⟨hlen, hall⟩
    rw [length_range] at hlen
    refine ⟨hlen, fun i hi hi' => ?_⟩
    have hr : i < (range as.length).length := by rwa [length_range]
    exact (hget i hr hi _).mp (hall i hr hi')
  · rintro ⟨hlen, hall⟩
    refine ⟨by rwa [length_range], fun i hr hi' => ?_⟩
    have hi : i < as.length := by rwa [length_range] at hr
    exact (hget i hr hi _).mpr (hall i hi hi')

end List
