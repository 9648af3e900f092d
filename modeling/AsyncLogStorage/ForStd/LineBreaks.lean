/-!
# Line breaks for the standard library

A list broken into lines of a given length (`List.linesOf`), and the text in which a
separator stands between the lines (`List.breakEvery`).

## Key results

- `List.flatten_linesOf`: the lines are the whole list
- `List.splitOn_breakEvery`: the separators of the broken text give its lines back
- `List.filter_breakEvery`: without the separators it is the list
- `List.length_of_mem_dropLast_linesOf`: only the last line may be short
-/

namespace List

variable {α : Type} {n : Nat}

/-- The list in lines of `n` elements, of which the last may be shorter. -/
def linesOf (n : Nat) (l : List α) : List (List α) :=
  if 0 < n ∧ n < l.length then l.take n :: linesOf n (l.drop n) else [l]
termination_by l.length
decreasing_by
  rw [length_drop]
  omega

/-- The list with a separator between its lines. -/
def breakEvery (sep : α) (n : Nat) (l : List α) : List α := intercalate [sep] (linesOf n l)

theorem linesOf_of_le {l : List α} (h : l.length ≤ n) : linesOf n l = [l] := by
  rw [linesOf, if_neg (by omega)]

theorem linesOf_of_lt {l : List α} (hn : 0 < n) (h : n < l.length) :
    linesOf n l = l.take n :: linesOf n (l.drop n) := by
  rw [linesOf, if_pos ⟨hn, h⟩]

theorem linesOf_ne_nil (n : Nat) (l : List α) : linesOf n l ≠ [] := by
  rw [linesOf]
  split <;> simp

@[simp] theorem flatten_linesOf (n : Nat) (l : List α) : (linesOf n l).flatten = l := by
  fun_induction linesOf n l with
  | case1 l h ih => rw [flatten_cons, ih, take_append_drop]
  | case2 l h => simp

/-- The elements of a line are those of the list. -/
theorem mem_of_mem_linesOf {l line : List α} {a : α} (hline : line ∈ linesOf n l) (ha : a ∈ line) :
    a ∈ l := by
  rw [← flatten_linesOf n l]
  exact mem_flatten.mpr ⟨line, hline, ha⟩

/-- All lines but the last are full. -/
theorem length_of_mem_dropLast_linesOf {l line : List α}
    (h : line ∈ (linesOf n l).dropLast) : line.length = n := by
  fun_induction linesOf n l with
  | case1 l hlt ih =>
    rw [dropLast_cons_of_ne_nil (linesOf_ne_nil n _), mem_cons] at h
    cases h with
    | inl hfirst =>
      rw [hfirst, length_take]
      omega
    | inr hrest => exact ih hrest
  | case2 l hnot => simp at h

/-- No line is longer than `n`, and only that of an empty list is empty. -/
theorem length_of_mem_linesOf {l line : List α} (hn : 0 < n) (hl : l ≠ [])
    (h : line ∈ linesOf n l) : 0 < line.length ∧ line.length ≤ n := by
  fun_induction linesOf n l with
  | case1 l hlt ih =>
    rw [mem_cons] at h
    cases h with
    | inl hfirst =>
      rw [hfirst, length_take]
      omega
    | inr hrest =>
      have hdrop : l.drop n ≠ [] := by
        rw [ne_eq, drop_eq_nil_iff]
        omega
      exact ih hdrop hrest
  | case2 l hnot =>
    rw [mem_singleton] at h
    have hpos := length_pos_iff.mpr hl
    rw [h]
    omega

theorem breakEvery_of_le (sep : α) {l : List α} (h : l.length ≤ n) : breakEvery sep n l = l := by
  simp [breakEvery, linesOf_of_le h]

/-- The first line, a separator, and the rest broken in the same way. -/
theorem breakEvery_of_lt (sep : α) {l : List α} (hn : 0 < n) (h : n < l.length) :
    breakEvery sep n l = l.take n ++ sep :: breakEvery sep n (l.drop n) := by
  rw [breakEvery, linesOf_of_lt hn h, intercalate_cons_of_ne_nil (linesOf_ne_nil n _), breakEvery,
    append_assoc, singleton_append]

/-- The separators give the lines back if the list has none of its own. -/
theorem splitOn_breakEvery [DecidableEq α] {sep : α} {l : List α} (h : sep ∉ l) :
    (breakEvery sep n l).splitOn sep = linesOf n l := by
  apply splitOn_intercalate
  · intro line hline hmem
    exact h (mem_of_mem_linesOf hline hmem)
  · exact linesOf_ne_nil n l

/-- Taking the separators out again. -/
theorem filter_breakEvery [DecidableEq α] {sep : α} {l : List α} (h : sep ∉ l) :
    (breakEvery sep n l).filter (· ≠ sep) = l := by
  have hkeep : ∀ {l : List α}, sep ∉ l → l.filter (· ≠ sep) = l := by
    intro l hl
    apply filter_eq_self.mpr
    intro a ha
    simp only [ne_eq, decide_not, Bool.not_eq_true', decide_eq_false_iff_not]
    intro heq
    exact hl (heq ▸ ha)
  fun_induction linesOf n l with
  | case1 l hlt ih =>
    have hdrop : sep ∉ l.drop n := fun hmem => h (mem_of_mem_drop hmem)
    have htake : sep ∉ l.take n := fun hmem => h (mem_of_mem_take hmem)
    rw [breakEvery_of_lt sep hlt.1 hlt.2, filter_append, filter_cons_of_neg (by simp),
      ih hdrop, hkeep htake, take_append_drop]
  | case2 l hnot =>
    rw [breakEvery, linesOf, if_neg hnot]
    simpa using hkeep h

end List
