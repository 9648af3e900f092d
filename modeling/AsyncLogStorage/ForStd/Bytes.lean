import Mathlib.Data.List.Infix
import Mathlib.Data.List.TakeWhile

/-!
# Byte strings for the standard library

Byte strings as C and C++ see them: the bytes of a literal, the part of a string
that a C function reads through `c_str()`, and the numerals of `std::to_string`.
-/

/-- Byte strings, as `std::string` and `std::vector<char>` hold them. -/
abbrev Bytes := List UInt8

namespace Bytes

/-- The bytes of a literal. -/
def ofString (s : String) : Bytes := s.toUTF8.data.toList

/-- What a C function reads of a string that it gets by `c_str()`. -/
def cstr (s : Bytes) : Bytes := s.takeWhile (· ≠ 0)

/-- `s.find(sub) != std::string::npos`. -/
def contains (s sub : Bytes) : Bool := decide (sub <:+: s)

/-- A string without a NUL is read to its end. -/
theorem cstr_eq_self {s : Bytes} : cstr s = s ↔ 0 ∉ s := by
  unfold cstr
  constructor
  · intro h hmem
    rw [← h] at hmem
    have := List.mem_takeWhile_imp hmem
    simp at this
  · intro h
    apply List.takeWhile_eq_self_iff.mpr
    intro b hb
    simp only [ne_eq, decide_not, Bool.not_eq_eq_eq_not, Bool.not_true, decide_eq_false_iff_not]
    rintro rfl
    exact h hb

theorem not_mem_cstr (s : Bytes) : 0 ∉ cstr s := by
  intro hmem
  have := List.mem_takeWhile_imp hmem
  simp at this

@[simp] theorem cstr_cstr (s : Bytes) : cstr (cstr s) = cstr s :=
  cstr_eq_self.mpr (not_mem_cstr s)

/-- The NUL that cuts a concatenation short lies in the second part if the first has none. -/
theorem cstr_append {s : Bytes} (t : Bytes) (h : 0 ∉ s) : cstr (s ++ t) = s ++ cstr t := by
  unfold cstr
  induction s with
  | nil => rfl
  | cons b s ih =>
    have hb : b ≠ 0 := fun heq => h (heq ▸ List.mem_cons_self)
    rw [List.cons_append, List.takeWhile_cons_of_pos (by simpa using hb),
      ih fun hmem => h (List.mem_cons_of_mem b hmem), List.cons_append]

/-- A string is read up to the NUL that is stored behind it. -/
theorem cstr_append_nul (s t : Bytes) : cstr (s ++ 0 :: t) = cstr s := by
  unfold cstr
  induction s with
  | nil => rfl
  | cons b s ih =>
    simp only [List.cons_append, List.takeWhile_cons, ih]

/-- What follows a string with a NUL is not read. -/
theorem cstr_append_of_mem {s : Bytes} (t : Bytes) (h : 0 ∈ s) : cstr (s ++ t) = cstr s := by
  obtain ⟨s₁, s₂, rfl⟩ := List.append_of_mem h
  rw [List.append_assoc, List.cons_append, cstr_append_nul, cstr_append_nul]

theorem length_cstr_le (s : Bytes) : (cstr s).length ≤ s.length :=
  (List.takeWhile_sublist _).length_le

theorem contains_iff {s sub : Bytes} : s.contains sub = true ↔ sub <:+: s := decide_eq_true_iff

/-! ## Literals and numerals -/

theorem ofString_inj {s t : String} : ofString s = ofString t ↔ s = t := by
  constructor
  · intro h
    apply String.toByteArray_inj.mp
    exact ByteArray.ext (Array.toList_inj.mp h)
  · rintro rfl
    rfl

theorem ofString_append (s t : String) : ofString (s ++ t) = ofString s ++ ofString t := by
  simp [ofString]

/-- The bytes of a literal are those of its characters. -/
theorem mem_ofString {b : UInt8} {s : String} :
    b ∈ ofString s ↔ ∃ c ∈ s.toList, b ∈ String.utf8EncodeChar c := by
  unfold ofString String.toUTF8
  rw [← String.utf8Encode_toList]
  simp [List.utf8Encode]

/-- The numeral of a natural number consists of digits. -/
theorem isDigit_of_mem_nat {n : Nat} {b : UInt8} (h : b ∈ ofString (toString n)) :
    48 ≤ b ∧ b ≤ 57 := by
  obtain ⟨c, hc, hb⟩ := mem_ofString.mp h
  rw [Nat.toString_eq_repr, Nat.toList_repr] at hc
  have hdigit := Nat.isDigit_of_mem_toDigits (by decide) (by decide) hc
  simp only [Char.isDigit, Bool.and_eq_true, decide_eq_true_eq] at hdigit
  have hlow : 48 ≤ c.val.toNat := hdigit.1
  have hhigh : c.val.toNat ≤ 57 := hdigit.2
  -- a digit is its own encoding
  have hsize : c.utf8Size = 1 := by
    rw [Char.utf8Size_eq_one_iff, UInt32.le_iff_toNat_le]
    show c.val.toNat ≤ 127
    omega
  have hmod : c.val.toNat % 2 ^ 8 = c.val.toNat := by omega
  rw [String.utf8EncodeChar_eq_singleton hsize, List.mem_singleton] at hb
  rw [hb, UInt8.le_iff_toNat_le, UInt8.le_iff_toNat_le, UInt32.toNat_toUInt8, hmod]
  exact ⟨hlow, hhigh⟩

theorem minus_not_mem_nat (n : Nat) : 45 ∉ ofString (toString n) := by
  intro h
  exact absurd (isDigit_of_mem_nat h).1 (by decide)

/-- A number is determined by its digits. -/
theorem toDigits_inj {n m : Nat} : Nat.toDigits 10 n = Nat.toDigits 10 m ↔ n = m := by
  constructor
  · intro h
    rw [← Nat.ofDigitChars_ten_toDigits (n := n), h, Nat.ofDigitChars_ten_toDigits]
  · rintro rfl
    rfl

theorem ofString_nat_inj {n m : Nat} : ofString (toString n) = ofString (toString m) ↔ n = m := by
  rw [ofString_inj, ← toDigits_inj, ← Nat.toList_repr, ← Nat.toList_repr, Nat.toString_eq_repr,
    Nat.toString_eq_repr, String.toList_inj]

/-- The number written by the digits of `a` and behind them those of `b`, which is below 100. -/
def joinDigits (a b : Nat) : Nat :=
  if b < 10 then 10 * a + b else 100 * a + b

theorem joinDigits_pos {a b : Nat} (ha : 0 < a) : 0 < joinDigits a b := by
  unfold joinDigits
  split <;> omega

theorem toDigits_joinDigits {a b : Nat} (ha : 0 < a) (hb : b < 100) :
    Nat.toDigits 10 (joinDigits a b) = Nat.toDigits 10 a ++ Nat.toDigits 10 b := by
  have hten : 1 < 10 := by decide
  unfold joinDigits
  split
  · rename_i hlt
    rw [Nat.toDigits_append_toDigits hten ha hlt]
  · -- the two digits of `b` are added one by one
    have htens : 0 < b / 10 := by omega
    have hlow : b / 10 < 10 := by omega
    have hsum : 10 * (b / 10) + b % 10 = b := by omega
    have hall : 10 * (10 * a + b / 10) + b % 10 = 100 * a + b := by omega
    have hmod : b % 10 < 10 := by omega
    have hb := Nat.toDigits_append_toDigits hten htens hmod
    rw [hsum] at hb
    rw [← hb, ← List.append_assoc, Nat.toDigits_append_toDigits hten ha hlow,
      Nat.toDigits_append_toDigits hten (by omega) hmod, hall]

/-- The numerals of two numbers, one after the other, are the numeral of a number. -/
theorem ofString_nat_append {a b : Nat} (ha : 0 < a) (hb : b < 100) :
    ofString (toString a) ++ ofString (toString b) = ofString (toString (joinDigits a b)) := by
  rw [← ofString_append, ofString_inj, ← String.toList_inj, String.toList_append,
    Nat.toString_eq_repr, Nat.toString_eq_repr, Nat.toString_eq_repr, Nat.toList_repr,
    Nat.toList_repr, Nat.toList_repr, toDigits_joinDigits ha hb]

/-- The numeral of a negative number starts with a minus. -/
theorem ofString_negSucc (n : Nat) :
    ofString (toString (Int.negSucc n)) = 45 :: ofString (toString (n + 1)) := by
  have hminus : toString (Int.negSucc n) = "-" ++ toString (n + 1) := rfl
  rw [hminus, ofString_append]
  rfl

theorem nul_not_mem_int (a : Int) : 0 ∉ ofString (toString a) := by
  intro h
  cases a with
  | ofNat n => exact absurd (isDigit_of_mem_nat h).1 (by decide)
  | negSucc n =>
    rw [ofString_negSucc] at h
    obtain h | h := List.mem_cons.mp h
    · cases h
    · exact absurd (isDigit_of_mem_nat h).1 (by decide)

theorem ofString_int_inj {a b : Int} : ofString (toString a) = ofString (toString b) ↔ a = b := by
  constructor
  · intro h
    cases a with
    | ofNat n =>
      have h : ofString (toString n) = ofString (toString b) := h
      cases b with
      | ofNat m => rw [ofString_nat_inj.mp h]
      | negSucc m =>
        rw [ofString_negSucc] at h
        exact absurd (h ▸ List.mem_cons_self) (minus_not_mem_nat n)
    | negSucc n =>
      rw [ofString_negSucc] at h
      cases b with
      | ofNat m =>
        have h : _ = ofString (toString m) := h
        exact absurd (h ▸ List.mem_cons_self) (minus_not_mem_nat m)
      | negSucc m =>
        rw [ofString_negSucc] at h
        rw [Nat.succ.inj (ofString_nat_inj.mp (List.cons.inj h).2)]
  · rintro rfl
    rfl

/-! ## Lines -/

/-- The lines of a text, each with the newline that ends it. -/
def lines (s : Bytes) : List Bytes := (s.splitOn 10).dropLast.map (· ++ [10])

/-- The only newline is the last byte. -/
def IsLine (s : Bytes) : Prop := ∃ line, s = line ++ [10] ∧ 10 ∉ line

theorem isLine_append_newline {s : Bytes} : IsLine (s ++ [10]) ↔ 10 ∉ s := by
  constructor
  · intro h
    obtain ⟨line, heq, hline⟩ := h
    rw [List.append_cancel_right heq]
    exact hline
  · intro h
    exact ⟨s, rfl, h⟩

/-- A line at the start of a text is its first one. -/
theorem lines_append {l : Bytes} (h : IsLine l) (s : Bytes) : lines (l ++ s) = l :: lines s := by
  obtain ⟨line, rfl, hline⟩ := h
  have hsplit : (line ++ [10] ++ s).splitOn 10 = line :: s.splitOn 10 := by
    rw [List.append_assoc]
    exact List.splitOn_append_cons_self_of_not_mem hline s
  rw [lines, hsplit, List.dropLast_cons_of_ne_nil (List.splitOn_ne_nil 10 s)]
  rfl

/-- Lines that are written one after the other can be told apart. -/
theorem lines_flatten {ls : List Bytes} (h : ∀ l ∈ ls, IsLine l) : lines ls.flatten = ls := by
  induction ls with
  | nil => rfl
  | cons l ls ih =>
    have hrest := ih fun l' hl' => h l' (List.mem_cons_of_mem l hl')
    rw [List.flatten_cons, lines_append (h l List.mem_cons_self), hrest]

end Bytes
