import AsyncLogStorage.Native.Service

/-!
# Percent-encodings

A percent-encoding of a byte string writes any of its bytes as `%` and two hexadecimal
digits, and always those that are `%` themselves.

## Key results

- `urlDecode_of_encodes`: `UrlDecode` undoes every percent-encoding
- `urlDecode_flatten`: the same for an encoding that is given byte by byte
- `not_malformed_iff`: the percent-encodings are the strings whose `%` all start an escape
-/

namespace Storage

/-- `x` is a hexadecimal digit of the value `v`. -/
def IsHexDigit (x : UInt8) (v : Nat) : Prop :=
  (48 ≤ x ∧ x ≤ 57 ∧ v = x.toNat - 48) ∨ (65 ≤ x ∧ x ≤ 70 ∧ v = x.toNat - 55) ∨
    (97 ≤ x ∧ x ≤ 102 ∧ v = x.toNat - 87)

/-- `Encodes e s`: `e` is a percent-encoding of `s`. -/
inductive Encodes : Bytes → Bytes → Prop where
  | nil : Encodes [] []
  | literal {c : UInt8} {e s : Bytes} (hc : c ≠ 37) (h : Encodes e s) : Encodes (c :: e) (c :: s)
  | escape {x y b : UInt8} {e s : Bytes} (hx : IsHexDigit x (b.toNat / 16))
      (hy : IsHexDigit y (b.toNat % 16)) (h : Encodes e s) : Encodes (37 :: x :: y :: e) (b :: s)

/-- A string without `%` is an encoding of itself. -/
theorem encodes_self {s : Bytes} (h : 37 ∉ s) : Encodes s s := by
  induction s with
  | nil => exact .nil
  | cons c s ih =>
    rw [List.mem_cons, not_or] at h
    exact .literal (Ne.symm h.1) (ih h.2)

/-- Encodings can be put one after the other. -/
theorem encodes_append {e e' s s' : Bytes} (h : Encodes e s) (h' : Encodes e' s') :
    Encodes (e ++ e') (s ++ s') := by
  induction h with
  | nil => exact h'
  | literal hc _ ih => exact .literal hc ih
  | escape hx hy _ ih => exact .escape hx hy ih

theorem fromHex_of_isHexDigit {x : UInt8} {v : Nat} (h : IsHexDigit x v) :
    fromHex x = some v := by
  have h48 : (48 : UInt8).toNat = 48 := rfl
  have h57 : (57 : UInt8).toNat = 57 := rfl
  have h65 : (65 : UInt8).toNat = 65 := rfl
  have h70 : (70 : UInt8).toNat = 70 := rfl
  have h90 : (90 : UInt8).toNat = 90 := rfl
  have h97 : (97 : UInt8).toNat = 97 := rfl
  have h102 : (102 : UInt8).toNat = 102 := rfl
  have h122 : (122 : UInt8).toNat = 122 := rfl
  simp only [IsHexDigit, UInt8.le_iff_toNat_le, h48, h57, h65, h70, h97, h102] at h
  simp only [fromHex, UInt8.le_iff_toNat_le, h48, h57, h65, h90, h97, h122]
  -- a digit, an upper case or a lower case letter
  obtain ⟨hlo, hhi, rfl⟩ | ⟨hlo, hhi, rfl⟩ | ⟨hlo, hhi, rfl⟩ := h
  · rw [if_neg (by omega), if_neg (by omega), if_pos ⟨hlo, hhi⟩]
  · rw [if_pos (by omega)]
    congr 1
    omega
  · rw [if_neg (by omega), if_pos (by omega)]
    congr 1
    omega

/-- What a percent-encoding may write for the byte `b`. -/
def EncodesByte (part : Bytes) (b : UInt8) : Prop :=
  (part = [b] ∧ b ≠ 37) ∨
    ∃ x y, part = [37, x, y] ∧ IsHexDigit x (b.toNat / 16) ∧ IsHexDigit y (b.toNat % 16)

/-- `UrlDecode` gives back the byte that the first part encodes. -/
theorem urlDecode_append {part : Bytes} {b : UInt8} (h : EncodesByte part b) (rest : Bytes) :
    urlDecode (part ++ rest) = (urlDecode rest).map (b :: ·) := by
  obtain ⟨rfl, hb⟩ | ⟨x, y, rfl, hx, hy⟩ := h
  · rw [List.singleton_append, urlDecode.eq_def]
    simp only [hb, ↓reduceIte]
  · -- the two digits give the byte back
    have hbyte : b.toNat / 16 * 16 + b.toNat % 16 = b.toNat := by omega
    have hdecode : urlDecode (37 :: x :: y :: rest) =
        (urlDecode rest).map (UInt8.ofNat (b.toNat / 16 * 16 + b.toNat % 16) :: ·) := by
      rw [urlDecode, if_pos rfl, fromHex_of_isHexDigit hx, fromHex_of_isHexDigit hy]
      cases urlDecode rest <;> rfl
    rw [List.cons_append, List.cons_append, List.singleton_append, hdecode, hbyte,
      UInt8.ofNat_toNat]

/-- `UrlDecode` undoes every percent-encoding. -/
theorem urlDecode_of_encodes {e s : Bytes} (h : Encodes e s) : urlDecode e = some s := by
  induction h with
  | nil => rfl
  | @literal c e s hc _ ih =>
    have hpart := urlDecode_append (.inl ⟨rfl, hc⟩) e
    rwa [ih, Option.map_some] at hpart
  | @escape x y b e s hx hy _ ih =>
    have hpart := urlDecode_append (.inr ⟨x, y, rfl, hx, hy⟩) e
    rwa [ih, Option.map_some] at hpart

/-! ## Byte by byte -/

theorem encodes_flatten {parts : List Bytes} {s : Bytes}
    (h : List.Forall₂ EncodesByte parts s) : Encodes parts.flatten s := by
  induction h with
  | nil => exact .nil
  | @cons part b parts s hpart _ ih =>
    rw [List.flatten_cons]
    obtain ⟨rfl, hb⟩ | ⟨x, y, rfl, hx, hy⟩ := hpart
    · exact .literal hb ih
    · exact .escape hx hy ih

/-- `UrlDecode` gives back every string of which each byte was copied, if it is no `%`, or
    written as an escape. -/
theorem urlDecode_flatten {parts : List Bytes} {s : Bytes}
    (h : List.Forall₂ EncodesByte parts s) : urlDecode parts.flatten = some s :=
  urlDecode_of_encodes (encodes_flatten h)

/-- `%Ef` is one byte, and `+` stands for itself. -/
theorem urlDecode_flatten_plus : urlDecode [[37, 69, 102], [43]].flatten = some [0xef, 43] := by
  apply urlDecode_flatten
  refine .cons (.inr ⟨69, 102, rfl, ?_, ?_⟩) (.cons (.inl ⟨rfl, by decide⟩) .nil)
  · exact .inr (.inl (by decide))
  · exact .inr (.inr (by decide))

/-! ## Malformed paths -/

/-- Two hexadecimal digits are at the start of `s`. -/
def StartsWithHex (s : Bytes) : Prop :=
  ∃ x y rest v w, s = x :: y :: rest ∧ IsHexDigit x v ∧ IsHexDigit y w

/-- Some `%` is not followed by two hexadecimal digits. -/
def Malformed (s : Bytes) : Prop :=
  ∃ pre post, s = pre ++ 37 :: post ∧ ¬StartsWithHex post

theorem IsHexDigit.ne_percent {x : UInt8} {v : Nat} (h : IsHexDigit x v) : x ≠ 37 := by
  rintro rfl
  obtain ⟨hlo, -⟩ | ⟨hlo, -⟩ | ⟨hlo, -⟩ := h <;> exact absurd hlo (by decide)

theorem IsHexDigit.lt {x : UInt8} {v : Nat} (h : IsHexDigit x v) : v < 16 := by
  have h57 : (57 : UInt8).toNat = 57 := rfl
  have h70 : (70 : UInt8).toNat = 70 := rfl
  have h102 : (102 : UInt8).toNat = 102 := rfl
  simp only [IsHexDigit, UInt8.le_iff_toNat_le, h57, h70, h102] at h
  omega

/-- In an encoding every `%` starts an escape. -/
theorem startsWithHex_of_encodes {e s pre post : Bytes} (h : Encodes e s)
    (hsplit : e = pre ++ 37 :: post) : StartsWithHex post := by
  induction h generalizing pre with
  | nil => simp at hsplit
  | literal hc _ ih =>
    cases pre with
    | nil => exact absurd (List.cons.inj hsplit).1 hc
    | cons d pre => exact ih (List.cons.inj hsplit).2
  | @escape x y b e s hx hy _ ih =>
    -- the `%` is the one of the escape, or stands behind it: no digit is a `%`
    cases pre with
    | nil => exact ⟨x, y, e, _, _, ((List.cons.inj hsplit).2).symm, hx, hy⟩
    | cons d pre =>
      have hsplit := (List.cons.inj hsplit).2
      cases pre with
      | nil => exact absurd (List.cons.inj hsplit).1 hx.ne_percent
      | cons d pre =>
        have hsplit := (List.cons.inj hsplit).2
        cases pre with
        | nil => exact absurd (List.cons.inj hsplit).1 hy.ne_percent
        | cons d pre => exact ih (List.cons.inj hsplit).2

/-- Two digits are those of a byte. -/
theorem exists_byte {x y : UInt8} {v w : Nat} (hx : IsHexDigit x v) (hy : IsHexDigit y w) :
    ∃ b : UInt8, IsHexDigit x (b.toNat / 16) ∧ IsHexDigit y (b.toNat % 16) := by
  have hv := hx.lt
  have hw := hy.lt
  have hb : (UInt8.ofNat (v * 16 + w)).toNat = v * 16 + w := by
    rw [UInt8.toNat_ofNat']
    omega
  refine ⟨UInt8.ofNat (v * 16 + w), ?_, ?_⟩
  · rw [hb, show (v * 16 + w) / 16 = v by omega]
    exact hx
  · rw [hb, show (v * 16 + w) % 16 = w by omega]
    exact hy

/-- A string whose `%` all start an escape encodes something. -/
theorem exists_encodes (n : Nat) (s : Bytes) (hn : s.length ≤ n) (h : ¬Malformed s) :
    ∃ decoded, Encodes s decoded := by
  induction n generalizing s with
  | zero =>
    rw [List.length_eq_zero_iff.mp (Nat.le_zero.mp hn)]
    exact ⟨[], .nil⟩
  | succ n ih =>
    cases s with
    | nil => exact ⟨[], .nil⟩
    | cons c s =>
      rw [List.length_cons] at hn
      by_cases hc : c = 37
      · subst hc
        have hhex : StartsWithHex s := Classical.byContradiction fun hnot => h ⟨[], s, rfl, hnot⟩
        obtain ⟨x, y, rest, v, w, rfl, hx, hy⟩ := hhex
        obtain ⟨b, hxb, hyb⟩ := exists_byte hx hy
        simp only [List.length_cons] at hn
        have hrest : ¬Malformed rest := by
          rintro ⟨pre, post, rfl, hnot⟩
          exact h ⟨37 :: x :: y :: pre, post, rfl, hnot⟩
        obtain ⟨decoded, hdecoded⟩ := ih rest (by omega) hrest
        exact ⟨b :: decoded, .escape hxb hyb hdecoded⟩
      · have hrest : ¬Malformed s := by
          rintro ⟨pre, post, rfl, hnot⟩
          exact h ⟨c :: pre, post, rfl, hnot⟩
        obtain ⟨decoded, hdecoded⟩ := ih s (by omega) hrest
        exact ⟨c :: decoded, .literal hc hdecoded⟩

/-- The strings that are not malformed are the percent-encodings. -/
theorem not_malformed_iff {s : Bytes} : ¬Malformed s ↔ ∃ decoded, Encodes s decoded := by
  constructor
  · exact exists_encodes s.length s (Nat.le_refl _)
  · rintro ⟨decoded, hencodes⟩ ⟨pre, post, hsplit, hnot⟩
    exact hnot (startsWithHex_of_encodes hencodes hsplit)

end Storage
