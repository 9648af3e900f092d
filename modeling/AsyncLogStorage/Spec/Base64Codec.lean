import AsyncLogStorage.ForStd.LineBreaks
import AsyncLogStorage.Native.Base64
import Mathlib.Data.Nat.Bitwise

/-!
# The base64 codec

What `base64_encode` writes is what `base64_decode` reads back, in both alphabets and with
the line breaks of the PEM and MIME forms. The counter of the encoder is an `unsigned int`,
so it ends exactly on inputs below 2^32 bytes.

## Key results

- `base64Encode_eq`: the loop of the encoder, in three-byte groups, and when it ends
- `base64Decode_encoding`: a text decodes to what it was made from
- `base64Decode_append`: texts of whole groups decode one after the other
- `canonical_iff`: the texts that the encoder makes are the canonical ones
- `encodeWithLineBreaks_eq`: the encoded text in its lines
-/

namespace Base64

/-- The text of a byte string: four characters for each three bytes, the last group padded. -/
def encoding (url : Bool) : Bytes → Bytes
  | [] => []
  | [b0] =>
    [charAt url (b0.toNat / 4), charAt url (b0.toNat % 4 * 16), trailingChar url, trailingChar url]
  | [b0, b1] =>
    [charAt url (b0.toNat / 4), charAt url (b0.toNat % 4 * 16 + b1.toNat / 16),
      charAt url (b1.toNat % 16 * 4), trailingChar url]
  | b0 :: b1 :: b2 :: rest =>
    charAt url (b0.toNat / 4) :: charAt url (b0.toNat % 4 * 16 + b1.toNat / 16) ::
      charAt url (b1.toNat % 16 * 4 + b2.toNat / 64) :: charAt url (b2.toNat % 64) ::
        encoding url rest

/-! ## Six bits at a time -/

/-- The bits that a mask of `k` bits at position `i` leaves. -/
private theorem and_mask_shiftRight (n i k : Nat) :
    (n &&& ((2 ^ k - 1) <<< i)) >>> i = n / 2 ^ i % 2 ^ k := by
  rw [Nat.shiftRight_and_distrib, Nat.shiftLeft_shiftRight, Nat.and_two_pow_sub_one_eq_mod,
    Nat.shiftRight_eq_div_pow]

private theorem and_252 (n : Nat) : (n &&& 252) >>> 2 = n / 4 % 64 := and_mask_shiftRight n 2 6
private theorem and_240 (n : Nat) : (n &&& 240) >>> 4 = n / 16 % 16 := and_mask_shiftRight n 4 4
private theorem and_192 (n : Nat) : (n &&& 192) >>> 6 = n / 64 % 4 := and_mask_shiftRight n 6 2
private theorem and_48 (n : Nat) : (n &&& 48) >>> 4 = n / 16 % 4 := and_mask_shiftRight n 4 2
private theorem and_60 (n : Nat) : (n &&& 60) >>> 2 = n / 4 % 16 := and_mask_shiftRight n 2 4
private theorem and_63 (n : Nat) : n &&& 63 = n % 64 := Nat.and_two_pow_sub_one_eq_mod n 6
private theorem and_15 (n : Nat) : n &&& 15 = n % 16 := Nat.and_two_pow_sub_one_eq_mod n 4
private theorem and_3 (n : Nat) : n &&& 3 = n % 4 := Nat.and_two_pow_sub_one_eq_mod n 2

private theorem shiftLeft_six (n : Nat) : n <<< 6 = n * 64 := Nat.shiftLeft_eq n 6
private theorem shiftLeft_four (n : Nat) : n <<< 4 = n * 16 := Nat.shiftLeft_eq n 4
private theorem shiftLeft_two (n : Nat) : n <<< 2 = n * 4 := Nat.shiftLeft_eq n 2

/-! ## The alphabets -/

theorem length_base64Chars (url : Bool) : (base64Chars url).length = 64 := by
  cases url <;> decide

set_option maxRecDepth 4096 in
/-- Each of the 64 characters of an alphabet is read back as its position, and none of them
    pads a group or breaks a line. -/
theorem posOfChar_charAt (url : Bool) {i : Nat} (h : i < 64) :
    posOfChar (charAt url i) = some i ∧ isPad (charAt url i) = false ∧ charAt url i ≠ 10 := by
  revert i
  cases url <;> decide

theorem isPad_trailingChar (url : Bool) : isPad (trailingChar url) = true := by
  cases url <;> decide

theorem trailingChar_ne (url : Bool) : trailingChar url ≠ 10 := by
  cases url <;> decide

/-- A character of the alphabet stands at a position below 64. -/
theorem exists_charAt {url : Bool} {c : UInt8} (h : c ∈ base64Chars url) :
    ∃ i < 64, c = charAt url i := by
  obtain ⟨i, hi, rfl⟩ := List.getElem_of_mem h
  refine ⟨i, length_base64Chars url ▸ hi, ?_⟩
  rw [charAt, List.getD_eq_getElem _ _ hi]

theorem charAt_mem (url : Bool) {i : Nat} (h : i < 64) : charAt url i ∈ base64Chars url := by
  rw [charAt, List.getD_eq_getElem _ _ (length_base64Chars url ▸ h)]
  exact List.getElem_mem _

/-! ## The loop of the encoder -/

private theorem byteAt_append (pre : Bytes) {rest : Bytes} {i : UInt32} {k : Nat} {b : UInt8}
    (hi : i.toNat = pre.length + k) (hk : rest[k]? = some b) :
    byteAt (pre ++ rest) i = b.toNat := by
  rw [byteAt, List.getD_eq_getElem?_getD, hi, List.getElem?_append_right (by omega),
    Nat.add_sub_cancel_left, hk, Option.getD_some]

/-- Below the last counter value that the loop can start a turn with, its sums do not wrap. -/
private theorem toNat_add {pos k : UInt32} (h : pos.toNat + k.toNat < 4294967296) :
    (pos + k).toNat = pos.toNat + k.toNat := by
  rw [UInt32.toNat_add]
  exact Nat.mod_eq_of_lt h

/-- A turn of the loop writes the text of the next three bytes, or of those that are left. -/
theorem encodeTurn_eq (url : Bool) {pre rest : Bytes} {pos : UInt32} (hpos : pos.toNat = pre.length)
    (hrest : rest ≠ []) (hlen : pre.length + 2 < 4294967296) :
    encodeTurn url (pre ++ rest) pos = encoding url (rest.take 3) := by
  have h1 : (pos + 1).toNat = pre.length + 1 := by
    rw [toNat_add (by simp; omega), hpos]
    rfl
  have h2 : (pos + 2).toNat = pre.length + 2 := by
    rw [toNat_add (by simp; omega), hpos]
    rfl
  unfold encodeTurn
  simp only [h1, h2, List.length_append, and_252, and_240, and_192, and_63, and_15, and_3,
    shiftLeft_four, shiftLeft_two]
  match rest with
  | [b0] =>
    have hlt0 := b0.toNat_lt
    rw [byteAt_append pre (k := 0) (b := b0) hpos rfl, if_neg (by simp)]
    simp only [List.take, encoding, show b0.toNat / 4 % 64 = b0.toNat / 4 by omega]
  | [b0, b1] =>
    have hlt0 := b0.toNat_lt
    have hlt1 := b1.toNat_lt
    rw [byteAt_append pre (k := 0) (b := b0) hpos rfl, byteAt_append pre (b := b1) h1 rfl,
      if_pos (by simp), if_neg (by simp)]
    simp only [List.take, encoding, show b0.toNat / 4 % 64 = b0.toNat / 4 by omega,
      show b1.toNat / 16 % 16 = b1.toNat / 16 by omega]
  | b0 :: b1 :: b2 :: tail =>
    have hlt0 := b0.toNat_lt
    have hlt1 := b1.toNat_lt
    have hlt2 := b2.toNat_lt
    rw [byteAt_append pre (k := 0) (b := b0) hpos rfl, byteAt_append pre (b := b1) h1 rfl,
      byteAt_append pre (b := b2) h2 rfl, if_pos (by simp), if_pos (by simp)]
    simp only [List.take, encoding, show b0.toNat / 4 % 64 = b0.toNat / 4 by omega,
      show b1.toNat / 16 % 16 = b1.toNat / 16 by omega,
      show b2.toNat / 64 % 4 = b2.toNat / 64 by omega]

/-- The text of the first three bytes, then that of the others. -/
theorem encoding_take_append (url : Bool) (s : Bytes) :
    encoding url (s.take 3) ++ encoding url (s.drop 3) = encoding url s := by
  match s with
  | [] => rfl
  | [_] => rfl
  | [_, _] => rfl
  | _ :: _ :: _ :: _ => rfl

/-- From a position that is a multiple of three on, the loop appends the text of what is left.

    The counter goes from one multiple of three to the next and 2^32 - 1 is one of them, so an
    input below 2^32 bytes is gone through before the counter wraps. -/
theorem encodeLoop_eq (url : Bool) (fuel : Nat) {pre rest : Bytes} {pos : UInt32} (ret : Bytes)
    (hpos : pos.toNat = pre.length) (hthree : pre.length % 3 = 0)
    (hlen : pre.length + rest.length < 4294967296) :
    encodeLoop url (pre ++ rest) fuel pos ret =
      if (rest.length + 2) / 3 < fuel then some (ret ++ encoding url rest) else none := by
  induction fuel generalizing pre rest pos ret with
  | zero => rfl
  | succ fuel ih =>
    rw [encodeLoop, List.length_append, hpos]
    by_cases hrest : rest = []
    · subst hrest
      rw [if_neg (by simp), if_pos (by simp), encoding, List.append_nil]
    · have hpositive := List.length_pos_iff.mpr hrest
      have hpos3 : (pos + 3).toNat = pre.length + 3 := by
        rw [toNat_add (by simp; omega), hpos]
        rfl
      rw [if_pos (by omega), encodeTurn_eq url hpos hrest (by omega)]
      by_cases hlast : rest.length ≤ 3
      · -- the next test ends the loop, wherever the counter is
        have hturns : (rest.length + 2) / 3 = 1 := by omega
        rw [List.take_of_length_le hlast, hturns]
        cases fuel with
        | zero => rfl
        | succ fuel => rw [encodeLoop, if_neg (by simp; omega), if_pos (by omega)]
      · have htake : (rest.take 3).length = 3 := List.length_take_of_le (by omega)
        have hsplit : pre ++ rest = (pre ++ rest.take 3) ++ rest.drop 3 := by simp
        have hnext : (pos + 3).toNat = (pre ++ rest.take 3).length := by
          rw [hpos3, List.length_append, htake]
        have hturns : ((rest.drop 3).length + 2) / 3 < fuel ↔ (rest.length + 2) / 3 < fuel + 1 := by
          rw [List.length_drop]
          omega
        rw [hsplit, ih _ hnext (by simp; omega) (by simp; omega), List.append_assoc,
          encoding_take_append]
        simp only [hturns]

/-- An `unsigned int` never reaches the length of a longer input: the loop does not end. -/
theorem encodeLoop_eq_none (url : Bool) {bytes : Bytes} (h : 4294967296 ≤ bytes.length) (fuel : Nat)
    (pos : UInt32) (ret : Bytes) : encodeLoop url bytes fuel pos ret = none := by
  induction fuel generalizing pos ret with
  | zero => rfl
  | succ fuel ih =>
    have hpos := pos.toNat_lt
    rw [encodeLoop, if_pos (by omega), ih]

/-- The encoder ends exactly on inputs below 2^32 bytes, after a test for each group and one
    more, and then it has made the text of its input. -/
theorem base64Encode_eq (fuel : Nat) (s : Bytes) (url : Bool) :
    base64Encode fuel s url =
      if s.length < 4294967296 ∧ (s.length + 2) / 3 < fuel then some (encoding url s)
      else none := by
  by_cases hlen : s.length < 4294967296
  · have hloop : encodeLoop url ([] ++ s) fuel 0 [] = _ :=
      encodeLoop_eq url fuel [] rfl rfl (by simpa using hlen)
    simpa [base64Encode, hlen] using hloop
  · rw [base64Encode, encodeLoop_eq_none url (by omega), if_neg (fun h => hlen h.1)]

/-! ## Decoding -/

/-- A whole group of characters of the alphabet. -/
theorem decodeGroup_full {c0 c1 c2 c3 : UInt8} {p0 p1 p2 p3 : Nat} (h0 : posOfChar c0 = some p0)
    (h1 : posOfChar c1 = some p1) (h2 : posOfChar c2 = some p2) (h3 : posOfChar c3 = some p3)
    (hpad2 : isPad c2 = false) (hpad3 : isPad c3 = false) :
    decodeGroup c0 c1 (some c2) (some c3) =
      some [UInt8.ofNat (p0 * 4 + p1 / 16 % 4), UInt8.ofNat (p1 % 16 * 16 + p2 / 4 % 16),
        UInt8.ofNat (p2 % 4 * 64 + p3)] := by
  simp [decodeGroup, decodeSecond, decodeThird, h0, h1, h2, h3, hpad2, hpad3, and_48, and_60,
    and_15, and_3, shiftLeft_two, shiftLeft_four, shiftLeft_six]

/-- A group with one pad. -/
theorem decodeGroup_pad {c0 c1 c2 c3 : UInt8} {p0 p1 p2 : Nat} (h0 : posOfChar c0 = some p0)
    (h1 : posOfChar c1 = some p1) (h2 : posOfChar c2 = some p2) (hpad2 : isPad c2 = false)
    (hpad3 : isPad c3 = true) :
    decodeGroup c0 c1 (some c2) (some c3) =
      some [UInt8.ofNat (p0 * 4 + p1 / 16 % 4), UInt8.ofNat (p1 % 16 * 16 + p2 / 4 % 16)] := by
  simp [decodeGroup, decodeSecond, decodeThird, h0, h1, h2, hpad2, hpad3, and_48, and_60, and_15,
    shiftLeft_two, shiftLeft_four]

/-- A group with two. -/
theorem decodeGroup_pads {c0 c1 c2 : UInt8} (c3 : Option UInt8) {p0 p1 : Nat}
    (h0 : posOfChar c0 = some p0) (h1 : posOfChar c1 = some p1) (hpad2 : isPad c2 = true) :
    decodeGroup c0 c1 (some c2) c3 = some [UInt8.ofNat (p0 * 4 + p1 / 16 % 4)] := by
  simp [decodeGroup, decodeSecond, h0, h1, hpad2, and_48, shiftLeft_two]

/-- Whole groups are decoded one after the other, so a text of them is decoded apart from what
    follows it. -/
theorem base64Decode_append {a : Bytes} (b : Bytes) (h : a.length % 4 = 0) :
    base64Decode (a ++ b) = (base64Decode a).bind fun x => (base64Decode b).map (x ++ ·) := by
  match a with
  | [] => simp [base64Decode]
  | [_] => simp at h
  | [_, _] => simp at h
  | [_, _, _] => simp at h
  | c0 :: c1 :: c2 :: c3 :: rest =>
    have hrest : rest.length % 4 = 0 := by
      simp only [List.length_cons] at h
      omega
    simp only [List.cons_append, base64Decode, base64Decode_append b hrest]
    cases decodeGroup c0 c1 (some c2) (some c3) with
    | none => rfl
    | some group =>
      cases base64Decode rest with
      | none => rfl
      | some tail => cases base64Decode b <;> simp

/-- The text of a byte string decodes to it, in both alphabets. -/
theorem base64Decode_encoding (url : Bool) (s : Bytes) :
    base64Decode (encoding url s) = some s := by
  have hchar := fun {i : Nat} (hi : i < 64) => posOfChar_charAt url hi
  match s with
  | [] => rfl
  | [b0] =>
    have hlt0 := b0.toNat_lt
    have hfirst := hchar (i := b0.toNat / 4) (by omega)
    have hsecond := hchar (i := b0.toNat % 4 * 16) (by omega)
    have hbyte0 : b0.toNat / 4 * 4 + b0.toNat % 4 * 16 / 16 % 4 = b0.toNat := by omega
    rw [encoding, base64Decode, decodeGroup_pads _ hfirst.1 hsecond.1 (isPad_trailingChar url),
      hbyte0, UInt8.ofNat_toNat]
    rfl
  | [b0, b1] =>
    have hlt0 := b0.toNat_lt
    have hlt1 := b1.toNat_lt
    have hfirst := hchar (i := b0.toNat / 4) (by omega)
    have hsecond := hchar (i := b0.toNat % 4 * 16 + b1.toNat / 16) (by omega)
    have hthird := hchar (i := b1.toNat % 16 * 4) (by omega)
    have hbyte0 : b0.toNat / 4 * 4 + (b0.toNat % 4 * 16 + b1.toNat / 16) / 16 % 4 = b0.toNat := by
      omega
    have hbyte1 : (b0.toNat % 4 * 16 + b1.toNat / 16) % 16 * 16 + b1.toNat % 16 * 4 / 4 % 16 =
        b1.toNat := by omega
    rw [encoding, base64Decode, decodeGroup_pad hfirst.1 hsecond.1 hthird.1 hthird.2.1
      (isPad_trailingChar url), hbyte0, hbyte1, UInt8.ofNat_toNat, UInt8.ofNat_toNat]
    rfl
  | b0 :: b1 :: b2 :: rest =>
    have hlt0 := b0.toNat_lt
    have hlt1 := b1.toNat_lt
    have hlt2 := b2.toNat_lt
    have hfirst := hchar (i := b0.toNat / 4) (by omega)
    have hsecond := hchar (i := b0.toNat % 4 * 16 + b1.toNat / 16) (by omega)
    have hthird := hchar (i := b1.toNat % 16 * 4 + b2.toNat / 64) (by omega)
    have hfourth := hchar (i := b2.toNat % 64) (by omega)
    have hbyte0 : b0.toNat / 4 * 4 + (b0.toNat % 4 * 16 + b1.toNat / 16) / 16 % 4 = b0.toNat := by
      omega
    have hbyte1 : (b0.toNat % 4 * 16 + b1.toNat / 16) % 16 * 16 +
        (b1.toNat % 16 * 4 + b2.toNat / 64) / 4 % 16 = b1.toNat := by omega
    have hbyte2 : (b1.toNat % 16 * 4 + b2.toNat / 64) % 4 * 64 + b2.toNat % 64 = b2.toNat := by
      omega
    rw [encoding, base64Decode, decodeGroup_full hfirst.1 hsecond.1 hthird.1 hfourth.1 hthird.2.1
      hfourth.2.1, hbyte0, hbyte1, hbyte2, base64Decode_encoding url rest]
    simp only [UInt8.ofNat_toNat]
    rfl

/-- The text is as long as `len_encoded`, which the encoder reserves. -/
theorem length_encoding (url : Bool) (s : Bytes) :
    (encoding url s).length = (s.length + 2) / 3 * 4 := by
  fun_induction encoding url s with
  | case1 => rfl
  | case2 => simp
  | case3 => simp
  | case4 b0 b1 b2 rest ih =>
    simp only [List.length_cons, ih]
    omega

/-- No character of a text breaks a line. -/
theorem linebreak_not_mem_encoding (url : Bool) (s : Bytes) : 10 ∉ encoding url s := by
  have hchar := fun {i : Nat} (hi : i < 64) => (posOfChar_charAt url hi).2.2.symm
  have hpad := (trailingChar_ne url).symm
  fun_induction encoding url s with
  | case1 => simp
  | case2 b0 =>
    have hlt0 := b0.toNat_lt
    simp [hpad, hchar (i := b0.toNat / 4) (by omega), hchar (i := b0.toNat % 4 * 16) (by omega)]
  | case3 b0 b1 =>
    have hlt0 := b0.toNat_lt
    have hlt1 := b1.toNat_lt
    simp [hpad, hchar (i := b0.toNat / 4) (by omega), hchar (i := b1.toNat % 16 * 4) (by omega),
      hchar (i := b0.toNat % 4 * 16 + b1.toNat / 16) (by omega)]
  | case4 b0 b1 b2 rest ih =>
    have hlt0 := b0.toNat_lt
    have hlt1 := b1.toNat_lt
    have hlt2 := b2.toNat_lt
    simp [ih, hchar (i := b0.toNat / 4) (by omega), hchar (i := b2.toNat % 64) (by omega),
      hchar (i := b0.toNat % 4 * 16 + b1.toNat / 16) (by omega),
      hchar (i := b1.toNat % 16 * 4 + b2.toNat / 64) (by omega)]

theorem decode_encoding (url removeLinebreaks : Bool) (s : Bytes) :
    decode (encoding url s) removeLinebreaks = some s := by
  have hkeep : (encoding url s).filter (· ≠ 10) = encoding url s := by
    apply List.filter_eq_self.mpr
    intro c hc
    simp only [ne_eq, decide_not, Bool.not_eq_true', decide_eq_false_iff_not]
    rintro rfl
    exact linebreak_not_mem_encoding url s hc
  unfold decode
  split
  · rename_i hempty
    rw [← base64Decode_encoding url s, hempty]
    rfl
  · rw [hkeep, base64Decode_encoding, ite_self]

/-- **The codec's round trip**: the encoder ends exactly on the inputs below 2^32 bytes, with a
    text of the length that it has reserved, which decodes to the input whether or not the
    decoder is asked to remove line breaks. -/
theorem base64_roundTrip (url : Bool) (s : Bytes) :
    (∀ fuel, (base64Encode fuel s url).isSome = true ↔
      s.length < 4294967296 ∧ (s.length + 2) / 3 < fuel) ∧
    ∀ fuel t, base64Encode fuel s url = some t →
      t.length = (s.length + 2) / 3 * 4 ∧
        ∀ removeLinebreaks, decode t removeLinebreaks = some s := by
  constructor
  · intro fuel
    rw [base64Encode_eq]
    split <;> simp [*]
  · intro fuel t ht
    rw [base64Encode_eq] at ht
    split at ht
    · cases ht
      exact ⟨length_encoding url s, fun removeLinebreaks => decode_encoding url removeLinebreaks s⟩
    · cases ht

/-! ## Canonical texts -/

/-- A text as the encoder writes it: whole groups of the alphabet, then at most two pads, with
    no bit set that the pads leave without meaning. -/
def Canonical (url : Bool) (t : Bytes) : Prop :=
  ∃ body k, t = body ++ List.replicate k (trailingChar url) ∧ k ≤ 2 ∧ t.length % 4 = 0 ∧
    (∀ c ∈ body, c ∈ base64Chars url) ∧
    ∀ c p, 0 < k → body.getLast? = some c → posOfChar c = some p → p % 4 ^ k = 0

/-- The bits that a text leaves to its last character. -/
private theorem getLast?_cons_group {c0 c1 c2 c3 c : UInt8} {body : Bytes} (hbody : body ≠ [])
    (h : (c0 :: c1 :: c2 :: c3 :: body).getLast? = some c) : body.getLast? = some c := by
  rw [List.getLast?_cons_of_ne_nil (by simp), List.getLast?_cons_of_ne_nil (by simp),
    List.getLast?_cons_of_ne_nil (by simp), List.getLast?_cons_of_ne_nil hbody] at h
  exact h

theorem canonical_encoding (url : Bool) (s : Bytes) : Canonical url (encoding url s) := by
  have hmem := fun {i : Nat} (hi : i < 64) => charAt_mem url hi
  have hpos := fun {i : Nat} (hi : i < 64) => (posOfChar_charAt url hi).1
  fun_induction encoding url s with
  | case1 => exact ⟨[], 0, rfl, by omega, rfl, by simp, by simp⟩
  | case2 b0 =>
    have hlt0 := b0.toNat_lt
    refine ⟨[charAt url (b0.toNat / 4), charAt url (b0.toNat % 4 * 16)], 2, rfl, by omega,
      by simp, ?_, ?_⟩
    · simp [hmem (i := b0.toNat / 4) (by omega), hmem (i := b0.toNat % 4 * 16) (by omega)]
    · intro c p _ hc hp
      have hlast : c = charAt url (b0.toNat % 4 * 16) := (Option.some.inj hc).symm
      rw [hlast, hpos (by omega)] at hp
      cases hp
      omega
  | case3 b0 b1 =>
    have hlt0 := b0.toNat_lt
    have hlt1 := b1.toNat_lt
    refine ⟨[charAt url (b0.toNat / 4), charAt url (b0.toNat % 4 * 16 + b1.toNat / 16),
      charAt url (b1.toNat % 16 * 4)], 1, rfl, by omega, by simp, ?_, ?_⟩
    · simp [hmem (i := b0.toNat / 4) (by omega), hmem (i := b1.toNat % 16 * 4) (by omega),
        hmem (i := b0.toNat % 4 * 16 + b1.toNat / 16) (by omega)]
    · intro c p _ hc hp
      have hlast : c = charAt url (b1.toNat % 16 * 4) := (Option.some.inj hc).symm
      rw [hlast, hpos (by omega)] at hp
      cases hp
      omega
  | case4 b0 b1 b2 rest ih =>
    have hlt0 := b0.toNat_lt
    have hlt1 := b1.toNat_lt
    have hlt2 := b2.toNat_lt
    obtain ⟨body, k, hrest, hk, hlen, hbody, hlast⟩ := ih
    refine ⟨_ :: _ :: _ :: _ :: body, k, by rw [hrest]; rfl, hk, ?_, ?_, ?_⟩
    · simp only [List.length_cons]
      omega
    · intro c hc
      simp only [List.mem_cons] at hc
      rcases hc with rfl | rfl | rfl | rfl | hc
      · exact hmem (by omega)
      · exact hmem (by omega)
      · exact hmem (by omega)
      · exact hmem (by omega)
      · exact hbody c hc
    · intro c p hkpos hc hp
      -- pads alone are no whole group, so there are characters before them
      have hne : body ≠ [] := by
        rintro rfl
        rw [hrest] at hlen
        simp at hlen
        omega
      exact hlast c p hkpos (getLast?_cons_group hne hc) hp

/-- The characters before the pads and the pads are the text of some byte string. -/
theorem exists_encoding_of_canonical {url : Bool} (body : Bytes) {k : Nat} (hk : k ≤ 2)
    (hlen : (body.length + k) % 4 = 0) (hbody : ∀ c ∈ body, c ∈ base64Chars url)
    (hlast : ∀ c p, 0 < k → body.getLast? = some c → posOfChar c = some p → p % 4 ^ k = 0) :
    ∃ s, encoding url s = body ++ List.replicate k (trailingChar url) := by
  match body with
  | [] =>
    have hzero : k = 0 := by simp at hlen; omega
    subst hzero
    exact ⟨[], rfl⟩
  | [_] =>
    simp at hlen
    omega
  | [c0, c1] =>
    have htwo : k = 2 := by simp at hlen; omega
    subst htwo
    obtain ⟨p0, hp0, rfl⟩ := exists_charAt (hbody c0 (by simp))
    obtain ⟨p1, hp1, rfl⟩ := exists_charAt (hbody c1 (by simp))
    have hunused : p1 % 16 = 0 := hlast _ p1 (by omega) rfl (posOfChar_charAt url hp1).1
    have hb0 : (UInt8.ofNat (p0 * 4 + p1 / 16)).toNat = p0 * 4 + p1 / 16 :=
      UInt8.toNat_ofNat_of_lt (by simp [UInt8.size]; omega)
    refine ⟨[UInt8.ofNat (p0 * 4 + p1 / 16)], ?_⟩
    rw [encoding, hb0, show (p0 * 4 + p1 / 16) / 4 = p0 by omega,
      show (p0 * 4 + p1 / 16) % 4 * 16 = p1 by omega]
    rfl
  | [c0, c1, c2] =>
    have hone : k = 1 := by simp at hlen; omega
    subst hone
    obtain ⟨p0, hp0, rfl⟩ := exists_charAt (hbody c0 (by simp))
    obtain ⟨p1, hp1, rfl⟩ := exists_charAt (hbody c1 (by simp))
    obtain ⟨p2, hp2, rfl⟩ := exists_charAt (hbody c2 (by simp))
    have hunused : p2 % 4 = 0 := hlast _ p2 (by omega) rfl (posOfChar_charAt url hp2).1
    have hb0 : (UInt8.ofNat (p0 * 4 + p1 / 16)).toNat = p0 * 4 + p1 / 16 :=
      UInt8.toNat_ofNat_of_lt (by simp [UInt8.size]; omega)
    have hb1 : (UInt8.ofNat (p1 % 16 * 16 + p2 / 4)).toNat = p1 % 16 * 16 + p2 / 4 :=
      UInt8.toNat_ofNat_of_lt (by simp [UInt8.size]; omega)
    refine ⟨[UInt8.ofNat (p0 * 4 + p1 / 16), UInt8.ofNat (p1 % 16 * 16 + p2 / 4)], ?_⟩
    rw [encoding, hb0, hb1, show (p0 * 4 + p1 / 16) / 4 = p0 by omega,
      show (p0 * 4 + p1 / 16) % 4 * 16 + (p1 % 16 * 16 + p2 / 4) / 16 = p1 by omega,
      show (p1 % 16 * 16 + p2 / 4) % 16 * 4 = p2 by omega]
    rfl
  | c0 :: c1 :: c2 :: c3 :: body =>
    obtain ⟨p0, hp0, rfl⟩ := exists_charAt (hbody c0 (by simp))
    obtain ⟨p1, hp1, rfl⟩ := exists_charAt (hbody c1 (by simp))
    obtain ⟨p2, hp2, rfl⟩ := exists_charAt (hbody c2 (by simp))
    obtain ⟨p3, hp3, rfl⟩ := exists_charAt (hbody c3 (by simp))
    have hb0 : (UInt8.ofNat (p0 * 4 + p1 / 16)).toNat = p0 * 4 + p1 / 16 :=
      UInt8.toNat_ofNat_of_lt (by simp [UInt8.size]; omega)
    have hb1 : (UInt8.ofNat (p1 % 16 * 16 + p2 / 4)).toNat = p1 % 16 * 16 + p2 / 4 :=
      UInt8.toNat_ofNat_of_lt (by simp [UInt8.size]; omega)
    have hb2 : (UInt8.ofNat (p2 % 4 * 64 + p3)).toNat = p2 % 4 * 64 + p3 :=
      UInt8.toNat_ofNat_of_lt (by simp [UInt8.size]; omega)
    have hrest : ∀ c p, 0 < k → body.getLast? = some c → posOfChar c = some p → p % 4 ^ k = 0 := by
      intro c p hkpos hc hp
      apply hlast c p hkpos _ hp
      have hne : body ≠ [] := by rintro rfl; cases hc
      simp only [List.getLast?_cons_of_ne_nil, ne_eq, reduceCtorEq, not_false_eq_true, hne, hc]
    obtain ⟨s, hs⟩ := exists_encoding_of_canonical body hk (by simp at hlen; omega)
      (fun c hc => hbody c (by simp [hc])) hrest
    refine ⟨UInt8.ofNat (p0 * 4 + p1 / 16) :: UInt8.ofNat (p1 % 16 * 16 + p2 / 4) ::
      UInt8.ofNat (p2 % 4 * 64 + p3) :: s, ?_⟩
    rw [encoding, hb0, hb1, hb2, hs, show (p0 * 4 + p1 / 16) / 4 = p0 by omega,
      show (p0 * 4 + p1 / 16) % 4 * 16 + (p1 % 16 * 16 + p2 / 4) / 16 = p1 by omega,
      show (p1 % 16 * 16 + p2 / 4) % 16 * 4 + (p2 % 4 * 64 + p3) / 64 = p2 by omega,
      show (p2 % 4 * 64 + p3) % 64 = p3 by omega]
    rfl

/-- A text is canonical exactly if it is the text of what it decodes to. -/
theorem canonical_iff {url : Bool} {t : Bytes} :
    Canonical url t ↔ ∃ s, base64Decode t = some s ∧ encoding url s = t := by
  constructor
  · rintro ⟨body, k, rfl, hk, hlen, hbody, hlast⟩
    rw [List.length_append, List.length_replicate] at hlen
    obtain ⟨s, hs⟩ := exists_encoding_of_canonical body hk hlen hbody hlast
    exact ⟨s, hs ▸ base64Decode_encoding url s, hs⟩
  · rintro ⟨s, -, rfl⟩
    exact canonical_encoding url s

/-- **The encoder writes canonical texts and only these**: in each alphabet, a text is what some
    input of the encoder is turned into exactly if it is canonical and too short to stand for
    2^32 bytes, and such a text decodes to the one input that encodes to it. -/
theorem base64Encode_image (url : Bool) (t : Bytes) :
    ((∃ fuel s, base64Encode fuel s url = some t) ↔ Canonical url t ∧ t.length < 5726623064) ∧
    ∀ s, (∃ fuel, base64Encode fuel s url = some t) ↔
      Canonical url t ∧ t.length < 5726623064 ∧ decode t false = some s := by
  have hlong := fun s : Bytes => length_encoding url s
  have hone : ∀ s, (∃ fuel, base64Encode fuel s url = some t) ↔
      Canonical url t ∧ t.length < 5726623064 ∧ decode t false = some s := by
    intro s
    simp only [base64Encode_eq]
    constructor
    · rintro ⟨fuel, hs⟩
      split at hs
      · rename_i hfit
        cases hs
        refine ⟨canonical_encoding url s, ?_, decode_encoding url false s⟩
        rw [hlong]
        omega
      · cases hs
    · rintro ⟨hcanonical, hlen, hdecode⟩
      obtain ⟨s', -, rfl⟩ := canonical_iff.mp hcanonical
      rw [decode_encoding] at hdecode
      cases hdecode
      rw [hlong] at hlen
      exact ⟨s.length + 1, if_pos ⟨by omega, by omega⟩⟩
  refine ⟨?_, hone⟩
  constructor
  · rintro ⟨fuel, s, hs⟩
    have h := (hone s).mp ⟨fuel, hs⟩
    exact ⟨h.1, h.2.1⟩
  · rintro ⟨hcanonical, hlen⟩
    obtain ⟨s, -, rfl⟩ := canonical_iff.mp hcanonical
    obtain ⟨fuel, hs⟩ := (hone s).mpr ⟨hcanonical, hlen, decode_encoding url false s⟩
    exact ⟨fuel, s, hs⟩

/-! ## Texts in lines -/

/-- `insert_linebreaks` past the lines that are done: the next break is due one line further on. -/
theorem linebreakLoop_eq {distance : Nat} (hd : 0 < distance) {fuel : Nat} {done rest : Bytes}
    (hfuel : rest.length < fuel * distance) :
    linebreakLoop distance fuel (done ++ rest) (done.length + distance) =
      some (done ++ rest.breakEvery 10 distance) := by
  induction fuel generalizing done rest with
  | zero => simp at hfuel
  | succ fuel ih =>
    rw [linebreakLoop, List.length_append]
    by_cases hlast : rest.length ≤ distance
    · rw [if_neg (by omega), List.breakEvery_of_le 10 hlast]
    · have htake : (done ++ rest).take (done.length + distance) = done ++ rest.take distance := by
        rw [List.take_append, List.take_of_length_le (by omega)]
        simp
      have hdrop : (done ++ rest).drop (done.length + distance) = rest.drop distance := by
        rw [List.drop_append, List.drop_eq_nil_of_le (by omega)]
        simp
      have hlen : (done ++ rest.take distance ++ [10]).length = done.length + (distance + 1) := by
        simp only [List.length_append, List.length_take, List.length_singleton]
        omega
      have hnext : done.length + distance + (distance + 1) =
          (done ++ rest.take distance ++ [10]).length + distance := by omega
      have hsplit : done ++ rest.take distance ++ 10 :: rest.drop distance =
          (done ++ rest.take distance ++ [10]) ++ rest.drop distance := by simp
      have hfuel' : (rest.drop distance).length < fuel * distance := by
        rw [Nat.succ_mul] at hfuel
        rw [List.length_drop]
        omega
      rw [if_pos (by omega), htake, hdrop, hnext, hsplit, ih hfuel',
        List.breakEvery_of_lt 10 hd (l := rest) (by omega)]
      simp

theorem insertLinebreaks_eq {distance : Nat} (hd : 0 < distance) {fuel : Nat} {str : Bytes}
    (hfuel : str.length < fuel * distance) :
    insertLinebreaks fuel str distance = some (str.breakEvery 10 distance) := by
  unfold insertLinebreaks
  split
  · rename_i hempty
    subst hempty
    rw [List.breakEvery_of_le 10 (by simp)]
  · have hloop : linebreakLoop distance fuel ([] ++ str) ([].length + distance) = _ :=
      linebreakLoop_eq hd hfuel
    simpa using hloop

/-- The encoded text in its lines, from as many tests on as the encoder needs. -/
theorem encodeWithLineBreaks_eq {lineLength fuel : Nat} (hline : 4 ≤ lineLength) (s : Bytes) :
    encodeWithLineBreaks lineLength fuel s =
      if s.length < 4294967296 ∧ (s.length + 2) / 3 < fuel then
        some ((encoding false s).breakEvery 10 lineLength)
      else none := by
  rw [encodeWithLineBreaks, base64Encode_eq]
  split
  · rename_i hfit
    have hfuel : (encoding false s).length < fuel * lineLength := by
      have := Nat.mul_le_mul (Nat.succ_le_of_lt hfit.2) hline
      rw [length_encoding]
      omega
    simpa using insertLinebreaks_eq (by omega) hfuel
  · rfl

/-- A line break is no character of a group. -/
theorem base64Decode_linebreak (rest : Bytes) : base64Decode (10 :: rest) = none := by
  have hbreak : posOfChar 10 = none := by decide
  have hgroup : ∀ c1 c2 c3, decodeGroup 10 c1 c2 c3 = none := by
    intro c1 c2 c3
    rw [decodeGroup, hbreak]
    cases posOfChar c1 <;> rfl
  match rest with
  | [] => rfl
  | [_] => exact hgroup _ _ _
  | [_, _] => exact hgroup _ _ _
  | _ :: _ :: _ :: _ =>
    rw [base64Decode, hgroup]
    rfl

/-- The text `t` of `s` in lines of `lineLength` characters. -/
structure InLines (lineLength : Nat) (s t : Bytes) : Prop where
  /-- Put together, the lines are the text of `s`. -/
  text : (t.splitOn 10).flatten = encoding false s
  /-- Every line but the last is full. -/
  full : ∀ line ∈ (t.splitOn 10).dropLast, line.length = lineLength
  /-- The last is no longer, and not empty unless `s` is. -/
  last : s ≠ [] → ∀ line ∈ t.splitOn 10, 0 < line.length ∧ line.length ≤ lineLength
  /-- Without its line breaks it decodes to `s`. -/
  removed : decode t true = some s
  /-- With them it does if it is a single line; else the decoder throws. -/
  kept : decode t false = if s.length ≤ lineLength / 4 * 3 then some s else none

theorem inLines_breakEvery {lineLength : Nat} (hpos : 0 < lineLength) (hfour : lineLength % 4 = 0)
    (s : Bytes) : InLines lineLength s ((encoding false s).breakEvery 10 lineLength) := by
  have hclean := linebreak_not_mem_encoding false s
  have hlen := length_encoding false s
  have hlines := List.splitOn_breakEvery (n := lineLength) hclean
  have hremoved : decode ((encoding false s).breakEvery 10 lineLength) true = some s := by
    unfold decode
    split
    · rename_i hempty
      have htext := List.filter_breakEvery (n := lineLength) hclean
      rw [hempty, List.filter_nil] at htext
      rw [← base64Decode_encoding false s, ← htext]
      rfl
    · rw [if_pos rfl, List.filter_breakEvery hclean, base64Decode_encoding]
  refine ⟨?_, ?_, ?_, hremoved, ?_⟩
  · rw [hlines, List.flatten_linesOf]
  · rw [hlines]
    intro line hline
    exact List.length_of_mem_dropLast_linesOf hline
  · intro hs
    rw [hlines]
    intro line hline
    have hne : encoding false s ≠ [] := by
      have := List.length_pos_iff.mpr hs
      apply List.length_pos_iff.mp
      omega
    exact List.length_of_mem_linesOf hpos hne hline
  · split
    · rw [List.breakEvery_of_le 10 (by omega), decode_encoding]
    · -- the first line is whole groups, so the next group starts with its line break
      rw [List.breakEvery_of_lt 10 hpos (by omega), decode, if_neg (by simp), if_neg (by simp),
        base64Decode_append _ (by rw [List.length_take_of_le (by omega)]; exact hfour),
        base64Decode_linebreak]
      cases base64Decode ((encoding false s).take lineLength) <;> rfl

/-- **The PEM and MIME forms**: both end exactly on the inputs below 2^32 bytes, with the text of
    the input in lines of 64 and of 76 characters, which only a decoder that removes line breaks
    reads back as soon as there is more than one line. -/
theorem base64_pem_mime (s : Bytes) :
    (∀ fuel, ((base64EncodePem fuel s).isSome = true ↔
        s.length < 4294967296 ∧ (s.length + 2) / 3 < fuel) ∧
      ((base64EncodeMime fuel s).isSome = true ↔
        s.length < 4294967296 ∧ (s.length + 2) / 3 < fuel)) ∧
    ∀ fuel t, (base64EncodePem fuel s = some t → InLines 64 s t) ∧
      (base64EncodeMime fuel s = some t → InLines 76 s t) := by
  constructor
  · intro fuel
    rw [base64EncodePem, base64EncodeMime, encodeWithLineBreaks_eq (by omega),
      encodeWithLineBreaks_eq (by omega)]
    split <;> simp [*]
  · intro fuel t
    rw [base64EncodePem, base64EncodeMime, encodeWithLineBreaks_eq (by omega),
      encodeWithLineBreaks_eq (by omega)]
    split
    · constructor
      · intro ht
        cases ht
        exact inLines_breakEvery (by omega) (by omega) s
      · intro ht
        cases ht
        exact inLines_breakEvery (by omega) (by omega) s
    · constructor
      · intro ht
        cases ht
      · intro ht
        cases ht

end Base64
