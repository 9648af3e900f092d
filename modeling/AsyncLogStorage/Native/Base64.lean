import AsyncLogStorage.ForStd.Bytes

/-!
# Base64 encoding and decoding

`base64_decode` of `base64.cpp`, which throws on a character outside the alphabet
and, through `std::string::at`, on a last group of one character; and `base64_encode`,
whose loop counts with an `unsigned int`, with the two forms that break the text into lines.
-/

namespace Base64

/-- `pos_of_char`, which takes both alphabets and throws on any other character. -/
def posOfChar (chr : UInt8) : Option Nat :=
  if 65 ≤ chr ∧ chr ≤ 90 then some (chr.toNat - 65)
  else if 97 ≤ chr ∧ chr ≤ 122 then some (chr.toNat - 97 + 26)
  else if 48 ≤ chr ∧ chr ≤ 57 then some (chr.toNat - 48 + 52)
  else if chr = 43 ∨ chr = 45 then some 62
  else if chr = 47 ∨ chr = 95 then some 63
  else none

/-- `=` and `.` pad the last group, but they are skipped in every group. -/
def isPad (chr : UInt8) : Bool := chr == 61 || chr == 46

/-- The third byte of a group, from its last two characters. -/
def decodeThird (pos2 : Nat) : Option UInt8 → Option Bytes
  | some chr3 =>
    if isPad chr3 then some []
    else (posOfChar chr3).map fun pos3 => [UInt8.ofNat (((pos2 &&& 3) <<< 6) + pos3)]
  | none => some []

/-- The second and the third byte of a group. -/
def decodeSecond (pos1 : Nat) (chr2 chr3 : Option UInt8) : Option Bytes :=
  match chr2 with
  | some chr2 =>
    if isPad chr2 then some []
    else do
      let pos2 ← posOfChar chr2
      let third ← decodeThird pos2 chr3
      return UInt8.ofNat (((pos1 &&& 15) <<< 4) + ((pos2 &&& 60) >>> 2)) :: third
  | none => some []

/-- One turn of the loop: up to four characters give up to three bytes. -/
def decodeGroup (chr0 chr1 : UInt8) (chr2 chr3 : Option UInt8) : Option Bytes := do
  let pos1 ← posOfChar chr1
  let pos0 ← posOfChar chr0
  let rest ← decodeSecond pos1 chr2 chr3
  return UInt8.ofNat ((pos0 <<< 2) + ((pos1 &&& 48) >>> 4)) :: rest

/-- `base64_decode` without `remove_linebreaks`; `none` is an exception. -/
def base64Decode : Bytes → Option Bytes
  | [] => some []
  | [_] => none
  | [chr0, chr1] => decodeGroup chr0 chr1 none none
  | [chr0, chr1, chr2] => decodeGroup chr0 chr1 (some chr2) none
  | chr0 :: chr1 :: chr2 :: chr3 :: rest => do
    let group ← decodeGroup chr0 chr1 (some chr2) (some chr3)
    let tail ← base64Decode rest
    return group ++ tail

example : base64Decode (Bytes.ofString "aGk=") = some (Bytes.ofString "hi") := by decide

/-- `base64_decode`: with `remove_linebreaks` the text is decoded without its line breaks. -/
def decode (encoded : Bytes) (removeLinebreaks : Bool) : Option Bytes :=
  if encoded = [] then some []
  else if removeLinebreaks then base64Decode (encoded.filter (· ≠ 10))
  else base64Decode encoded

/-! ## Encoding -/

/-- `base64_chars`, which the parameter `url` indexes. -/
def base64Chars (url : Bool) : Bytes :=
  if url then Bytes.ofString "ABCDEFGHIJKLMNOPQRSTUVWXYZabcdefghijklmnopqrstuvwxyz0123456789-_"
  else Bytes.ofString "ABCDEFGHIJKLMNOPQRSTUVWXYZabcdefghijklmnopqrstuvwxyz0123456789+/"

/-- `base64_chars_[i]`, where the literal ends with a NUL. -/
def charAt (url : Bool) (i : Nat) : UInt8 := (base64Chars url).getD i 0

/-- `trailing_char`. -/
def trailingChar (url : Bool) : UInt8 := if url then 46 else 61

/-- `bytes_to_encode[i]`. -/
def byteAt (bytes : Bytes) (i : UInt32) : Nat := (bytes.getD i.toNat 0).toNat

/-- What one turn of the loop of `base64_encode` pushes. The sums with `pos` are those of
    `unsigned int`; they are compared as `size_t`. -/
def encodeTurn (url : Bool) (bytes : Bytes) (pos : UInt32) : Bytes :=
  charAt url ((byteAt bytes pos &&& 252) >>> 2) ::
    if (pos + 1).toNat < bytes.length then
      charAt url (((byteAt bytes pos &&& 3) <<< 4) + ((byteAt bytes (pos + 1) &&& 240) >>> 4)) ::
        if (pos + 2).toNat < bytes.length then
          [charAt url (((byteAt bytes (pos + 1) &&& 15) <<< 2) +
              ((byteAt bytes (pos + 2) &&& 192) >>> 6)),
            charAt url (byteAt bytes (pos + 2) &&& 63)]
        else [charAt url ((byteAt bytes (pos + 1) &&& 15) <<< 2), trailingChar url]
    else [charAt url ((byteAt bytes pos &&& 3) <<< 4), trailingChar url, trailingChar url]

/-- The loop of `base64_encode`, with `none` where it has not ended after `fuel` tests. -/
def encodeLoop (url : Bool) (bytes : Bytes) : Nat → UInt32 → Bytes → Option Bytes
  | 0, _, _ => none
  | fuel + 1, pos, ret =>
    if pos.toNat < bytes.length then
      encodeLoop url bytes fuel (pos + 3) (ret ++ encodeTurn url bytes pos)
    else some ret

/-- `base64_encode`. -/
def base64Encode (fuel : Nat) (bytes : Bytes) (url : Bool) : Option Bytes :=
  encodeLoop url bytes fuel 0 []

/-- The loop of `insert_linebreaks`, with `none` where it has not ended after `fuel` tests. -/
def linebreakLoop (distance : Nat) : Nat → Bytes → Nat → Option Bytes
  | 0, _, _ => none
  | fuel + 1, str, pos =>
    if pos < str.length then
      linebreakLoop distance fuel (str.take pos ++ 10 :: str.drop pos) (pos + (distance + 1))
    else some str

/-- `insert_linebreaks`. -/
def insertLinebreaks (fuel : Nat) (str : Bytes) (distance : Nat) : Option Bytes :=
  if str = [] then some [] else linebreakLoop distance fuel str distance

/-- `encode_with_line_breaks`. -/
def encodeWithLineBreaks (lineLength fuel : Nat) (s : Bytes) : Option Bytes := do
  let encoded ← base64Encode fuel s false
  insertLinebreaks fuel encoded lineLength

/-- `base64_encode_pem`. -/
def base64EncodePem : Nat → Bytes → Option Bytes := encodeWithLineBreaks 64

/-- `base64_encode_mime`. -/
def base64EncodeMime : Nat → Bytes → Option Bytes := encodeWithLineBreaks 76

example : base64Encode 3 (Bytes.ofString "hi") false = some (Bytes.ofString "aGk=") := by decide

end Base64
