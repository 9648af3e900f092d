import AsyncLogStorage.Spec.FileSystem

/-!
# The slices `GetPosLen` reads

`GetPosLen` compares `pos + len`, a sum of `size_t`, with the size of the file. The
comparison is right as long as the sum does not wrap. A sum that wraps to something
the file is long enough for gets past it, and the string is resized for bytes that
are not there.

## Key results

- `getPosLen_past`: what `GetPosLen` does past the end of a file
- `readsSlice_iff`: it reads the slice or fails, except for a sum that wraps and a string
  that cannot be as long
-/

namespace Storage

open FileUtil

/-- The path names nothing, or a file of less than `2 ^ 63` bytes on which every call succeeds. -/
structure ReadableFile (fs : FileSystem) (path : Bytes) (statOk : Bool)
    (io : ReadOutcome) : Prop where
  plain : fs.find path ≠ some .directory
  size : ∀ f, fileAt fs path = some f → f.content.length < 9223372036854775808
  stat : ∀ f, fileAt fs path = some f → statOk = true
  opens : ∀ f, fileAt fs path = some f → io.opens = true
  delivered : ∀ f, fileAt fs path = some f → f.content.length ≤ io.delivered

/-- The slice is there and was read, or it is not and `*content` keeps its size. Nothing was
    thrown. -/
def ReadsSlice (file? : Option File) (content : Bytes) (pos len : Nat) :
    Option (Bool × Bytes) → Prop
  | none => False
  | some (true, read) =>
    ∃ f, file? = some f ∧ pos + len ≤ f.content.length ∧ read = (f.content.drop pos).take len
  | some (false, left) =>
    (∀ f, file? = some f → f.content.length < pos + len) ∧ left.length = content.length

/-- The whole file was read, or there is none. Nothing was thrown. -/
def ReadsWhole (file? : Option File) : Option (Bool × Bytes) → Prop
  | none => False
  | some (true, read) => ∃ f, file? = some f ∧ read = f.content
  | some (false, _) => file? = none

/-- A slice within the file fits into a string, and one whose end wraps to a place within the
    file is as long as `*content` is already. -/
structure RangeHonest (file? : Option File) (content : Bytes) (pos len : Nat) : Prop where
  fits : ∀ f, file? = some f → pos + len ≤ f.content.length → len ≤ stringMaxSize
  wraps : ∀ f, file? = some f → SizeT.modulus ≤ pos + len →
    pos + len - SizeT.modulus ≤ f.content.length → len = content.length ∧ len ≤ stringMaxSize

section
variable {fs : FileSystem} {path : Bytes} {f : File} {io : ReadOutcome} (content : Bytes)
  {pos len : Nat}

/-- Nothing is read where there is nothing, whatever the size `-1` is taken for. -/
theorem getPosLen_of_absent (statOk : Bool) (h : fs.find path = none) :
    getPosLen fs path content pos len statOk io = some (false, content) := by
  simp only [getPosLen, h, ite_self]

/-- A slice past the end of the file is refused, unless its end wraps into the file. -/
theorem getPosLen_past (h : fs.find path = some (.file f))
    (hsize : f.content.length < 9223372036854775808) (hopens : io.opens = true)
    (hread : f.content.length ≤ io.delivered) (hpos : pos < SizeT.modulus)
    (hlen : len < SizeT.modulus) (hout : f.content.length < pos + len) :
    getPosLen fs path content pos len true io =
      if SizeT.modulus ≤ pos + len ∧ pos + len - SizeT.modulus ≤ f.content.length then
        if stringMaxSize < len then none
        else some (false, (content.resize len 0).overwrite 0 ((f.content.drop pos).take len))
      else some (false, content) := by
  rw [getPosLen_of_file content h hsize hopens hread]
  by_cases hwrap : SizeT.modulus ≤ pos + len
  · -- the bytes that are there do not fill the string
    have hshort : ((f.content.drop pos).take len).length < len := by
      rw [List.length_take, List.length_drop]
      omega
    rw [SizeT.add_eq_of_wrap hpos hlen hwrap, beq_false_of_ne (Nat.ne_of_lt hshort)]
    by_cases hin : pos + len - SizeT.modulus ≤ f.content.length
    · rw [if_neg (Nat.not_lt_of_le hin), if_pos (And.intro hwrap hin)]
    · rw [if_pos (Nat.lt_of_not_le hin), if_neg fun hboth => hin hboth.2]
  · rw [SizeT.add_eq (Nat.lt_of_not_le hwrap), if_pos hout, if_neg fun hboth => hwrap hboth.1]

end

theorem ReadableFile.cases {fs : FileSystem} {path : Bytes} {statOk : Bool} {io : ReadOutcome}
    (h : ReadableFile fs path statOk io) :
    (fs.find path = none ∧ fileAt fs path = none) ∨
      ∃ f, fs.find path = some (.file f) ∧ fileAt fs path = some f := by
  cases hfind : fs.find path with
  | none => exact .inl ⟨rfl, by simp only [fileAt, hfind]⟩
  | some node =>
    cases node with
    | directory => exact absurd hfind h.plain
    | file f => exact .inr ⟨f, rfl, by simp only [fileAt, hfind]⟩

section
variable {fs : FileSystem} {path : Bytes} {statOk : Bool} {io : ReadOutcome} {content : Bytes}
  {pos len : Nat}

/-- Within the file the string alone matters. -/
theorem rangeHonest_within_iff {f : File} (hsize : f.content.length < 9223372036854775808)
    (hin : pos + len ≤ f.content.length) :
    RangeHonest (some f) content pos len ↔ len ≤ stringMaxSize := by
  have hmod : SizeT.modulus = 18446744073709551616 := rfl
  constructor
  · intro h
    exact h.fits f rfl hin
  · intro hfits
    exact { fits := fun _ _ _ => hfits, wraps := fun _ _ hwrap _ => by omega }

/-- Past the end only a sum that wraps into the file matters. -/
theorem rangeHonest_past_iff {f : File} (hout : f.content.length < pos + len) :
    RangeHonest (some f) content pos len ↔
      (SizeT.modulus ≤ pos + len ∧ pos + len - SizeT.modulus ≤ f.content.length →
        len = content.length ∧ len ≤ stringMaxSize) := by
  constructor
  · intro h hwrap
    exact h.wraps f rfl hwrap.1 hwrap.2
  · intro h
    constructor
    · intro g hg hin
      cases hg
      omega
    · intro g hg hge hle
      cases hg
      exact h ⟨hge, hle⟩

/-- The slice, for a file that exists. -/
theorem readsSlice_file_iff {f : File} (h : fs.find path = some (.file f))
    (hsize : f.content.length < 9223372036854775808) (hopens : io.opens = true)
    (hread : f.content.length ≤ io.delivered) (hpos : pos < SizeT.modulus)
    (hlen : len < SizeT.modulus) :
    ReadsSlice (some f) content pos len (getPosLen fs path content pos len true io) ↔
      RangeHonest (some f) content pos len := by
  by_cases hin : pos + len ≤ f.content.length
  · rw [getPosLen_within content h hsize hopens hread hin, rangeHonest_within_iff hsize hin]
    split
    · rename_i hlong
      exact iff_of_false id (Nat.not_le_of_lt hlong)
    · rename_i hfits
      exact iff_of_true ⟨f, rfl, hin, rfl⟩ (Nat.le_of_not_lt hfits)
  · have hout : f.content.length < pos + len := Nat.lt_of_not_le hin
    have hpast : ∀ g, some f = some g → g.content.length < pos + len := by
      intro g hg
      cases hg
      exact hout
    rw [getPosLen_past content h hsize hopens hread hpos hlen hout, rangeHonest_past_iff hout]
    split
    · rename_i hwrap
      split
      · rename_i hlong
        exact iff_of_false id fun hfits => Nat.not_le_of_lt hlong (hfits hwrap).2
      · rename_i hfits
        -- the string has its size again only if it already had it
        show (_ ∧ _) ↔ _
        rw [List.length_overwrite, List.length_resize]
        constructor
        · intro hsame _
          exact ⟨hsame.2, Nat.le_of_not_lt hfits⟩
        · intro hsame
          exact ⟨hpast, (hsame hwrap).1⟩
    · rename_i hwrap
      exact iff_of_true ⟨hpast, rfl⟩ fun hboth => absurd hboth hwrap

/-- `GetPosLen` reads exactly the slice it is asked for, or fails and leaves the size of
    `*content` alone, unless the slice ends beyond `2 ^ 64` at a place that wraps into the
    file; and `GetContent` reads the whole file. A string cannot be longer than `max_size`. -/
theorem readsSlice_iff (h : ReadableFile fs path statOk io) (hpos : pos < SizeT.modulus)
    (hlen : len < SizeT.modulus) :
    (ReadsSlice (fileAt fs path) content pos len (getPosLen fs path content pos len statOk io) ↔
      RangeHonest (fileAt fs path) content pos len) ∧
    (ReadsWhole (fileAt fs path) (getContent fs path content statOk io) ↔
      ∀ f, fileAt fs path = some f → f.content.length ≤ stringMaxSize) := by
  obtain ⟨hfind, hfile⟩ | ⟨f, hfind, hfile⟩ := h.cases
  · have hnone : ∀ f, fileAt fs path = some f → False := fun f hf =>
      Option.some_ne_none f (hf.symm.trans hfile)
    constructor
    · have hhonest : RangeHonest (fileAt fs path) content pos len :=
        { fits := fun f hf => (hnone f hf).elim, wraps := fun f hf => (hnone f hf).elim }
      rw [getPosLen_of_absent content statOk hfind]
      simp only [hhonest, iff_true]
      exact ⟨fun f hf => (hnone f hf).elim, rfl⟩
    · rw [getContent, getPosLen_of_absent content statOk hfind]
      exact iff_of_true hfile fun f hf => (hnone f hf).elim
  · have hsize := h.size f hfile
    have hopens := h.opens f hfile
    have hread := h.delivered f hfile
    rw [h.stat f hfile, hfile]
    constructor
    · exact readsSlice_file_iff hfind hsize hopens hread hpos hlen
    · rw [getContent_of_file content hfind hsize hopens hread]
      split
      · rename_i hlong
        exact iff_of_false id fun hall => Nat.not_le_of_lt hlong (hall f rfl)
      · rename_i hfits
        have hall : ∀ g, some f = some g → g.content.length ≤ stringMaxSize := by
          intro g hg
          cases hg
          exact Nat.le_of_not_lt hfits
        exact iff_of_true ⟨f, rfl, rfl⟩ hall

end

/-- A file of three bytes. -/
def shortFiles : FileSystem :=
  (∅ : FileSystem).insert (resolve (Bytes.ofString "abc.txt"))
    (.file { content := [97, 98, 99], mtime := 0, atime := 0 })

theorem readable_shortFiles :
    ReadableFile shortFiles (Bytes.ofString "abc.txt") true { opens := true, delivered := 3 } := by
  have hfile : fileAt shortFiles (Bytes.ofString "abc.txt") =
      some { content := [97, 98, 99], mtime := 0, atime := 0 } := by decide +kernel
  refine { plain := by decide +kernel, size := ?_, stat := fun _ _ => rfl, opens := fun _ _ => rfl,
           delivered := ?_ }
  · intro f hf
    cases hfile.symm.trans hf
    show 3 < _
    omega
  · intro f hf
    cases hfile.symm.trans hf
    exact Nat.le_refl 3

/-- The last two bytes are read as they are. -/
theorem readsSlice_iff_shortFiles :
    (ReadsSlice (fileAt shortFiles (Bytes.ofString "abc.txt")) [] 1 2
        (getPosLen shortFiles (Bytes.ofString "abc.txt") [] 1 2 true
          { opens := true, delivered := 3 }) ↔
      RangeHonest (fileAt shortFiles (Bytes.ofString "abc.txt")) [] 1 2) ∧
    (ReadsWhole (fileAt shortFiles (Bytes.ofString "abc.txt"))
        (getContent shortFiles (Bytes.ofString "abc.txt") [] true
          { opens := true, delivered := 3 }) ↔
      ∀ f, fileAt shortFiles (Bytes.ofString "abc.txt") = some f →
        f.content.length ≤ stringMaxSize) :=
  readsSlice_iff readable_shortFiles (by decide) (by decide)

/-- Eight bytes from five before `2 ^ 64` on: the end wraps to 3, the string is resized and
    nothing can be read into it. All but one of `2 ^ 64` bytes from the second on: the end
    wraps to 0, and the string cannot be resized. -/
theorem getPosLen_wraps :
    ReadableFile shortFiles (Bytes.ofString "abc.txt") true { opens := true, delivered := 3 } ∧
    ¬ ReadsSlice (fileAt shortFiles (Bytes.ofString "abc.txt")) [] 18446744073709551611 8
      (getPosLen shortFiles (Bytes.ofString "abc.txt") [] 18446744073709551611 8 true
        { opens := true, delivered := 3 }) ∧
    ¬ ReadsSlice (fileAt shortFiles (Bytes.ofString "abc.txt")) [] 1 18446744073709551615
      (getPosLen shortFiles (Bytes.ofString "abc.txt") [] 1 18446744073709551615 true
        { opens := true, delivered := 3 }) := by
  have hresized : getPosLen shortFiles (Bytes.ofString "abc.txt") [] 18446744073709551611 8 true
      { opens := true, delivered := 3 } = some (false, List.replicate 8 0) := by decide +kernel
  have hthrows : getPosLen shortFiles (Bytes.ofString "abc.txt") [] 1 18446744073709551615 true
      { opens := true, delivered := 3 } = none := by decide +kernel
  rw [hresized, hthrows]
  refine ⟨readable_shortFiles, ?_, id⟩
  intro hslice
  exact absurd hslice.2 (by decide)

end Storage
