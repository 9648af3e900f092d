import AsyncLogStorage.ForStd.Html
import AsyncLogStorage.Spec.ListText

/-!
# The markup of the list

`generateModernFileList` writes the names of the files and their urls into the page as they are:
the names as text, the urls into a string of the script of a button. A name that starts a tag, or
ends the string or the attribute that the string stands in, changes the markup.

## Key results

- `reads_fileItem`: the tags and attributes of an item with a harmless name
- `namesConfined_iff`: the names stay where they are written exactly where all are harmless
- `sameMarkup_iff`: two lists that are alike but for their names
-/

namespace Storage

open Html

/-! ## The tags of an item -/

/-- The attribute that has the url. -/
def onclick : Bytes := Bytes.ofString "onclick"

/-- What stands before the url in its value. -/
def locationStart : Bytes := Bytes.ofString "window.location='"

theorem lt_notMem_of_isPlain {t : Bytes} (h : ∀ b ∈ t, isPlain b = true) : 60 ∉ t := by
  intro hmem
  have hlt : isPlain 60 = true := h 60 hmem
  exact absurd hlt (by decide)

/-- Plain texts have no markup. -/
theorem reads_of_isPlain {t : Bytes} (h : ∀ b ∈ t, isPlain b = true) : Reads .data t .data [] :=
  reads_of_lt_notMem (lt_notMem_of_isPlain h)

/-- The tags between the name and the url. -/
def middleFound : List Boundary :=
  boundaries .data (Bytes.ofString
    "</span><span class='file-type'></span><span></span><span></span></div><button onclick=\"")

/-- An item without its texts. -/
def itemFound : List Boundary :=
  boundaries .data itemStart ++ (middleFound ++
    boundaries (.value .double onclick locationStart) itemEnd)

theorem reads_itemStart : Reads .data itemStart .data (boundaries .data itemStart) := by
  decide +kernel

theorem reads_itemMiddle (zone : TimeZone) (file : StorageInfo) :
    Reads .data (itemMiddle zone file) (.value .double onclick locationStart) middleFound := by
  have hclass : Reads .data (listedClass file) .data [] :=
    reads_of_isPlain fun _ hb => isPlain_of_mem_listedClass hb
  have hsize : Reads .data (formatSize file.fsize_) .data [] :=
    reads_of_isPlain fun _ hb => isPlain_of_mem_formatSize hb
  have htime : Reads .data (timetoStr zone file.mtime_) .data [] :=
    reads_of_isPlain fun _ hb => isPlain_of_mem_timetoStr hb
  have htype : Reads .data (Bytes.ofString "</span><span class='file-type'>") .data
      (boundaries .data (Bytes.ofString "</span><span class='file-type'>")) := by decide +kernel
  have hspan : Reads .data (Bytes.ofString "</span><span>") .data
      (boundaries .data (Bytes.ofString "</span><span>")) := by decide +kernel
  have hbutton : Reads .data
      (Bytes.ofString "</span></div><button onclick=\"window.location='")
      (.value .double onclick locationStart)
      (boundaries .data (Bytes.ofString "</span></div><button onclick=\"")) := by decide +kernel
  have hfound : middleFound =
      boundaries .data (Bytes.ofString "</span><span class='file-type'>") ++ ([] ++
        (boundaries .data (Bytes.ofString "</span><span>") ++ ([] ++
        (boundaries .data (Bytes.ofString "</span><span>") ++ ([] ++
        boundaries .data (Bytes.ofString "</span></div><button onclick=\"")))))) := by
    decide +kernel
  rw [hfound]
  exact htype.append (hclass.append (hspan.append (hsize.append (hspan.append
    (htime.append hbutton)))))

theorem reads_itemEnd (value : Bytes) :
    Reads (.value .double onclick value) itemEnd .data
      (boundaries (.value .double onclick locationStart) itemEnd) := by
  have hend : itemEnd = 39 :: 34 :: Bytes.ofString ">⬇️ 下载</button></div>" := by decide
  have hrest : Reads .afterValue (Bytes.ofString ">⬇️ 下载</button></div>") .data
      (boundaries .afterValue (Bytes.ofString ">⬇️ 下载</button></div>")) := by decide +kernel
  rw [hend]
  exact Reads.cons rfl (Reads.cons rfl hrest)

/-- Between a name that opens no tag and a url without the quote stand the tags of an item. -/
theorem reads_fileItem {zone : TimeZone} {file : StorageInfo} (hname : OpensNoTag (listedName file))
    (hurl : 34 ∉ file.url_) : Reads .data (fileItem zone file) .data itemFound := by
  have hvalue : Reads (.value .double onclick locationStart) file.url_
      (.value .double onclick (locationStart ++ file.url_)) [] := reads_of_quote_notMem hurl
  have hrest := (reads_itemMiddle zone file).append (hvalue.append (reads_itemEnd _))
  rw [fileItem_eq]
  exact reads_itemStart.append (Reads.text_append hname rfl hrest)

/-- The tags and attributes of a list with such names. -/
theorem reads_generateModernFileList (zone : TimeZone) {files : List StorageInfo}
    (h : ∀ file ∈ files, OpensNoTag (listedName file) ∧ 34 ∉ file.url_) :
    Reads .data (generateModernFileList zone files) .data
      (boundaries .data listStart ++ ((List.replicate files.length itemFound).flatten ++
        boundaries .data listEnd)) := by
  have hitems : Reads .data (files.flatMap (fileItem zone)) .data
      (List.replicate files.length itemFound).flatten :=
    Reads.flatMap fun file hfile => reads_fileItem (h file hfile).1 (h file hfile).2
  have hstart : Reads .data listStart .data (boundaries .data listStart) := by decide +kernel
  have hend : Reads .data listEnd .data (boundaries .data listEnd) := by decide +kernel
  rw [generateModernFileList_eq]
  exact hstart.append (hitems.append hend)

/-! ## Names that stay where they are written -/

/-- Behind a text, the name of a file is read as text and its url in the value of `onclick`, in
    which the string that the url stands in ends at the quote of the source. -/
structure NameConfined (refs : CharRefs) (zone : TimeZone) (before : Bytes) (file : StorageInfo) :
    Prop where
  name : Within State.IsText (stateAfter .data (before ++ itemStart)) (listedName file)
  url : Within (State.InValue onclick)
    (stateAfter .data (before ++ (itemStart ++ (listedName file ++ itemMiddle zone file))))
    file.url_
  script : ∃ text, refs.decode (locationStart ++ (file.url_ ++ [39])) = locationStart ++ text ∧
    stringRest .char text = some []

/-- This holds of every file of the list. -/
def NamesConfined (refs : CharRefs) (zone : TimeZone) (files : List StorageInfo) : Prop :=
  ∀ earlier file later, files = earlier ++ file :: later →
    NameConfined refs zone (listStart ++ earlier.flatMap (fileItem zone)) file

/-- The name starts no tag, has no double quote, and may stand in a string of a script. -/
structure Harmless (refs : CharRefs) (name : Bytes) : Prop where
  opensNoTag : OpensNoTag name
  quote : 34 ∉ name
  stringText : StringText (refs.decode name)

/-- The url is made from the name. -/
def UrlOfName (file : StorageInfo) : Prop :=
  file.url_ = Config.shipped.downloadPrefix ++ listedName file

instance (file : StorageInfo) : Decidable (UrlOfName file) := inferInstanceAs (Decidable (_ = _))

theorem quote_mem_url_iff {file : StorageInfo} (h : UrlOfName file) :
    34 ∈ file.url_ ↔ 34 ∈ listedName file := by
  have hprefix : 34 ∉ Config.shipped.downloadPrefix := by decide
  rw [h, List.mem_append, or_iff_right hprefix]

theorem Harmless.opensNoTag_and_quote {refs : CharRefs} {file : StorageInfo}
    (h : Harmless refs (listedName file)) (hurl : UrlOfName file) :
    OpensNoTag (listedName file) ∧ 34 ∉ file.url_ :=
  ⟨h.opensNoTag, fun hmem => h.quote ((quote_mem_url_iff hurl).mp hmem)⟩

/-- The string of the script ends at the quote of the source exactly where the name may stand
    in it. -/
theorem script_iff {refs : CharRefs} {file : StorageInfo} (h : UrlOfName file) :
    (∃ text, refs.decode (locationStart ++ (file.url_ ++ [39])) = locationStart ++ text ∧
        stringRest .char text = some []) ↔
      StringText (refs.decode (listedName file)) := by
  have hstart : 38 ∉ locationStart := by decide
  have hprefix : 38 ∉ Config.shipped.downloadPrefix := by decide
  have hplain : ∀ b ∈ Config.shipped.downloadPrefix, b ≠ 39 ∧ b ≠ 92 ∧ b ≠ 13 ∧ b ≠ 10 := by
    decide +kernel
  have hdecode : refs.decode (file.url_ ++ [39]) =
      (Config.shipped.downloadPrefix ++ refs.decode (listedName file)) ++ [39] := by
    rw [refs.decode_quote, h, refs.decode_append hprefix]
  rw [refs.decode_append hstart, hdecode, ← stringText_append_iff hplain]
  -- the string starts behind the quote of `locationStart`
  constructor
  · rintro ⟨text, heq, hrest⟩
    rw [← List.append_cancel_left heq] at hrest
    exact stringRest_iff.mp hrest
  · intro htext
    exact ⟨_, rfl, stringRest_iff.mpr htext⟩

/-- Where the markup before an item is complete, its name and its url stay where they are
    written exactly if the name is harmless. -/
theorem nameConfined_iff {refs : CharRefs} {zone : TimeZone} {before : Bytes} {file : StorageInfo}
    (hbefore : stateAfter .data before = .data) (hurl : UrlOfName file) :
    NameConfined refs zone before file ↔ Harmless refs (listedName file) := by
  have hname : stateAfter .data (before ++ itemStart) = .data := by
    rw [stateAfter_append, hbefore]
    exact reads_itemStart.1
  -- the value of `onclick` is reached only behind a name that opens no tag
  have hvalue : OpensNoTag (listedName file) →
      stateAfter .data (before ++ (itemStart ++ (listedName file ++ itemMiddle zone file))) =
        .value .double onclick locationStart := by
    intro hopens
    rw [stateAfter_append, hbefore]
    exact (reads_itemStart.append
      (Reads.text_append hopens rfl (reads_itemMiddle zone file))).1
  constructor
  · intro h
    have hopens : OpensNoTag (listedName file) := by
      have := h.name
      rw [hname] at this
      exact within_text_iff.mp this
    have hquote : 34 ∉ file.url_ := by
      have := h.url
      rw [hvalue hopens] at this
      exact within_value_iff.mp this
    exact ⟨hopens, fun hmem => hquote ((quote_mem_url_iff hurl).mpr hmem),
      (script_iff hurl).mp h.script⟩
  · intro h
    constructor
    · rw [hname]
      exact within_text_iff.mpr h.opensNoTag
    · rw [hvalue h.opensNoTag]
      exact within_value_iff.mpr (h.opensNoTag_and_quote hurl).2
    · exact (script_iff hurl).mpr h.stringText

/-- Behind items with harmless names the markup is complete. -/
theorem stateAfter_items {refs : CharRefs} (zone : TimeZone) {files : List StorageInfo}
    (h : ∀ file ∈ files, UrlOfName file ∧ Harmless refs (listedName file)) :
    stateAfter .data (listStart ++ files.flatMap (fileItem zone)) = .data := by
  have hstart : stateAfter .data listStart = .data := by decide +kernel
  have hitems : Reads .data (files.flatMap (fileItem zone)) .data
      (List.replicate files.length itemFound).flatten := by
    apply Reads.flatMap
    intro file hfile
    obtain ⟨hurl, hharmless⟩ := h file hfile
    obtain ⟨hopens, hquote⟩ := hharmless.opensNoTag_and_quote hurl
    exact reads_fileItem hopens hquote
  rw [stateAfter_append, hstart]
  exact hitems.1

/-- Behind harmless names, the next one stays where it is written exactly if it is harmless. -/
theorem nameConfined_behind_iff {refs : CharRefs} {zone : TimeZone}
    {earlier later : List StorageInfo} {file : StorageInfo}
    (hurl : ∀ f ∈ earlier ++ file :: later, UrlOfName f)
    (hearlier : ∀ f ∈ earlier, Harmless refs (listedName f)) :
    NameConfined refs zone (listStart ++ earlier.flatMap (fileItem zone)) file ↔
      Harmless refs (listedName file) := by
  have hfile : file ∈ earlier ++ file :: later :=
    List.mem_append_right earlier List.mem_cons_self
  have hstate := stateAfter_items zone fun f hf =>
    ⟨hurl f (List.mem_append_left (file :: later) hf), hearlier f hf⟩
  exact nameConfined_iff hstate (hurl file hfile)

/-- All names stay where they are written exactly where all are harmless. -/
theorem namesConfined_iff {refs : CharRefs} {zone : TimeZone} {files : List StorageInfo}
    (hurl : ∀ file ∈ files, UrlOfName file) :
    NamesConfined refs zone files ↔ ∀ file ∈ files, Harmless refs (listedName file) := by
  constructor
  · intro h
    -- from the first name on, those before each one are harmless
    suffices hprefix : ∀ earlier later, files = earlier ++ later →
        ∀ file ∈ earlier, Harmless refs (listedName file) from
      hprefix files [] (List.append_nil files).symm
    intro earlier
    induction earlier using List.reverseRecOn with
    | nil =>
      intro later _ file hfile
      cases hfile
    | append_singleton earlier file ih =>
      intro later hsplit
      rw [List.append_assoc, List.singleton_append] at hsplit
      have hearlier := ih (file :: later) hsplit
      have hconfined := h earlier file later hsplit
      rw [hsplit] at hurl
      have hharmless := (nameConfined_behind_iff hurl hearlier).mp hconfined
      intro f hf
      obtain hf | hf := List.mem_append.mp hf
      · exact hearlier f hf
      · rw [List.mem_singleton.mp hf]
        exact hharmless
  · intro h earlier file later hsplit
    rw [hsplit] at hurl h
    have hearlier : ∀ f ∈ earlier, Harmless refs (listedName f) := fun f hf =>
      h f (List.mem_append_left (file :: later) hf)
    apply (nameConfined_behind_iff hurl hearlier).mpr
    exact h file (List.mem_append_right earlier List.mem_cons_self)

/-! ## Two lists -/

/-- The tags and attributes of a list. -/
def markup (zone : TimeZone) (files : List StorageInfo) : List Boundary :=
  boundaries .data (generateModernFileList zone files)

/-- The files are alike but for their names, their urls and the times of the last access. -/
def SameButNames (files files' : List StorageInfo) : Prop :=
  List.Forall₂ (fun file file' =>
    Service.listedStorageType file = Service.listedStorageType file' ∧
      file.fsize_ = file'.fsize_ ∧ file.mtime_ = file'.mtime_) files files'

/-- The names change nothing of the markup: it is that of the other list, and the names and urls
    of both stay where they are written. -/
def SameMarkup (refs : CharRefs) (zone : TimeZone) (files files' : List StorageInfo) : Prop :=
  markup zone files = markup zone files' ∧ NamesConfined refs zone files ∧
    NamesConfined refs zone files'

/-- Two lists that are alike but for their names have the same markup, each name in its place,
    exactly where all names are harmless. -/
theorem sameMarkup_iff (refs : CharRefs) (zone : TimeZone) {files files' : List StorageInfo}
    (hsame : SameButNames files files') (hurl : ∀ file ∈ files, UrlOfName file)
    (hurl' : ∀ file ∈ files', UrlOfName file) :
    SameMarkup refs zone files files' ↔
      (∀ file ∈ files, Harmless refs (listedName file)) ∧
        ∀ file ∈ files', Harmless refs (listedName file) := by
  rw [SameMarkup, namesConfined_iff hurl, namesConfined_iff hurl']
  apply and_iff_right_of_imp
  rintro ⟨hharmless, hharmless'⟩
  have hfound := reads_generateModernFileList zone fun file hfile =>
    (hharmless file hfile).opensNoTag_and_quote (hurl file hfile)
  have hfound' := reads_generateModernFileList zone fun file hfile =>
    (hharmless' file hfile).opensNoTag_and_quote (hurl' file hfile)
  rw [markup, markup, hfound.2, hfound'.2, hsame.length_eq]

/-- An empty file with that name. -/
def listedFile (name : Bytes) : StorageInfo where
  mtime_ := 0
  atime_ := 0
  fsize_ := 0
  storage_path_ := Bytes.ofString "./low_storage/" ++ name
  url_ := Config.shipped.downloadPrefix ++ name

/-- What values without `&` are decoded to. -/
def noRefs : CharRefs where
  decode := id
  decode_nil := rfl
  decode_cons := fun _ _ _ => rfl
  decode_quote := fun _ => rfl

/-- The names `a` and `b` are harmless. -/
theorem sameMarkup_letters :
    SameMarkup noRefs default [listedFile (Bytes.ofString "a")]
      [listedFile (Bytes.ofString "b")] := by
  have hharmless : ∀ b : UInt8, b ≠ 34 → StringText [b] → Harmless noRefs [b] := by
    intro b hb htext
    have hopens : OpensNoTag [b] := fun c _ h => absurd h.length_le (by simp)
    exact ⟨hopens, fun hmem => hb (List.mem_singleton.mp hmem).symm, htext⟩
  have hsame : SameButNames [listedFile (Bytes.ofString "a")] [listedFile (Bytes.ofString "b")] :=
    .cons ⟨by decide, rfl, rfl⟩ .nil
  apply (sameMarkup_iff noRefs default hsame (by decide) (by decide)).mpr
  constructor
  · intro file hfile
    rw [List.mem_singleton.mp hfile]
    exact hharmless 97 (by decide) (.char (by decide) (by decide) (by decide) (by decide) .nil)
  · intro file hfile
    rw [List.mem_singleton.mp hfile]
    exact hharmless 98 (by decide) (.char (by decide) (by decide) (by decide) (by decide) .nil)

set_option maxRecDepth 4096 in
/-- A file called `<b>` adds a tag. -/
theorem markup_of_tag :
    ¬∀ (refs : CharRefs) (zone : TimeZone) (files files' : List StorageInfo),
      SameButNames files files' → (∀ file ∈ files, UrlOfName file) →
        (∀ file ∈ files', UrlOfName file) → SameMarkup refs zone files files' := by
  intro h
  have hsame : SameButNames [listedFile (Bytes.ofString "<b>")]
      [listedFile (Bytes.ofString "a")] := .cons ⟨by decide, rfl, rfl⟩ .nil
  obtain ⟨hmarkup, -⟩ := h noRefs default _ _ hsame (by decide) (by decide)
  exact absurd hmarkup (by decide +kernel)

end Storage
