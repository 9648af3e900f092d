import AsyncLogStorage.Spec.LogOutput

/-!
# What a `LoggerBuilder` makes

The constructors run one after the other, in the directory that those before them left. What
they leave is where `Shares` starts: nothing has been written, and every object has the file
that its constructor opened.

## Key results

- `buildLoggerFlush_made`: the objects and the files after all constructors
- `shares_built`: they share the directory as `Shares` says
-/

namespace Mylog

/-- The name of the file that a constructor opens, as far as `fopen` reads it. -/
def FlushType.openedName : FlushType → Option Bytes
  | .fileFlush filename _ true => some filename.cstr
  | _ => none

/-- The objects of `types` in a directory with the files `old`: no two constructors open the
    same file, and the sizes of the `RollFileFlush` objects are positive. -/
structure Separate (old : List LogFile) (types : List FlushType) : Prop where
  /-- In the directory a name stands for one file. -/
  nodup : (old.map (·.name)).Nodup
  openedNames : (types.filterMap FlushType.openedName).Nodup
  sizes : ∀ filename max_size, .rollFileFlush filename max_size ∈ types → 0 < max_size

/-- A constructor adds an empty file, or none. -/
structure Extends (files files' : List LogFile) : Prop where
  nodup : (files.map (·.name)).Nodup → (files'.map (·.name)).Nodup
  content : ∀ name, contentOf files' name = contentOf files name
  names_kept : ∀ name ∈ files.map (·.name), name ∈ files'.map (·.name)

theorem Extends.refl (files : List LogFile) : Extends files files :=
  ⟨fun h => h, fun _ => rfl, fun _ h => h⟩

theorem Extends.trans {files files' files'' : List LogFile} (h : Extends files files')
    (h' : Extends files' files'') : Extends files files'' where
  nodup hnodup := h'.nodup (h.nodup hnodup)
  content name := (h'.content name).trans (h.content name)
  names_kept name hname := h'.names_kept name (h.names_kept name hname)

/-- `fopen` with `"ab"` leaves the contents, and the file is there. -/
theorem extends_fopen (files : List LogFile) (name : Bytes) (now : LocalTime) (number : Nat) :
    Extends files (fopen files name now number).1 ∧
      name ∈ (fopen files name now number).1.map (·.name) ∧
      (fopen files name now number).2.name = name ∧
      ∀ other, other ≠ name → filesOf [other] (fopen files name now number).1 =
        filesOf [other] files := by
  cases hfind : files.find? (·.name = name) with
  | some file =>
    have hopen : fopen files name now number =
        (files, ⟨name, now, file.created, file.content.length, 0⟩) := by
      simp only [fopen, hfind]
    rw [hopen]
    have hname : file.name = name := by simpa using List.find?_some hfind
    refine ⟨.refl files, ?_, rfl, fun _ _ => rfl⟩
    exact List.mem_map.mpr ⟨file, List.mem_of_find?_eq_some hfind, hname⟩
  | none =>
    have hfresh : ∀ file ∈ files, file.name ≠ name := by
      intro file hfile
      simpa using List.find?_eq_none.mp hfind file hfile
    rw [fopen_of_fresh now number hfresh]
    refine ⟨⟨?_, ?_, ?_⟩, ?_, rfl, ?_⟩
    · intro hnodup
      rw [List.map_append, List.nodup_append]
      refine ⟨hnodup, by simp, ?_⟩
      intro a ha b hb hab
      obtain ⟨file, hfile, rfl⟩ := List.mem_map.mp ha
      rw [List.map_singleton, List.mem_singleton] at hb
      exact hfresh file hfile (hab.trans hb)
    · -- the new file is empty, as if it were absent
      intro other
      unfold contentOf
      rw [List.find?_append]
      cases files.find? (·.name = other) with
      | some file => rfl
      | none =>
        by_cases hother : name = other <;> simp [hother]
    · intro other hother
      rw [List.map_append]
      exact List.mem_append_left _ hother
    · simp
    · intro other hother
      exact filesOf_concat_of_not_mem files (by simpa using Ne.symm hother)

/-- What a constructor has made. -/
inductive Made (files : List LogFile) : FlushType → LogFlush → Prop where
  | stdoutFlush : Made files .stdoutFlush .stdoutFlush
  | unopened {filename : Bytes} {now : LocalTime} {file : FileFlush} (hfs : file.fs_ = none) :
      Made files (.fileFlush filename now false) (.fileFlush file)
  | fileFlush {filename : Bytes} {now : LocalTime} {file : FileFlush} {stream : Stream}
      (hfs : file.fs_ = some stream) (hstream : stream.name = filename.cstr)
      (hmem : filename.cstr ∈ files.map (·.name)) :
      Made files (.fileFlush filename now true) (.fileFlush file)
  | rollFileFlush (filename : Bytes) (max_size : Nat) :
      Made files (.rollFileFlush filename max_size) (.rollFileFlush (.new filename max_size))

theorem Made.mono {files files' : List LogFile} {type : FlushType} {flush : LogFlush}
    (h : Made files type flush)
    (hkept : ∀ name ∈ files.map (·.name), name ∈ files'.map (·.name)) : Made files' type flush := by
  cases h with
  | stdoutFlush => exact .stdoutFlush
  | unopened hfs => exact .unopened hfs
  | fileFlush hfs hstream hmem => exact .fileFlush hfs hstream (hkept _ hmem)
  | rollFileFlush filename max_size => exact .rollFileFlush filename max_size

theorem create_made (files : List LogFile) (type : FlushType) :
    Extends files (type.create files).1 ∧ Made (type.create files).1 type (type.create files).2 ∧
      ∀ name, type.openedName ≠ some name →
        filesOf [name] (type.create files).1 = filesOf [name] files := by
  cases type with
  | stdoutFlush => exact ⟨.refl files, .stdoutFlush, fun _ _ => rfl⟩
  | rollFileFlush filename max_size =>
    exact ⟨.refl files, .rollFileFlush filename max_size, fun _ _ => rfl⟩
  | fileFlush filename now opens =>
    cases opens with
    | false => exact ⟨.refl files, .unopened rfl, fun _ _ => rfl⟩
    | true =>
      obtain ⟨hext, hmem, hstream, hothers⟩ := extends_fopen files filename.cstr now 0
      refine ⟨hext, .fileFlush rfl hstream hmem, fun name hname => ?_⟩
      apply hothers name
      intro hsame
      exact hname (by rw [hsame]; rfl)

/-- The constructors of all objects, one after the other. -/
theorem buildLoggerFlush_made (files : List LogFile) (types : List FlushType) :
    Extends files (buildLoggerFlush files types).1 ∧
      (buildLoggerFlush files types).2.length = types.length ∧
      (∀ (k : Nat) type flush, types[k]? = some type →
        (buildLoggerFlush files types).2[k]? = some flush →
        Made (buildLoggerFlush files types).1 type flush) ∧
      ∀ name, name ∉ types.filterMap FlushType.openedName →
        filesOf [name] (buildLoggerFlush files types).1 = filesOf [name] files := by
  induction types generalizing files with
  | nil => exact ⟨.refl files, rfl, by simp, fun _ _ => rfl⟩
  | cons first types ih =>
    obtain ⟨hext, hmade, hothers⟩ := create_made files first
    obtain ⟨hext', hlength, hmades, hothers'⟩ := ih (first.create files).1
    refine ⟨hext.trans hext', congrArg (· + 1) hlength, ?_, ?_⟩
    · intro k type flush htype hflush
      cases k with
      | zero =>
        cases htype
        cases hflush
        exact hmade.mono hext'.names_kept
      | succ k => exact hmades k type flush htype hflush
    · intro name hname
      rw [List.mem_filterMap] at hname
      refine (hothers' name ?_).trans (hothers name ?_)
      · intro hrest
        obtain ⟨type, htype, hopened⟩ := List.mem_filterMap.mp hrest
        exact hname ⟨type, List.mem_cons_of_mem first htype, hopened⟩
      · intro hfirst
        exact hname ⟨first, List.mem_cons_self, hfirst⟩

/-- The files that the constructors opened. -/
def openedNames (types : List FlushType) (k : Nat) : List Bytes :=
  ((types[k]?).bind FlushType.openedName).toList

theorem mem_openedNames {types : List FlushType} {k : Nat} {name : Bytes} :
    name ∈ openedNames types k ↔ ∃ type, types[k]? = some type ∧ type.openedName = some name := by
  simp [openedNames, Option.bind_eq_some_iff]

/-- Two constructors that open the same file are one. -/
theorem eq_of_openedName {types : List FlushType}
    (hnodup : (types.filterMap FlushType.openedName).Nodup) {j k : Nat} {name : Bytes}
    (hj : name ∈ openedNames types j) (hk : name ∈ openedNames types k) : j = k := by
  obtain ⟨type, htype, hopened⟩ := mem_openedNames.mp hj
  obtain ⟨type', htype', hopened'⟩ := mem_openedNames.mp hk
  obtain ⟨hjlt, hjtype⟩ := List.getElem?_eq_some_iff.mp htype
  obtain ⟨hklt, hktype⟩ := List.getElem?_eq_some_iff.mp htype'
  rw [List.Nodup, List.pairwise_filterMap, List.pairwise_iff_getElem] at hnodup
  rcases Nat.lt_trichotomy j k with hlt | heq | hlt
  · exact absurd rfl (hnodup j k hjlt hklt hlt name (hjtype ▸ hopened) name (hktype ▸ hopened'))
  · exact heq
  · exact absurd rfl (hnodup k j hklt hjlt hlt name (hktype ▸ hopened') name (hjtype ▸ hopened))

/-- The objects that were made have written nothing yet. -/
theorem shares_built {old : List LogFile} {types : List FlushType} (h : Separate old types) :
    Shares old types
      { files := (buildLoggerFlush old types).1, cout := [], calls := [], crashed := false }
      (buildLoggerFlush old types).2 (openedNames types) (fun _ => []) := by
  obtain ⟨hext, hlength, hmade, hothers⟩ := buildLoggerFlush_made old types
  constructor
  case alive => rfl
  case length_eq => exact hlength
  case holds =>
    intro k type flush htype hflush
    have hnames : openedNames types k = type.openedName.toList := by
      rw [openedNames, htype, Option.bind_some]
    rw [hnames]
    cases hmade k type flush htype hflush with
    | stdoutFlush => exact .stdoutFlush rfl
    | unopened hfs => exact .unopened rfl hfs
    | @fileFlush filename now file stream hfs hstream hmem =>
      obtain ⟨cur, hcur, hname, hcontent⟩ := exists_filesOf_singleton (hext.nodup h.nodup) hmem
      refine .fileFlush rfl hfs hstream hcur hname ?_
      rw [hcontent, hext.content]
      simp
    | rollFileFlush filename max_size =>
      exact .rollFileFlush (by simp [FlushType.openedName]) (.inl ⟨rfl, rfl, rfl⟩)
  case names_mem =>
    intro k name hname
    obtain ⟨type, htype, hopened⟩ := mem_openedNames.mp hname
    obtain ⟨hk, -⟩ := List.getElem?_eq_some_iff.mp htype
    obtain ⟨flush, hflush⟩ : ∃ flush, (buildLoggerFlush old types).2[k]? = some flush :=
      ⟨_, List.getElem?_eq_getElem (hlength ▸ hk)⟩
    cases hmade k type flush htype hflush with
    | stdoutFlush | unopened | rollFileFlush => simp [FlushType.openedName] at hopened
    | fileFlush hfs hstream hmem =>
      cases hopened
      exact hmem
  case apart => exact fun j k name hj hk => eq_of_openedName h.openedNames hj hk
  case old_mem => exact hext.names_kept
  case untouched =>
    intro name hname
    apply hothers name
    intro hmem
    obtain ⟨type, htype, hopened⟩ := List.mem_filterMap.mp hmem
    obtain ⟨k, hk⟩ := List.mem_iff_getElem?.mp htype
    exact hname k (mem_openedNames.mpr ⟨type, hk, hopened⟩)

end Mylog
