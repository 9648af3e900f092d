import AsyncLogStorage.Spec.FileSystem
import AsyncLogStorage.Native.DataManager

/-!
# The names that the page sends

A browser sends the last component of a path as the name of a file. Such a name has one
place in each of the two directories of `Storage.conf`, and the searches of the handlers
for `low_storage` and for the low directory depend on the name and on the directory apart.

## Key results

- `resolve_page`: the place of a page name in a directory
- `contains_lowStorage`: where `Upload` finds `low_storage` in a path
- `contains_lowStorageDir`: where `Download` finds the low directory in it
-/

namespace Storage

open Path (Place)

/-- A name of one component that can name a file, as the page sends it. -/
structure PageName (name : Bytes) : Prop where
  slash : 47 ∉ name
  nul : 0 ∉ name
  nonempty : name ≠ []
  dot : name ≠ [46]
  dots : name ≠ [46, 46]

/-- One of the two directories of `Storage.conf`. -/
def PageDir (dir : Bytes) : Prop :=
  dir = Config.shipped.lowStorageDir ∨ dir = Config.shipped.deepStorageDir

variable {name dir : Bytes}

theorem PageName.components (h : PageName name) : Path.components name = [.down name] := by
  have hsplit : name.splitOn 47 = [name] := List.splitOn_eq_singleton h.slash
  have hcomponent : Path.component name = .down name := by
    simp only [Path.component, h.nonempty, h.dot, h.dots, or_self, ↓reduceIte]
  rw [Path.components, hsplit, List.map_singleton, hcomponent]

theorem PageDir.slash (h : PageDir dir) : dir.getLast? = some 47 := by
  obtain rfl | rfl := h
  · decide
  · decide

theorem PageDir.nul (h : PageDir dir) : 0 ∉ dir := by
  obtain rfl | rfl := h
  · decide
  · decide

/-- A page name lies directly below the directory. -/
theorem resolve_page (hdir : PageDir dir) (hname : PageName name) :
    resolve (dir ++ name) = (resolve dir).child name := by
  rw [resolve_append name hdir.slash hdir.nul, Bytes.cstr_eq_self.mpr hname.nul,
    hname.components]
  simp [Place.step, Place.child, Place.descend, Place.here]

/-- The names of the two directories. -/
def dirNames : List Bytes := [Bytes.ofString "low_storage", Bytes.ofString "deep_storage"]

/-- The place of a directory of `Storage.conf`: one component, in the current directory. -/
theorem PageDir.exists_resolve (h : PageDir dir) :
    ∃ d ∈ dirNames, resolve dir = { rooted := false, ups := 0, names := [d] } := by
  obtain rfl | rfl := h
  · exact ⟨Bytes.ofString "low_storage", by decide, by decide⟩
  · exact ⟨Bytes.ofString "deep_storage", by decide, by decide⟩

/-- Different names or directories have different places. -/
theorem resolve_page_inj {name' dir' : Bytes} (hdir : PageDir dir) (hname : PageName name)
    (hdir' : PageDir dir') (hname' : PageName name')
    (h : resolve (dir ++ name) = resolve (dir' ++ name')) : dir = dir' ∧ name = name' := by
  have hdiffer : resolve Config.shipped.lowStorageDir ≠ resolve Config.shipped.deepStorageDir := by
    decide
  rw [resolve_page hdir hname, resolve_page hdir' hname'] at h
  obtain ⟨d, -, hd⟩ := hdir.exists_resolve
  obtain ⟨d', -, hd'⟩ := hdir'.exists_resolve
  -- the places have two components, the directory and the name
  rw [hd, hd'] at h
  simp only [Place.child, Place.descend, Place.mk.injEq, List.cons_append, List.nil_append,
    List.cons.injEq, and_true, true_and] at h
  refine ⟨?_, h.2⟩
  have hplace : resolve dir = resolve dir' := by rw [hd, hd', h.1]
  obtain rfl | rfl := hdir
  · obtain rfl | rfl := hdir'
    · rfl
    · exact absurd hplace hdiffer
  · obtain rfl | rfl := hdir'
    · exact absurd hplace.symm hdiffer
    · rfl

/-- A page name has a place of two components. -/
theorem names_page (hdir : PageDir dir) (hname : PageName name) :
    ∃ d ∈ dirNames, resolve (dir ++ name) = { rooted := false, ups := 0, names := [d, name] } := by
  obtain ⟨d, hmem, hd⟩ := hdir.exists_resolve
  exact ⟨d, hmem, by rw [resolve_page hdir hname, hd]; rfl⟩

/-- The paths lead to different places, and neither is below the other. -/
def Apart (path other : Bytes) : Prop :=
  resolve path ≠ resolve other ∧ isBelow (resolve other) (resolve path) = false ∧
    isBelow (resolve path) (resolve other) = false

/-- No page name lies below another one. -/
theorem not_isBelow_page {name' dir' : Bytes} (hdir : PageDir dir) (hname : PageName name)
    (hdir' : PageDir dir') (hname' : PageName name') :
    isBelow (resolve (dir ++ name)) (resolve (dir' ++ name')) = false := by
  obtain ⟨d, -, hd⟩ := names_page hdir hname
  obtain ⟨d', -, hd'⟩ := names_page hdir' hname'
  rw [hd, hd']
  simp [isBelow]

theorem page_apart {name' dir' : Bytes} (hdir : PageDir dir) (hname : PageName name)
    (hdir' : PageDir dir') (hname' : PageName name') (hne : dir ≠ dir' ∨ name ≠ name') :
    Apart (dir ++ name) (dir' ++ name') := by
  refine ⟨fun heq => ?_, not_isBelow_page hdir' hname' hdir hname,
    not_isBelow_page hdir hname hdir' hname'⟩
  obtain ⟨hd, hn⟩ := resolve_page_inj hdir hname hdir' hname' heq
  obtain hne | hne := hne
  · exact hne hd
  · exact hne hn

/-- The storage file is no page name, and neither above nor below one. -/
theorem storageInfo_apart (hdir : PageDir dir) (hname : PageName name) :
    Apart (dir ++ name) Config.shipped.storageInfo := by
  have hplace : resolve Config.shipped.storageInfo =
      { rooted := false, ups := 0, names := [Bytes.ofString "storage.data"] } := by decide
  have hother : ∀ d ∈ dirNames, Bytes.ofString "storage.data" ≠ d := by decide
  obtain ⟨d, hmem, hd⟩ := names_page hdir hname
  rw [Apart, hd, hplace]
  refine ⟨by simp, by simp [isBelow], ?_⟩
  simp [isBelow, List.isPrefixOf, hother d hmem]

/-- A page name is not on the way to a directory. -/
theorem page_not_mem_withAncestors {dir' : Bytes} (hdir : PageDir dir) (hname : PageName name)
    (hdir' : PageDir dir') : resolve (dir ++ name) ∉ withAncestors (resolve dir') := by
  obtain ⟨d, -, hd⟩ := names_page hdir hname
  obtain ⟨d', -, hd'⟩ := hdir'.exists_resolve
  rw [hd, hd']
  simp [withAncestors]

theorem fileName_page (hdir : PageDir dir) (hname : PageName name) :
    FileUtil.fileName (dir ++ name) = name :=
  fileName_append hdir.slash hname.slash

/-! ## The ends of other paths -/

/-- The name of the file that a path leads to, as a system call reads it. -/
def lastName (path : Bytes) : Bytes := (FileUtil.fileName path).cstr

theorem slash_not_mem_fileName (path : Bytes) : 47 ∉ FileUtil.fileName path := by
  unfold FileUtil.fileName
  cases hlast : (path.splitOn 47).getLast? with
  | none => exact List.not_mem_nil
  | some part => exact List.not_mem_of_mem_splitOn (List.mem_of_getLast? hlast)

theorem lastName_page (hdir : PageDir dir) (hname : PageName name) :
    lastName (dir ++ name) = name := by
  rw [lastName, fileName_page hdir hname, Bytes.cstr_eq_self.mpr hname.nul]

/-- If the end of a path can name a file in one of the two directories, it is a page name
    up to its first NUL. -/
theorem pageName_of_namesFile {path : Bytes} (hdir : PageDir dir)
    (h : namesFile (dir ++ FileUtil.fileName path) = true) : PageName (lastName path) := by
  have hslash : 47 ∉ lastName path := fun hmem =>
    slash_not_mem_fileName path ((List.takeWhile_prefix _).subset hmem)
  rw [namesFile_append _ hdir.slash hdir.nul] at h
  have hcomponents : Path.components (FileUtil.fileName path).cstr =
      [Path.component (lastName path)] := by
    have hsplit : (lastName path).splitOn 47 = [lastName path] := List.splitOn_eq_singleton hslash
    rw [Path.components, ← lastName, hsplit, List.map_singleton]
  rw [namesFile, hcomponents, List.getLast?_singleton, Path.component] at h
  -- `.` and `..` and the empty name are no files
  split at h
  · rename_i hdown
    split at hdown
    · cases hdown
    · rename_i hstay
      obtain ⟨hnonempty, hdot⟩ := not_or.mp hstay
      split at hdown
      · cases hdown
      · rename_i hdots
        exact ⟨hslash, Bytes.not_mem_cstr _, hnonempty, hdot, hdots⟩
  · cases h

/-- Behind a NUL a name does not change where it leads. -/
theorem resolve_append_fileName (hdir : PageDir dir) (path : Bytes) :
    resolve (dir ++ FileUtil.fileName path) = resolve (dir ++ lastName path) := by
  rw [resolve, resolve, Bytes.cstr_append _ hdir.nul, Bytes.cstr_append _ hdir.nul, lastName,
    Bytes.cstr_cstr]

/-! ## What the handlers look for -/

/-- `Upload` finds `low_storage` in the low directory or in the name itself. -/
theorem contains_lowStorage (hdir : PageDir dir) :
    (dir ++ name).contains (Bytes.ofString "low_storage") = true ↔
      dir = Config.shipped.lowStorageDir ∨
        name.contains (Bytes.ofString "low_storage") = true := by
  have hslash : 47 ∉ Bytes.ofString "low_storage" := by decide
  obtain rfl | rfl := hdir
  · -- it is there before the slash already
    have hinit : Config.shipped.lowStorageDir = Bytes.ofString "./low_storage" ++ [47] := by decide
    have hfound : Bytes.ofString "low_storage" <:+: Bytes.ofString "./low_storage" := by decide
    refine iff_of_true (Bytes.contains_iff.mpr ?_) (.inl rfl)
    rw [hinit, List.append_assoc, List.singleton_append, List.infix_append_cons_iff hslash]
    exact .inl hfound
  · -- it is not, and nothing of it reaches over the slash
    have hinit : Config.shipped.deepStorageDir = Bytes.ofString "./deep_storage" ++ [47] := by
      decide
    have hmissing : ¬Bytes.ofString "low_storage" <:+: Bytes.ofString "./deep_storage" := by decide
    have hother : Config.shipped.deepStorageDir ≠ Config.shipped.lowStorageDir := by decide
    rw [Bytes.contains_iff, Bytes.contains_iff, hinit, List.append_assoc, List.singleton_append,
      List.infix_append_cons_iff hslash, ← hinit]
    simp only [hmissing, hother, false_or]

/-- `Download` finds the low directory in the paths below it only. -/
theorem contains_lowStorageDir (hdir : PageDir dir) (hname : PageName name) :
    (dir ++ name).contains Config.shipped.lowStorageDir = true ↔
      dir = Config.shipped.lowStorageDir := by
  rw [Bytes.contains_iff]
  obtain rfl | rfl := hdir
  · exact iff_of_true (List.prefix_append _ name).isInfix rfl
  · have hlast : Config.shipped.lowStorageDir.getLast? = some 47 := by decide
    have hmissing : ¬Config.shipped.lowStorageDir <:+: Config.shipped.deepStorageDir := by decide
    have hother : Config.shipped.deepStorageDir ≠ Config.shipped.lowStorageDir := by decide
    -- the low directory ends in a slash, and the name has none
    refine iff_of_false (fun h => hmissing ?_) hother
    exact List.infix_of_infix_append hlast hname.slash h

end Storage
