import AsyncLogStorage.Native.FileUtil

/-!
# Operations on the file system

What `store`, `mkdirs` and `remove` change, and what `find` and `creatable` then say.

## Key results

- `find_store`: a file that could be opened for writing is found with what was written
- `mkdirs_spec`: creating a directory makes it one and touches no file
- `fileAt_store_ne` / `fileAt_remove`: writing or removing one file leaves the others
- `getPosLen_of_file`: what `GetPosLen` does on a file that can be read
-/

namespace Storage

open Path (Place)

/-! ## Paths below a directory -/

section
variable {dir : Bytes} (name : Bytes) (hslash : dir.getLast? = some 47) (hnul : 0 ∉ dir)
include hslash hnul

theorem resolve_append : resolve (dir ++ name) =
    ((resolve dir).climb (Place.here.walk (Path.components name.cstr)).ups).descend
      (Place.here.walk (Path.components name.cstr)).names := by
  rw [resolve, Bytes.cstr_append name hnul, Path.normalise_append _ hslash, Place.walk_eq, resolve,
    Bytes.cstr_eq_self.mpr hnul]

theorem namesFile_append : namesFile (dir ++ name) = namesFile name := by
  simp only [namesFile, Bytes.cstr_append name hnul, Path.getLast?_components_append _ hslash]

end

namespace FileSystem

variable {fs fs' : FileSystem}

/-! ## Directories -/

theorem isBelow_iff {place dir : Place Bytes} :
    isBelow place dir = true ↔ place.rooted = dir.rooted ∧ place.ups = dir.ups ∧
      dir.names <+: place.names ∧ dir.names.length < place.names.length := by
  simp only [isBelow, Bool.and_eq_true, beq_iff_eq, List.isPrefixOf_iff_prefix,
    decide_eq_true_eq, and_assoc]

theorem isBelow_irrefl (place : Place Bytes) : isBelow place place = false := by
  simp [isBelow]

theorem isBelow_trans {a b c : Place Bytes} (hab : isBelow a b = true) (hbc : isBelow b c = true) :
    isBelow a c = true := by
  rw [isBelow_iff] at *
  obtain ⟨hr, hu, hp, hl⟩ := hab
  obtain ⟨hr', hu', hp', hl'⟩ := hbc
  exact ⟨hr.trans hr', hu.trans hu', hp'.trans hp, by omega⟩

theorem isDirectory_iff {place : Place Bytes} :
    fs.isDirectory place = true ↔ place.names = [] ∨ fs.lookup place = some .directory ∨
      ∃ k ∈ fs.keys, isBelow k place = true := by
  simp only [isDirectory, Bool.or_eq_true, List.isEmpty_iff, beq_iff_eq, List.any_eq_true,
    or_assoc]

/-- What is above a directory is one. -/
theorem isDirectory_of_isBelow {place dir : Place Bytes} (h : fs.isDirectory place = true)
    (hbelow : isBelow place dir = true) : fs.isDirectory dir = true := by
  rw [isDirectory_iff] at *
  obtain hnil | hdir | ⟨k, hk, hkb⟩ := h
  · obtain ⟨-, -, -, hlen⟩ := isBelow_iff.mp hbelow
    rw [hnil] at hlen
    exact absurd hlen (Nat.not_lt_zero _)
  · have hmem : place ∈ fs := AList.lookup_isSome.mp (by rw [hdir]; rfl)
    exact .inr (.inr ⟨place, AList.mem_keys.mp hmem, hbelow⟩)
  · exact .inr (.inr ⟨k, hk, isBelow_trans hkb hbelow⟩)

theorem isDirectory_insert_directory (place : Place Bytes) :
    FileSystem.isDirectory (fs.insert place .directory) place = true :=
  isDirectory_iff.mpr (.inr (.inl (AList.lookup_insert fs)))

/-- A new directory leaves the other ones. -/
theorem isDirectory_insert_mono {place dir : Place Bytes} (h : fs.isDirectory place = true) :
    FileSystem.isDirectory (fs.insert dir .directory) place = true := by
  rw [isDirectory_iff] at *
  obtain hnil | hdir | ⟨k, hk, hkb⟩ := h
  · exact .inl hnil
  · right; left
    by_cases heq : place = dir
    · rw [heq, AList.lookup_insert]
    · rw [AList.lookup_insert_ne heq, hdir]
  · right; right
    refine ⟨k, ?_, hkb⟩
    exact AList.mem_keys.mp ((AList.mem_insert fs).mpr (.inr (AList.mem_keys.mpr hk)))

/-- One turn of the loop of `mkdirs`. -/
private def mkdir (fs : FileSystem) (dir : Place Bytes) : FileSystem :=
  if fs.isDirectory dir then fs else fs.insert dir .directory

private theorem isDirectory_mkdir (fs : FileSystem) (dir : Place Bytes) :
    (mkdir fs dir).isDirectory dir = true := by
  unfold mkdir
  split
  · assumption
  · exact isDirectory_insert_directory dir

private theorem isDirectory_foldl_mono {place : Place Bytes} (dirs : List (Place Bytes))
    (h : fs.isDirectory place = true) : (dirs.foldl mkdir fs).isDirectory place = true := by
  induction dirs generalizing fs with
  | nil => exact h
  | cons dir dirs ih =>
    apply ih
    unfold mkdir
    split
    · exact h
    · exact isDirectory_insert_mono h

private theorem isDirectory_foldl {place : Place Bytes} {dirs : List (Place Bytes)}
    (hmem : place ∈ dirs) : (dirs.foldl mkdir fs).isDirectory place = true := by
  induction dirs generalizing fs with
  | nil => exact nomatch hmem
  | cons dir dirs ih =>
    rcases List.mem_cons.mp hmem with rfl | hmem
    · exact isDirectory_foldl_mono dirs (isDirectory_mkdir fs place)
    · exact ih hmem

private theorem lookup_foldl (dirs : List (Place Bytes)) (k : Place Bytes) :
    (dirs.foldl mkdir fs).lookup k = fs.lookup k ∨
      (k ∈ dirs ∧ (dirs.foldl mkdir fs).lookup k = some .directory) := by
  induction dirs generalizing fs with
  | nil => exact .inl rfl
  | cons dir dirs ih =>
    have hrest := @ih (mkdir fs dir)
    obtain hsame | ⟨hmem, hdir⟩ := hrest
    · -- the later turns leave `k`, so look at what the first does to it
      rw [List.foldl_cons, hsame]
      unfold mkdir
      split
      · exact .inl rfl
      · by_cases heq : k = dir
        · right
          subst heq
          exact ⟨List.mem_cons_self, AList.lookup_insert fs⟩
        · left
          exact AList.lookup_insert_ne heq
    · exact .inr ⟨List.mem_cons_of_mem _ hmem, hdir⟩

theorem mem_withAncestors {place k : Place Bytes} :
    k ∈ withAncestors place ↔ k.names ≠ [] ∧ (k = place ∨ isBelow place k = true) := by
  obtain ⟨rooted, ups, names⟩ := place
  simp only [withAncestors, List.mem_map, List.mem_range, isBelow_iff]
  constructor
  · -- the first `n + 1` names, which are all of them or a proper prefix
    rintro ⟨n, hn, rfl⟩
    refine ⟨?_, ?_⟩
    · intro h
      rcases List.take_eq_nil_iff.mp h with h | h
      · omega
      · rw [h] at hn
        exact absurd hn (Nat.not_lt_zero _)
    · by_cases hlast : n + 1 = names.length
      · left
        simp [hlast]
      · right
        refine ⟨rfl, rfl, List.take_prefix _ _, ?_⟩
        simp only [List.length_take]
        omega
  · -- `k` has at least one name, so it is counted by the last one
    rintro ⟨hne, hk⟩
    have hpos : 0 < k.names.length := List.length_pos_iff.mpr hne
    rcases hk with rfl | ⟨hr, hu, hpre, hlen⟩
    · change 0 < names.length at hpos
      have hsub : names.length - 1 + 1 = names.length := by omega
      refine ⟨names.length - 1, by omega, ?_⟩
      simp [hsub]
    · refine ⟨k.names.length - 1, by omega, ?_⟩
      have hsub : k.names.length - 1 + 1 = k.names.length := by omega
      cases k
      simp only at hr hu hpre hsub
      simp only [hsub, hr, hu, Place.mk.injEq, true_and]
      exact (List.prefix_iff_eq_take.mp hpre).symm

/-- The list of its ancestors without the place itself is what is strictly above it. -/
theorem mem_dropLast_withAncestors {place k : Place Bytes} :
    k ∈ (withAncestors place).dropLast ↔ k.names ≠ [] ∧ isBelow place k = true := by
  obtain ⟨rooted, ups, names⟩ := place
  simp only [withAncestors, List.dropLast_eq_take, List.length_map, List.length_range,
    ← List.map_take, List.take_range, List.mem_map, List.mem_range, isBelow_iff]
  constructor
  · rintro ⟨n, hn, rfl⟩
    refine ⟨?_, rfl, rfl, List.take_prefix _ _, ?_⟩
    · intro hnil
      have hlen := congrArg List.length hnil
      rw [List.length_take, List.length_nil] at hlen
      omega
    · rw [List.length_take]
      omega
  · rintro ⟨hne, hr, hu, hpre, hlen⟩
    have hpos : 0 < k.names.length := List.length_pos_iff.mpr hne
    refine ⟨k.names.length - 1, by omega, ?_⟩
    have hsub : k.names.length - 1 + 1 = k.names.length := by omega
    cases k
    simp only at hr hu hpre hsub
    simp only [hsub, hr, hu, Place.mk.injEq, true_and]
    exact (List.prefix_iff_eq_take.mp hpre).symm

/-- No file lies on the way to a directory that was created. -/
theorem lookup_ne_file_of_mkdirs {place k : Place Bytes} {f : File}
    (h : fs.mkdirs place = some fs') (hmem : k ∈ withAncestors place) :
    fs.lookup k ≠ some (.file f) := by
  intro hfile
  obtain ⟨hfree, -⟩ := Option.ite_none_left_eq_some.mp h
  exact hfree (List.any_eq_true.mpr ⟨k, hmem, by rw [hfile]; rfl⟩)

/-- Creating a directory makes it one, and changes nothing but places on the way to it that
    were not there. -/
theorem mkdirs_spec {place : Place Bytes} (h : fs.mkdirs place = some fs') :
    fs'.isDirectory place = true ∧
    (∀ k, fs'.lookup k = fs.lookup k ∨
      (k ∈ withAncestors place ∧ fs'.lookup k = some .directory)) ∧
    (∀ k f, fs'.lookup k = some (.file f) ↔ fs.lookup k = some (.file f)) := by
  obtain ⟨-, hfs⟩ := Option.ite_none_left_eq_some.mp h
  have hfold : fs' = (withAncestors place).foldl mkdir fs := (Option.some.inj hfs).symm
  have hlookup : ∀ k, fs'.lookup k = fs.lookup k ∨
      (k ∈ withAncestors place ∧ fs'.lookup k = some .directory) := by
    intro k
    rw [hfold]
    exact lookup_foldl _ k
  refine ⟨?_, hlookup, ?_⟩
  · by_cases hnil : place.names = []
    · exact isDirectory_iff.mpr (.inl hnil)
    · rw [hfold]
      exact isDirectory_foldl (mem_withAncestors.mpr ⟨hnil, .inl rfl⟩)
  · intro k f
    obtain hsame | ⟨hmem, hdir⟩ := hlookup k
    · rw [hsame]
    · -- a place that became a directory held no file
      rw [hdir]
      exact iff_of_false nofun (lookup_ne_file_of_mkdirs h hmem)

theorem isDirectory_mkdirs_mono {place k : Place Bytes} (h : fs.mkdirs place = some fs')
    (hk : fs.isDirectory k = true) : fs'.isDirectory k = true := by
  obtain ⟨-, hfs⟩ := Option.ite_none_left_eq_some.mp h
  rw [← Option.some.inj hfs]
  exact isDirectory_foldl_mono _ hk

/-- Only places on the way to a new directory become directories. -/
theorem isDirectory_mkdirs {place k : Place Bytes} (h : fs.mkdirs place = some fs')
    (hk : fs.isDirectory k = false) (hway : k ∉ withAncestors place) :
    fs'.isDirectory k = false := by
  obtain ⟨-, hlookup, -⟩ := mkdirs_spec h
  rw [← Bool.not_eq_true, isDirectory_iff] at hk ⊢
  rintro (hnil | hdir | ⟨k', hk', hbelow⟩)
  · exact hk (.inl hnil)
  · obtain hsame | ⟨hmem, -⟩ := hlookup k
    · rw [hsame] at hdir
      exact hk (.inr (.inl hdir))
    · exact hway hmem
  · obtain hsame | ⟨hmem, -⟩ := hlookup k'
    · have hk' : k' ∈ fs.keys := by
        rw [← AList.mem_keys, ← AList.lookup_isSome] at hk' ⊢
        rwa [hsame] at hk'
      exact hk (.inr (.inr ⟨k', hk', hbelow⟩))
    · -- a new place below `k` puts `k` on the way
      apply hway
      have hne : k.names ≠ [] := fun hnil => hk (.inl hnil)
      obtain ⟨-, rfl | hplace⟩ := mem_withAncestors.mp hmem
      · exact mem_withAncestors.mpr ⟨hne, .inr hbelow⟩
      · exact mem_withAncestors.mpr ⟨hne, .inr (isBelow_trans hplace hbelow)⟩

/-! ## Writing a file -/

theorem find_eq_file {path : Bytes} {f : File} :
    fs.find path = some (.file f) ↔ namesFile path = true ∧
      fs.isDirectory (resolve path) = false ∧ fs.lookup (resolve path) = some (.file f) := by
  unfold find
  by_cases hnil : path.cstr = []
  · -- the empty path is not found, and names no file either
    have hname : namesFile path = false := by
      simp only [namesFile, hnil]
      rfl
    simp [hnil, hname]
  · rw [if_neg hnil]
    cases hdir : fs.isDirectory (resolve path) with
    | true => simp
    | false =>
      simp only [Bool.false_eq_true, ↓reduceIte, true_and]
      split
      · rename_i g hg
        rw [hg]
        cases namesFile path <;> simp
      · rename_i hg
        constructor
        · exact nofun
        · rintro ⟨-, hf⟩
          exact absurd hf (hg f)

theorem find_eq_directory {path : Bytes} :
    fs.find path = some .directory ↔ path.cstr ≠ [] ∧ fs.isDirectory (resolve path) = true := by
  unfold find
  by_cases hnil : path.cstr = []
  · simp [hnil]
  · rw [if_neg hnil]
    cases hdir : fs.isDirectory (resolve path) with
    | true => simp [hnil]
    | false =>
      -- a file is found as a file, and nothing else is found
      simp only [Bool.false_eq_true, ↓reduceIte, and_false, iff_false]
      split
      · split <;> exact nofun
      · exact nofun

theorem creatable_iff {path : Bytes} : fs.creatable path = true ↔
    namesFile path = true ∧ fs.isDirectory (resolve path) = false ∧
      fs.anyFile (withAncestors (resolve path)).dropLast = false := by
  simp only [creatable, Bool.and_eq_true, Bool.not_eq_eq_eq_not, Bool.not_true, and_assoc]

/-- The access time of a place after a write at the given time. -/
def atimeAfter (fs : FileSystem) (place : Place Bytes) (time : Int) : Int :=
  match fs.lookup place with
  | some (.file f) => f.atime
  | _ => time

theorem lookup_store (fs : FileSystem) (place : Place Bytes) (content : Bytes) (time : Int) :
    (fs.store place content time).lookup place =
      some (.file { content := content, mtime := time, atime := fs.atimeAfter place time }) :=
  AList.lookup_insert fs

theorem lookup_store_ne {place k : Place Bytes} (content : Bytes) (time : Int) (h : k ≠ place) :
    (fs.store place content time).lookup k = fs.lookup k :=
  AList.lookup_insert_ne h

theorem mem_keys_store {place k : Place Bytes} {content : Bytes} {time : Int} :
    k ∈ (fs.store place content time).keys ↔ k = place ∨ k ∈ fs.keys := by
  rw [← AList.mem_keys, ← AList.mem_keys]
  exact AList.mem_insert fs

/-- A file makes directories of the places above it only. -/
theorem isDirectory_store {place k : Place Bytes} (content : Bytes) (time : Int)
    (h : fs.isDirectory k = false) (hk : isBelow place k = false) :
    (fs.store place content time).isDirectory k = false := by
  rw [← Bool.not_eq_true, isDirectory_iff] at h ⊢
  rintro (hnil | hdir | ⟨k', hk', hbelow⟩)
  · exact h (.inl hnil)
  · -- the place itself is a file now
    by_cases heq : k = place
    · rw [heq, lookup_store] at hdir
      exact nomatch hdir
    · rw [lookup_store_ne content time heq] at hdir
      exact h (.inr (.inl hdir))
  · rcases mem_keys_store.mp hk' with rfl | hk'
    · rw [hk] at hbelow
      exact nomatch hbelow
    · exact h (.inr (.inr ⟨k', hk', hbelow⟩))

/-- What was written to a path that could be opened is found there. -/
theorem find_store {path : Bytes} (content : Bytes) (time : Int)
    (h : fs.creatable path = true) :
    (fs.store (resolve path) content time).find path =
      some (.file { content := content, mtime := time,
                    atime := fs.atimeAfter (resolve path) time }) := by
  obtain ⟨hname, hdir, -⟩ := creatable_iff.mp h
  have hdir' : (fs.store (resolve path) content time).isDirectory (resolve path) = false :=
    isDirectory_store content time hdir (isBelow_irrefl _)
  exact find_eq_file.mpr ⟨hname, hdir', lookup_store fs _ content time⟩

/-- A directory stays one when a file is written elsewhere. -/
theorem isDirectory_store_mono {place k : Place Bytes} (content : Bytes) (time : Int)
    (hne : k ≠ place) (h : fs.isDirectory k = true) :
    (fs.store place content time).isDirectory k = true := by
  rw [isDirectory_iff] at h ⊢
  obtain hnil | hdir | ⟨k', hk', hbelow⟩ := h
  · exact .inl hnil
  · exact .inr (.inl (by rw [lookup_store_ne content time hne, hdir]))
  · exact .inr (.inr ⟨k', mem_keys_store.mpr (.inr hk'), hbelow⟩)

/-! ## Regular files -/

theorem fileAt_eq_some {path : Bytes} {f : File} :
    FileUtil.fileAt fs path = some f ↔ namesFile path = true ∧
      fs.isDirectory (resolve path) = false ∧ fs.lookup (resolve path) = some (.file f) := by
  rw [← find_eq_file]
  unfold FileUtil.fileAt
  split
  · rename_i g hg
    simp [hg]
  · rename_i hg
    constructor
    · exact nofun
    · intro hf
      exact absurd hf (hg f)

/-- Two file systems agree on a path if they have the same files there. -/
theorem fileAt_congr {path : Bytes}
    (h : ∀ f, FileUtil.fileAt fs' path = some f ↔ FileUtil.fileAt fs path = some f) :
    FileUtil.fileAt fs' path = FileUtil.fileAt fs path :=
  Option.ext h

theorem fileAt_store {path : Bytes} (content : Bytes) (time : Int)
    (h : fs.creatable path = true) :
    FileUtil.fileAt (fs.store (resolve path) content time) path =
      some { content := content, mtime := time, atime := fs.atimeAfter (resolve path) time } :=
  fileAt_eq_some.mpr (find_eq_file.mp (find_store content time h))

/-- Another path to the same place leads to the same file, if it can name one. -/
theorem fileAt_of_resolve_eq {path other : Bytes} {f : File} (heq : resolve other = resolve path)
    (h : FileUtil.fileAt fs path = some f) :
    FileUtil.fileAt fs other = if namesFile other then some f else none := by
  obtain ⟨-, hdir, hfile⟩ := fileAt_eq_some.mp h
  split
  · rename_i hname
    exact fileAt_eq_some.mpr ⟨hname, by rw [heq, hdir], by rw [heq, hfile]⟩
  · rename_i hname
    apply Option.eq_none_iff_forall_ne_some.mpr
    intro g hg
    exact hname (fileAt_eq_some.mp hg).1

/-- Writing a file leaves the files at other places. -/
theorem fileAt_store_ne {path other : Bytes} (content : Bytes) (time : Int)
    (h : fs.creatable path = true) (hne : resolve other ≠ resolve path) :
    FileUtil.fileAt (fs.store (resolve path) content time) other = FileUtil.fileAt fs other := by
  apply fileAt_congr
  intro f
  rw [fileAt_eq_some, fileAt_eq_some, lookup_store_ne content time hne]
  refine and_congr_right fun _ => and_congr_left fun hfile => ?_
  -- the place of the other file becomes a directory neither way
  constructor
  · intro hafter
    cases hbefore : fs.isDirectory (resolve other) with
    | false => rfl
    | true =>
      rw [isDirectory_store_mono content time hne hbefore] at hafter
      exact nomatch hafter
  · intro hbefore
    apply isDirectory_store content time hbefore
    cases hbelow : isBelow (resolve path) (resolve other) with
    | false => rfl
    | true =>
      -- no file is above a path that can be created
      obtain ⟨-, -, hfree⟩ := creatable_iff.mp h
      have hnonempty : (resolve other).names ≠ [] := by
        intro hnil
        rw [isDirectory_iff.mpr (.inl hnil)] at hbefore
        exact nomatch hbefore
      have hmem : resolve other ∈ (withAncestors (resolve path)).dropLast :=
        mem_dropLast_withAncestors.mpr ⟨hnonempty, hbelow⟩
      have hany := List.any_eq_false.mp hfree _ hmem
      rw [hfile] at hany
      exact absurd rfl hany

/-- Creating a directory leaves the files. -/
theorem fileAt_mkdirs {place : Place Bytes} {path : Bytes} (h : fs.mkdirs place = some fs') :
    FileUtil.fileAt fs' path = FileUtil.fileAt fs path := by
  apply fileAt_congr
  intro f
  obtain ⟨-, hlookup, hfiles⟩ := mkdirs_spec h
  rw [fileAt_eq_some, fileAt_eq_some, hfiles]
  refine and_congr_right fun _ => and_congr_left fun hfile => ?_
  constructor
  · intro hafter
    cases hbefore : fs.isDirectory (resolve path) with
    | false => rfl
    | true =>
      rw [isDirectory_mkdirs_mono h hbefore] at hafter
      exact nomatch hafter
  · intro hbefore
    -- the file would lie on the way to the new directory
    exact isDirectory_mkdirs h hbefore fun hway => lookup_ne_file_of_mkdirs h hway hfile

/-! ## Paths that can be opened -/

theorem anyFile_congr {places : List (Place Bytes)}
    (h : ∀ k ∈ places, ∀ f, fs'.lookup k = some (.file f) → fs.lookup k = some (.file f))
    (hfree : fs.anyFile places = false) : fs'.anyFile places = false := by
  apply List.any_eq_false.mpr
  intro k hk hfile
  have hbefore := List.any_eq_false.mp hfree k hk
  obtain ⟨node, hnode, hisFile⟩ := (Option.any_eq_true _ _).mp hfile
  cases node with
  | directory => exact nomatch hisFile
  | file f =>
    rw [h k hk f hnode] at hbefore
    exact hbefore rfl

/-- Creating a directory elsewhere leaves a path openable. -/
theorem creatable_mkdirs {place : Place Bytes} {path : Bytes} (h : fs.mkdirs place = some fs')
    (hway : resolve path ∉ withAncestors place) (hpath : fs.creatable path = true) :
    fs'.creatable path = true := by
  obtain ⟨hname, hdir, hfree⟩ := creatable_iff.mp hpath
  obtain ⟨-, -, hfiles⟩ := mkdirs_spec h
  refine creatable_iff.mpr ⟨hname, isDirectory_mkdirs h hdir hway, ?_⟩
  exact anyFile_congr (fun k _ f hfile => (hfiles k f).mp hfile) hfree

/-- Writing a file that is neither below nor above a path leaves it openable. -/
theorem creatable_store {place : Place Bytes} {path : Bytes} (content : Bytes) (time : Int)
    (hbelow : isBelow place (resolve path) = false) (habove : isBelow (resolve path) place = false)
    (hpath : fs.creatable path = true) : (fs.store place content time).creatable path = true := by
  obtain ⟨hname, hdir, hfree⟩ := creatable_iff.mp hpath
  refine creatable_iff.mpr ⟨hname, isDirectory_store content time hdir hbelow, ?_⟩
  apply anyFile_congr _ hfree
  intro k hk f hfile
  by_cases heq : k = place
  · -- the new file is not on the way to the path
    obtain ⟨-, hk⟩ := mem_dropLast_withAncestors.mp hk
    rw [heq, habove] at hk
    exact nomatch hk
  · rwa [lookup_store_ne content time heq] at hfile

/-! ## Removing a path -/

/-- Removing a path either does nothing or erases its own place. -/
theorem remove_eq (fs : FileSystem) (path : Bytes) :
    fs.remove path = fs ∨ fs.remove path = fs.erase (resolve path) := by
  unfold remove
  split
  · exact .inr rfl
  · split
    · exact .inl rfl
    · exact .inr rfl
  · exact .inl rfl

theorem lookup_erase_of_some {place k : Place Bytes} {node : Node}
    (h : (fs.erase place).lookup k = some node) : fs.lookup k = some node := by
  by_cases heq : k = place
  · rw [heq, AList.lookup_erase] at h
    exact nomatch h
  · rwa [AList.lookup_erase_ne heq] at h

/-- Removing a path makes no directory. -/
theorem isDirectory_erase {place k : Place Bytes} (h : fs.isDirectory k = false) :
    FileSystem.isDirectory (fs.erase place) k = false := by
  rw [← Bool.not_eq_true, isDirectory_iff] at h ⊢
  rintro (hnil | hdir | ⟨k', hk', hbelow⟩)
  · exact h (.inl hnil)
  · exact h (.inr (.inl (lookup_erase_of_some hdir)))
  · have hk' : k' ∈ fs.keys := by
      rw [AList.keys_erase] at hk'
      exact List.mem_of_mem_erase hk'
    exact h (.inr (.inr ⟨k', hk', hbelow⟩))

theorem creatable_remove {path : Bytes} (other : Bytes) (h : fs.creatable path = true) :
    (fs.remove other).creatable path = true := by
  obtain heq | heq := remove_eq fs other
  · rwa [heq]
  · obtain ⟨hname, hdir, hfree⟩ := creatable_iff.mp h
    rw [heq]
    refine creatable_iff.mpr ⟨hname, isDirectory_erase hdir, ?_⟩
    exact anyFile_congr (fun k _ f hfile => lookup_erase_of_some hfile) hfree

theorem fileAt_erase_ne {place : Place Bytes} {path : Bytes} {f : File}
    (hne : resolve path ≠ place) (h : FileUtil.fileAt fs path = some f) :
    FileUtil.fileAt (fs.erase place) path = some f := by
  obtain ⟨hname, hdir, hfile⟩ := fileAt_eq_some.mp h
  refine fileAt_eq_some.mpr ⟨hname, isDirectory_erase hdir, ?_⟩
  rw [AList.lookup_erase_ne hne, hfile]

/-- Removing a path leaves the files at other places. If the path can name no file, it
    leaves them all. -/
theorem fileAt_remove {path other : Bytes} {f : File}
    (hne : namesFile other = true → resolve path ≠ resolve other)
    (h : FileUtil.fileAt fs path = some f) : FileUtil.fileAt (fs.remove other) path = some f := by
  unfold remove
  split
  · rename_i g hfind
    exact fileAt_erase_ne (hne (find_eq_file.mp hfind).1) h
  · -- a directory is not at the place of the file
    rename_i hfind
    have hplace : resolve path ≠ resolve other := by
      intro heq
      obtain ⟨-, hdir, -⟩ := fileAt_eq_some.mp h
      rw [heq, (find_eq_directory.mp hfind).2] at hdir
      cases hdir
    split
    · exact h
    · exact fileAt_erase_ne hplace h
  · exact h

/-- Removing what is neither at nor below the place of a path leaves what is at the path. -/
theorem fileAt_remove_of_apart {path other : Bytes} (hne : resolve path ≠ resolve other)
    (hbelow : isBelow (resolve other) (resolve path) = false) :
    FileUtil.fileAt (fs.remove other) path = FileUtil.fileAt fs path := by
  obtain heq | heq := remove_eq fs other
  · rw [heq]
  rw [heq]
  -- what made the place a directory is still there
  have hdir : FileSystem.isDirectory (fs.erase (resolve other)) (resolve path) =
      fs.isDirectory (resolve path) := by
    cases hbefore : fs.isDirectory (resolve path) with
    | false => exact isDirectory_erase hbefore
    | true =>
      rw [isDirectory_iff] at hbefore ⊢
      obtain hnil | hdirectory | ⟨k, hk, hkb⟩ := hbefore
      · exact .inl hnil
      · exact .inr (.inl (by rw [AList.lookup_erase_ne hne, hdirectory]))
      · have hk' : k ≠ resolve other := by
          rintro rfl
          rw [hkb] at hbelow
          cases hbelow
        refine .inr (.inr ⟨k, ?_, hkb⟩)
        rw [AList.keys_erase]
        exact (List.mem_erase_of_ne hk').mpr hk
  apply fileAt_congr
  intro f
  rw [fileAt_eq_some, fileAt_eq_some, hdir, AList.lookup_erase_ne hne]

end FileSystem

/-! ## Steps of `FileUtil` -/

/-- `CreateDirectory` finds something at the path, or creates the directory. -/
theorem createDirectory_cases {fs fs' : FileSystem} {dir : Bytes} {throws : Bool}
    (h : FileUtil.createDirectory fs dir throws = some fs') :
    ((fs.find dir).isSome = true ∧ fs' = fs) ∨ fs.mkdirs (resolve dir) = some fs' := by
  unfold FileUtil.createDirectory at h
  split at h
  · -- `fs::exists` or `fs::create_directories` threw
    exact nomatch h
  · split at h
    · rename_i hfound
      exact .inl ⟨hfound, (Option.some.inj h).symm⟩
    · exact .inr (Option.ite_none_left_eq_some.mp h).2

/-- A directory that no file is in the way of can be made. -/
theorem exists_createDirectory {fs : FileSystem} {dir : Bytes} (hne : dir.cstr ≠ [])
    (hfree : fs.anyFile (withAncestors (resolve dir)) = false) :
    ∃ fs', FileUtil.createDirectory fs dir false = some fs' := by
  simp only [FileUtil.createDirectory, Bool.false_eq_true, ↓reduceIte, hne, FileSystem.mkdirs,
    hfree]
  split
  · exact ⟨_, rfl⟩
  · exact ⟨_, rfl⟩

/-- Afterwards there is something at the path. -/
theorem find_createDirectory {fs fs' : FileSystem} {dir : Bytes} {throws : Bool}
    (h : FileUtil.createDirectory fs dir throws = some fs') : (fs'.find dir).isSome = true := by
  obtain ⟨hfound, rfl⟩ | hmkdirs := createDirectory_cases h
  · exact hfound
  · -- the empty path is never created
    have hne : dir.cstr ≠ [] := by
      intro hnil
      simp [FileUtil.createDirectory, FileSystem.find, hnil] at h
    rw [FileSystem.find_eq_directory.mpr ⟨hne, (FileSystem.mkdirs_spec hmkdirs).1⟩]
    rfl

theorem toSizeT_of_le {n : Nat} (h : n ≤ FileUtil.stringMaxSize) : FileUtil.toSizeT n = n := by
  have hlt := FileUtil.stringMaxSize_lt
  have hmod : SizeT.modulus = 18446744073709551616 := rfl
  simp only [FileUtil.toSizeT, hmod]
  omega

/-! ## Reading a file -/

section
open FileUtil
variable {fs : FileSystem} {path : Bytes} {f : File} {io : ReadOutcome} (content : Bytes)
  {pos len : Nat}

theorem toSizeT_fileSize (h : fs.find path = some (.file f))
    (hsize : f.content.length < 9223372036854775808) :
    toSizeT (fileSize fs path true) = f.content.length := by
  have hmod : SizeT.modulus = 18446744073709551616 := rfl
  simp only [fileSize, h, ↓reduceIte, toSizeT, hmod]
  omega

/-- On a file that can be read, everything depends on how `pos + len` comes out. -/
theorem getPosLen_of_file (h : fs.find path = some (.file f))
    (hsize : f.content.length < 9223372036854775808) (hopens : io.opens = true)
    (hread : f.content.length ≤ io.delivered) :
    getPosLen fs path content pos len true io =
      if f.content.length < SizeT.add pos len then some (false, content)
      else if stringMaxSize < len then none
      else some (((f.content.drop pos).take len).length == len,
        (content.resize len 0).overwrite 0 ((f.content.drop pos).take len)) := by
  have hdelivered : ((f.content.drop pos).take len).length ≤ io.delivered := by
    rw [List.length_take, List.length_drop]
    omega
  simp only [getPosLen, toSizeT_fileSize h hsize, h, hopens, Bool.not_true, Bool.false_eq_true,
    ↓reduceIte, List.take_of_length_le hdelivered]

/-- A slice within the file is read, if a string can hold it. -/
theorem getPosLen_within (h : fs.find path = some (.file f))
    (hsize : f.content.length < 9223372036854775808) (hopens : io.opens = true)
    (hread : f.content.length ≤ io.delivered) (hin : pos + len ≤ f.content.length) :
    getPosLen fs path content pos len true io =
      if stringMaxSize < len then none else some (true, (f.content.drop pos).take len) := by
  have hmod : SizeT.modulus = 18446744073709551616 := rfl
  have hadd : SizeT.add pos len = pos + len := SizeT.add_eq (by omega)
  have hlength : ((f.content.drop pos).take len).length = len := by
    rw [List.length_take, List.length_drop]
    omega
  -- the bytes that are read fill the resized string
  have hfill : ((f.content.drop pos).take len).length = (content.resize len 0).length := by
    rw [hlength, List.length_resize]
  rw [getPosLen_of_file content h hsize hopens hread, hadd, if_neg (Nat.not_lt_of_le hin),
    List.overwrite_zero_of_length_eq hfill, hlength, beq_self_eq_true]

/-- The whole file is read, if a string can hold it. -/
theorem getContent_of_file (h : fs.find path = some (.file f))
    (hsize : f.content.length < 9223372036854775808) (hopens : io.opens = true)
    (hread : f.content.length ≤ io.delivered) :
    getContent fs path content true io =
      if stringMaxSize < f.content.length then none else some (true, f.content) := by
  have hwhole : 0 + f.content.length ≤ f.content.length := Nat.le_of_eq (Nat.zero_add _)
  rw [getContent, toSizeT_fileSize h hsize, getPosLen_within content h hsize hopens hread hwhole,
    List.drop_zero, List.take_length]

/-- A file whose every byte can be read is read whole. -/
theorem getContent_of_fileAt (h : fileAt fs path = some f)
    (hsize : f.content.length ≤ stringMaxSize) (hopens : io.opens = true)
    (hread : f.content.length ≤ io.delivered) :
    getContent fs path content true io = some (true, f.content) := by
  have hfind : fs.find path = some (.file f) :=
    FileSystem.find_eq_file.mpr (FileSystem.fileAt_eq_some.mp h)
  have hlt := stringMaxSize_lt
  rw [getContent_of_file content hfind (by omega) hopens hread, if_neg (Nat.not_lt_of_le hsize)]

end

/-! ## The last component -/

private theorem getLast?_suffix_intercalate {α : Type} (x : α) (ls : List (List α)) :
    ls.getLast?.getD [] <:+ [x].intercalate ls := by
  induction ls with
  | nil => exact List.suffix_refl _
  | cons l ls ih =>
    cases ls with
    | nil => simp
    | cons l' ls =>
      rw [List.getLast?_cons_cons, List.intercalate_cons_cons]
      exact ih.trans (List.suffix_append _ _)

/-- `FileName` gives the end of the path. -/
theorem fileName_suffix (path : Bytes) : FileUtil.fileName path <:+ path := by
  have h := getLast?_suffix_intercalate 47 (path.splitOn 47)
  rwa [List.intercalate_splitOn] at h

theorem fileName_append {dir name : Bytes} (hdir : dir.getLast? = some 47) (hname : 47 ∉ name) :
    FileUtil.fileName (dir ++ name) = name := by
  obtain ⟨init, hinit⟩ := Path.exists_of_getLast?_slash hdir
  have hsplit : name.splitOn 47 = [name] := List.splitOn_eq_singleton hname
  rw [FileUtil.fileName, hinit, List.append_assoc, List.singleton_append,
    List.splitOn_append_cons_self, hsplit, List.getLast?_concat]
  rfl

end Storage
