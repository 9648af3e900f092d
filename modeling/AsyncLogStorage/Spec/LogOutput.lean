import AsyncLogStorage.Native.LogPipeline
import AsyncLogStorage.Spec.LogFileName

/-!
# What the elements of `flushes_` write

Several objects write to one directory. Each of them has the files whose names it chose, and
these are as if it were alone: `filesOf` restricts the directory to some names, and a `Flush`
commutes with the restriction to the names of its own files and leaves every other one.

## Key results

- `flush_filesOf`: a `RollFileFlush` does on its own files what it does on the directory
- `Shares.flush`: a `Flush` that succeeds appends its chunk to what one object wrote, and
  leaves what the others wrote
-/

namespace Mylog

/-! ## The files of some names -/

def filesOf (names : List Bytes) (files : List LogFile) : List LogFile :=
  files.filter (·.name ∈ names)

theorem filesOf_append (names : List Bytes) (files files' : List LogFile) :
    filesOf names (files ++ files') = filesOf names files ++ filesOf names files' :=
  List.filter_append files files'

/-- The restriction looks at names only, which `appendTo` keeps. -/
theorem filesOf_appendTo (names : List Bytes) (name bytes : Bytes) (files : List LogFile) :
    filesOf names (appendTo name bytes files) = appendTo name bytes (filesOf names files) := by
  have hname : ∀ file : LogFile, (if file.name = name then
      { file with content := file.content ++ bytes } else file).name = file.name := by
    intro file
    split <;> rfl
  unfold filesOf appendTo
  rw [List.filter_map]
  congr 1
  apply List.filter_congr
  intro file _
  simp only [Function.comp_apply, hname]

/-- Writing to a file of another name. -/
theorem filesOf_appendTo_of_not_mem {names : List Bytes} {name : Bytes} (bytes : Bytes)
    (files : List LogFile) (h : name ∉ names) :
    filesOf names (appendTo name bytes files) = filesOf names files := by
  rw [filesOf_appendTo]
  apply appendTo_eq_self
  intro file hfile hname
  have hmem := (List.mem_filter.mp hfile).2
  rw [hname] at hmem
  exact h (of_decide_eq_true hmem)

/-- One more file, of a name of its own. -/
theorem filesOf_concat_of_not_mem {names : List Bytes} {file : LogFile} (files : List LogFile)
    (h : file.name ∉ names) : filesOf names (files ++ [file]) = filesOf names files := by
  rw [filesOf_append]
  simp [filesOf, h]

/-- No file has the new name but the new file. -/
theorem filesOf_concat {names : List Bytes} (file : LogFile) {files : List LogFile}
    (h : ∀ other ∈ files, other.name ≠ file.name) :
    filesOf (names ++ [file.name]) (files ++ [file]) = filesOf names files ++ [file] := by
  have hsame : filesOf (names ++ [file.name]) files = filesOf names files := by
    apply List.filter_congr
    intro other hother
    simp [h other hother]
  rw [filesOf_append, hsame]
  simp [filesOf]

theorem mem_filesOf {names : List Bytes} {files : List LogFile} {file : LogFile} :
    file ∈ filesOf names files ↔ file ∈ files ∧ file.name ∈ names := by
  simp [filesOf]

/-- In a directory a name stands for one file. -/
theorem exists_filesOf_singleton {files : List LogFile} (hnodup : (files.map (·.name)).Nodup)
    {name : Bytes} (h : name ∈ files.map (·.name)) :
    ∃ file, filesOf [name] files = [file] ∧ file.name = name ∧
      file.content = contentOf files name := by
  induction files with
  | nil => simp at h
  | cons first files ih =>
    rw [List.map_cons, List.nodup_cons] at hnodup
    by_cases hfirst : first.name = name
    · -- the first file, and no other one
      refine ⟨first, ?_, hfirst, ?_⟩
      · have hrest : filesOf [name] files = [] := by
          rw [filesOf, List.filter_eq_nil_iff]
          intro file hfile hname
          have hsame : file.name = first.name := by
            rw [hfirst]
            exact List.eq_of_mem_singleton (of_decide_eq_true hname)
          exact hnodup.1 (List.mem_map.mpr ⟨file, hfile, hsame⟩)
        show List.filter _ (first :: files) = [first]
        rw [List.filter_cons_of_pos (by simp [hfirst])]
        exact congrArg (first :: ·) hrest
      · simp [contentOf, hfirst]
    · have hmem : name ∈ files.map (·.name) := by
        simpa [Ne.symm hfirst] using h
      obtain ⟨file, hfile, hname, hcontent⟩ := ih hnodup.2 hmem
      refine ⟨file, ?_, hname, ?_⟩
      · show List.filter _ (first :: files) = [file]
        rw [List.filter_cons_of_neg (by simp [hfirst])]
        exact hfile
      · simpa [contentOf, hfirst] using hcontent

/-! ## A `RollFileFlush` among others -/

namespace RollFileFlush

variable {s : State} {chunk : Chunk} {io : FlushIo} {names : List Bytes}

/-- The names of the files after a call: it may open one more. -/
def namesAfter (names : List Bytes) (s : State) (io : FlushIo) : List Bytes :=
  if s.roll.needsFile then names ++ [s.roll.nextName io.now] else names

theorem subset_namesAfter (names : List Bytes) (s : State) (io : FlushIo) :
    names ⊆ namesAfter names s io := by
  unfold namesAfter
  split
  · exact List.subset_append_left _ _
  · exact List.Subset.refl names

/-- A name that a call adds is new to the directory. -/
theorem fresh_of_mem_namesAfter (hok : Succeeds s (.flush chunk io)) {name : Bytes}
    (h : name ∈ namesAfter names s io) : name ∈ names ∨ name ∉ s.files.map (·.name) := by
  unfold namesAfter at h
  split at h
  · rename_i hneeds
    obtain h | h := List.mem_append.mp h
    · exact .inl h
    · right
      intro hthere
      obtain ⟨file, hfile, hsame⟩ := List.mem_map.mp hthere
      rw [List.mem_singleton] at h
      exact (hok.1 hneeds).2 file hfile (hsame.trans h)
  · exact .inl h

theorem namesAfter_subset {names' : List Bytes} (h : names ⊆ names') (s : State) (io : FlushIo) :
    namesAfter names s io ⊆ namesAfter names' s io := by
  unfold namesAfter
  split
  · intro name hname
    rw [List.mem_append] at hname ⊢
    exact hname.imp_left fun hname => h hname
  · exact h

/-- The files of some names, and the object. -/
def State.restrict (s : State) (names : List Bytes) : State :=
  { s with files := filesOf names s.files }

/-- `InitLogFile` on the files of some names. -/
theorem initLogFile_restrict (hopen : s.roll.needsFile →
      io.opens = true ∧ ∀ file ∈ s.files, file.name ≠ s.roll.nextName io.now) :
    initLogFile (s.restrict names) io = (initLogFile s io).restrict (namesAfter names s io) := by
  by_cases hneeds : s.roll.needsFile
  · obtain ⟨hopens, hfresh⟩ := hopen hneeds
    have hfresh' : ∀ file ∈ (s.restrict names).files, file.name ≠ s.roll.nextName io.now := by
      intro file hfile
      exact hfresh file (mem_filesOf.mp hfile).1
    have hconcat : filesOf (names ++ [s.roll.nextName io.now])
          (s.files ++ [⟨s.roll.nextName io.now, io.now, s.roll.cnt_, []⟩]) =
        filesOf names s.files ++ [⟨s.roll.nextName io.now, io.now, s.roll.cnt_, []⟩] :=
      filesOf_concat ⟨s.roll.nextName io.now, io.now, s.roll.cnt_, []⟩ hfresh
    rw [initLogFile_of_fresh hneeds hopens hfresh,
      initLogFile_of_fresh (s := s.restrict names) hneeds hopens hfresh', namesAfter,
      if_pos hneeds]
    simp only [State.restrict, hconcat]
  · have hinit : initLogFile s io = s := if_neg hneeds
    have hinit' : initLogFile (s.restrict names) io = s.restrict names := if_neg hneeds
    rw [hinit, hinit', namesAfter, if_neg hneeds]

/-- Writing, on the files of some names. -/
theorem write_restrict (flush_log : Nat) (s : State) (chunk : Chunk) (ready : Nat)
    (names : List Bytes) :
    write flush_log (s.restrict names) chunk ready =
      (write flush_log s chunk ready).restrict names := by
  obtain ⟨files, roll, calls, crashed⟩ := s
  unfold write State.restrict
  cases hstream : roll.fs_ with
  | none => rfl
  | some stream => simp only [filesOf_appendTo]

/-- A call that succeeds does on the files of its object what it does on the directory. -/
theorem flush_filesOf (flush_log : Nat) (hok : Succeeds s (.flush chunk io)) :
    flush flush_log (s.restrict names) chunk io =
      (flush flush_log s chunk io).restrict (namesAfter names s io) := by
  unfold flush
  rw [initLogFile_restrict hok.1, write_restrict]

/-- It succeeds there, too. -/
theorem Succeeds.restrict (h : Succeeds s (.flush chunk io)) (names : List Bytes) :
    Succeeds (s.restrict names) (.flush chunk io) := by
  constructor
  · intro hneeds
    obtain ⟨hopens, hfresh⟩ := h.1 hneeds
    refine ⟨hopens, fun file hfile => ?_⟩
    exact hfresh file (mem_filesOf.mp hfile).1
  · intro stream hstream
    rw [initLogFile_restrict h.1] at hstream
    exact h.2 stream hstream

/-- A call that succeeds writes to a file of its object, and to no other one. -/
theorem flush_filesOf_of_apart (flush_log : Nat) {theirs : List Bytes}
    (hok : Succeeds s (.flush chunk io))
    (hopen : ∀ stream, s.roll.fs_ = some stream → stream.name ∉ theirs)
    (hapart : ∀ name ∈ theirs, name ∉ namesAfter names s io) :
    filesOf theirs (flush flush_log s chunk io).files = filesOf theirs s.files := by
  have hwrite : ∀ t : State, (∀ stream, t.roll.fs_ = some stream → stream.name ∉ theirs) →
      filesOf theirs (write flush_log t chunk io.ready).files = filesOf theirs t.files := by
    intro t ht
    unfold write
    cases hstream : t.roll.fs_ with
    | none => rfl
    | some stream => exact filesOf_appendTo_of_not_mem _ t.files (ht stream hstream)
  unfold flush
  by_cases hneeds : s.roll.needsFile
  · obtain ⟨hopens, hfresh⟩ := hok.1 hneeds
    -- the new file is none of theirs
    have hnew : s.roll.nextName io.now ∉ theirs := by
      intro hmem
      apply hapart _ hmem
      rw [namesAfter, if_pos hneeds]
      simp
    rw [hwrite, initLogFile_of_fresh hneeds hopens hfresh]
    · exact filesOf_concat_of_not_mem s.files hnew
    · intro stream hstream
      rw [initLogFile_of_fresh hneeds hopens hfresh] at hstream
      cases hstream
      exact hnew
  · have hinit : initLogFile s io = s := if_neg hneeds
    rw [hinit, hwrite s hopen]

/-- The names in the directory after a call that succeeds. -/
theorem map_name_flush (flush_log : Nat) (hok : Succeeds s (.flush chunk io)) :
    (flush flush_log s chunk io).files.map (·.name) = namesAfter (s.files.map (·.name)) s io := by
  have hwrite : ∀ t : State, (write flush_log t chunk io.ready).files.map (·.name) =
      t.files.map (·.name) := by
    intro t
    unfold write
    cases t.roll.fs_ with
    | none => rfl
    | some stream => exact map_name_appendTo stream.name _ t.files
  unfold flush
  rw [hwrite]
  by_cases hneeds : s.roll.needsFile
  · obtain ⟨hopens, hfresh⟩ := hok.1 hneeds
    rw [initLogFile_of_fresh hneeds hopens hfresh, namesAfter, if_pos hneeds, List.map_append]
    rfl
  · have hinit : initLogFile s io = s := if_neg hneeds
    rw [hinit, namesAfter, if_neg hneeds]

/-- `Layout` is about the files, the object, and whether the process is alive. -/
theorem Layout.congr {max : Nat} {old closed : List LogFile} {chunks : List Bytes} {s' : State}
    {cur : LogFile} {groups : List (List Bytes)} {group : List Bytes} {stream : Stream}
    (h : Layout max old chunks s closed cur groups group stream) (hfiles : s'.files = s.files)
    (hroll : s'.roll = s.roll) (halive : s'.crashed = s.crashed) :
    Layout max old chunks s' closed cur groups group stream :=
  { h with
    alive := halive.trans h.alive
    max_eq := by rw [hroll, h.max_eq]
    files_eq := hfiles.trans h.files_eq
    fs_eq := by rw [hroll, h.fs_eq]
    size_eq := by rw [hroll, h.size_eq] }

theorem Between.congr {max : Nat} {old : List LogFile} {chunks : List Bytes} {s' : State}
    (h : Between max old chunks s) (hfiles : s'.files = s.files) (hroll : s'.roll = s.roll)
    (halive : s'.crashed = s.crashed) : Between max old chunks s' := by
  obtain ⟨closed, cur, groups, group, stream, hlayout, hne, hshort⟩ := h
  exact ⟨closed, cur, groups, group, stream, hlayout.congr hfiles hroll halive, hne, hshort⟩

/-- The first call of an object that has no files yet. -/
theorem Between.first (flush_log : Nat) {filename : Bytes} {max : Nat} (hmax : 0 < max)
    (hfiles : s.files = []) (hroll : s.roll = new filename max) (halive : s.crashed = false)
    (hok : Succeeds s (.flush chunk io)) :
    Between max [] [chunk.data] (RollFileFlush.flush flush_log s chunk io) := by
  have hneeds : s.roll.needsFile := by
    rw [hroll]
    exact .inl rfl
  obtain ⟨hopens, hfresh⟩ := hok.1 hneeds
  obtain ⟨cur, stream, hlayout⟩ := Layout.first filename max [] hopens (by simp)
  have hsame : initLogFile s io =
      { initLogFile (start filename max []) io with calls := s.calls } := by
    obtain ⟨files, roll, calls, crashed⟩ := s
    cases hfiles
    cases hroll
    cases halive
    rfl
  have hlayout' : Layout max [] [] (initLogFile s io) [] cur [] [] stream := by
    rw [hsame]
    exact hlayout.congr rfl rfl rfl
  exact hlayout'.between flush_log (by simpa using hmax) (hok.2 stream hlayout'.fs_eq)

end RollFileFlush

/-! ## One object among others -/

/-- The call takes the whole chunk, and opens a file of a fresh name where it needs one. -/
def LogFlush.Succeeds (out : LogOutput) (chunk : Chunk) (io : FlushIo) : LogFlush → Prop
  | .stdoutFlush => True
  | .fileFlush file => ∀ stream, file.fs_ = some stream →
    stream.fwrite chunk.data.length io.ready = chunk.data.length
  | .rollFileFlush roll => RollFileFlush.Succeeds (out.rollState roll) (.flush chunk io)

/-- What an object has made of the chunks that it was given, where the files called `names` are
    its own. -/
inductive Holds (old files : List LogFile) (names chunks : List Bytes) :
    FlushType → LogFlush → Prop where
  | stdoutFlush (hnames : names = []) : Holds old files names chunks .stdoutFlush .stdoutFlush
  /-- `fopen` has failed in the constructor. -/
  | unopened {filename : Bytes} {now : LocalTime} {file : FileFlush} (hnames : names = [])
      (hfs : file.fs_ = none) :
      Holds old files names chunks (.fileFlush filename now false) (.fileFlush file)
  | fileFlush {filename : Bytes} {now : LocalTime} {file : FileFlush} {stream : Stream}
      {cur : LogFile} (hnames : names = [filename.cstr]) (hfs : file.fs_ = some stream)
      (hstream : stream.name = filename.cstr) (hfiles : filesOf names files = [cur])
      (hcur : cur.name = filename.cstr)
      (hcontent : cur.content = contentOf old filename.cstr ++ chunks.flatten) :
      Holds old files names chunks (.fileFlush filename now true) (.fileFlush file)
  | rollFileFlush {filename : Bytes} {max_size : Nat} {roll : RollFileFlush}
      (hnew : ∀ name ∈ names, name ∉ old.map (·.name))
      (hwritten : chunks = [] ∧ names = [] ∧ roll = .new filename max_size ∨
        RollFileFlush.Between max_size [] chunks ⟨filesOf names files, roll, [], false⟩) :
      Holds old files names chunks (.rollFileFlush filename max_size) (.rollFileFlush roll)

/-- What an object holds depends on its own files. -/
theorem Holds.congr {old files files' : List LogFile} {names chunks : List Bytes}
    {type : FlushType} {flush : LogFlush} (h : Holds old files names chunks type flush)
    (hfiles : filesOf names files' = filesOf names files) :
    Holds old files' names chunks type flush := by
  cases h with
  | stdoutFlush hnames => exact .stdoutFlush hnames
  | unopened hnames hfs => exact .unopened hnames hfs
  | fileFlush hnames hfs hstream hown hcur hcontent =>
    exact .fileFlush hnames hfs hstream (hfiles.trans hown) hcur hcontent
  | rollFileFlush hnew hwritten =>
    rw [← hfiles] at hwritten
    exact .rollFileFlush hnew hwritten

/-- What one call does to what the objects write to. -/
structure Flushed (out out' : LogOutput) (names names' : List Bytes) : Prop where
  alive : out'.crashed = false
  kept : ∀ theirs : List Bytes, (∀ name ∈ theirs, name ∉ names') →
    filesOf theirs out'.files = filesOf theirs out.files
  names_sub : names ⊆ names'
  /-- The names that are new to the object are new to the directory. -/
  fresh : ∀ name ∈ names', name ∈ names ∨ name ∉ out.files.map (·.name)
  names_mem : ∀ name ∈ names', name ∈ out'.files.map (·.name)
  names_kept : ∀ name ∈ out.files.map (·.name), name ∈ out'.files.map (·.name)

section
variable {old : List LogFile} {out : LogOutput} {names chunks : List Bytes} {chunk : Chunk}
  {io : FlushIo}

/-- A call that leaves the files. -/
theorem Flushed.of_files_eq {out' : LogOutput} (halive : out.crashed = false)
    (hmem : ∀ name ∈ names, name ∈ out.files.map (·.name)) (hcrashed : out'.crashed = out.crashed)
    (hfiles : out'.files = out.files) : Flushed out out' names names where
  alive := hcrashed.trans halive
  kept theirs _ := by rw [hfiles]
  names_sub := List.Subset.refl names
  fresh _ hname := .inl hname
  names_mem := by rwa [hfiles]
  names_kept := by simp [hfiles]

/-- A call on an open `FileFlush` appends the chunk to its file. -/
private theorem holds_fileFlush (flush_log : Nat) {filename : Bytes} {now : LocalTime}
    {file : FileFlush} {stream : Stream} {cur : LogFile} (hfs : file.fs_ = some stream)
    (hstream : stream.name = filename.cstr) (hfiles : filesOf [filename.cstr] out.files = [cur])
    (hcur : cur.name = filename.cstr)
    (hcontent : cur.content = contentOf old filename.cstr ++ chunks.flatten)
    (halive : out.crashed = false) (hmem : filename.cstr ∈ out.files.map (·.name))
    (hall : stream.fwrite chunk.data.length io.ready = chunk.data.length) :
    Holds old (file.flush flush_log out chunk io.ready).2.files [filename.cstr]
      (chunks ++ [chunk.data]) (.fileFlush filename now true)
      (.fileFlush (file.flush flush_log out chunk io.ready).1) ∧
    Flushed out (file.flush flush_log out chunk io.ready).2 [filename.cstr] [filename.cstr] := by
  have hout : (file.flush flush_log out chunk io.ready).2.files =
      appendTo filename.cstr chunk.data out.files := by
    simp only [FileFlush.flush, hfs, hall, List.take_length, hstream]
  have hnames : (file.flush flush_log out chunk io.ready).2.files.map (·.name) =
      out.files.map (·.name) := by
    rw [hout, map_name_appendTo]
  constructor
  · have hfs' : (file.flush flush_log out chunk io.ready).1.fs_ =
        some { stream with written := stream.written + chunk.data.length } := by
      simp only [FileFlush.flush, hfs, hall]
    have hfiles' : filesOf [filename.cstr] (file.flush flush_log out chunk io.ready).2.files =
        [{ cur with content := cur.content ++ chunk.data }] := by
      rw [hout, filesOf_appendTo, hfiles, ← hcur, appendTo_singleton]
    have hcontent' : cur.content ++ chunk.data =
        contentOf old filename.cstr ++ (chunks ++ [chunk.data]).flatten := by
      simp [hcontent]
    exact .fileFlush rfl hfs' hstream hfiles' hcur hcontent'
  · constructor
    case alive => simp only [FileFlush.flush, hfs, halive]
    case kept =>
      intro theirs hapart
      rw [hout]
      apply filesOf_appendTo_of_not_mem
      intro hmem
      exact hapart _ hmem (by simp)
    case names_sub => exact List.Subset.refl _
    case fresh => exact fun _ hname => .inl hname
    case names_mem => simpa [hnames] using hmem
    case names_kept => simp [hnames]

/-- A `RollFileFlush` writes to a file of its own. -/
private theorem stream_name_mem {roll : RollFileFlush} {filename : Bytes} {max_size : Nat}
    {stream : Stream}
    (hwritten : chunks = [] ∧ names = [] ∧ roll = .new filename max_size ∨
      RollFileFlush.Between max_size [] chunks ⟨filesOf names out.files, roll, [], false⟩)
    (hstream : roll.fs_ = some stream) : stream.name ∈ names := by
  obtain ⟨-, -, rfl⟩ | ⟨closed, cur, groups, group, stream', hlayout, -, -⟩ := hwritten
  · cases hstream
  · have hsame : stream' = stream := Option.some.inj (hlayout.fs_eq.symm.trans hstream)
    have hcur : cur ∈ filesOf names out.files := by
      rw [show filesOf names out.files = _ from hlayout.files_eq]
      simp
    rw [← hsame, hlayout.name_eq]
    exact (mem_filesOf.mp hcur).2

/-- What a `RollFileFlush` does on its own files appends the chunk to the last one, or to a new
    one. -/
private theorem between_restrict (flush_log : Nat) {s : RollFileFlush.State} {filename : Bytes}
    {max_size : Nat} (hmax : 0 < max_size)
    (hwritten : chunks = [] ∧ names = [] ∧ s.roll = .new filename max_size ∨
      RollFileFlush.Between max_size [] chunks ⟨filesOf names s.files, s.roll, [], false⟩)
    (halive : s.crashed = false) (hok : RollFileFlush.Succeeds s (.flush chunk io)) :
    RollFileFlush.Between max_size [] (chunks ++ [chunk.data])
      ((RollFileFlush.flush flush_log s chunk io).restrict
        (RollFileFlush.namesAfter names s io)) := by
  rw [← RollFileFlush.flush_filesOf flush_log hok]
  obtain ⟨rfl, rfl, hroll⟩ | hbetween := hwritten
  · have hnone : (s.restrict []).files = [] := by
      simp [RollFileFlush.State.restrict, filesOf]
    exact .first flush_log hmax hnone hroll halive (hok.restrict [])
  · have hrestrict : RollFileFlush.Between max_size [] chunks (s.restrict names) :=
      hbetween.congr rfl rfl halive
    exact hrestrict.flush flush_log (hok.restrict names)

private theorem holds_rollFileFlush (flush_log : Nat) {filename : Bytes} {max_size : Nat}
    {roll : RollFileFlush} (hmax : 0 < max_size)
    (hnew : ∀ name ∈ names, name ∉ old.map (·.name))
    (hwritten : chunks = [] ∧ names = [] ∧ roll = .new filename max_size ∨
      RollFileFlush.Between max_size [] chunks ⟨filesOf names out.files, roll, [], false⟩)
    (halive : out.crashed = false) (hmem : ∀ name ∈ names, name ∈ out.files.map (·.name))
    (hold : ∀ name ∈ old.map (·.name), name ∈ out.files.map (·.name))
    (hok : RollFileFlush.Succeeds (out.rollState roll) (.flush chunk io)) :
    ∃ names',
      Holds old (RollFileFlush.flush flush_log (out.rollState roll) chunk io).files names'
        (chunks ++ [chunk.data]) (.rollFileFlush filename max_size)
        (.rollFileFlush (RollFileFlush.flush flush_log (out.rollState roll) chunk io).roll) ∧
      Flushed out ((LogFlush.rollFileFlush roll).flush flush_log out chunk io).2 names names' := by
  have hown := between_restrict flush_log hmax hwritten halive hok
  have hnames := RollFileFlush.map_name_flush flush_log hok
  have halive' : (RollFileFlush.flush flush_log (out.rollState roll) chunk io).crashed = false := by
    obtain ⟨closed, cur, groups, group, stream, hlayout, -, -⟩ := hown
    exact hlayout.alive
  refine ⟨RollFileFlush.namesAfter names (out.rollState roll) io, .rollFileFlush ?_ (.inr ?_), ?_⟩
  · intro name hname hthere
    obtain hname | hname := RollFileFlush.fresh_of_mem_namesAfter hok hname
    · exact hnew name hname hthere
    · exact hname (hold name hthere)
  · exact hown.congr rfl rfl halive'.symm
  · constructor
    case alive => exact halive'
    case kept =>
      intro theirs hapart
      refine RollFileFlush.flush_filesOf_of_apart flush_log hok ?_ hapart
      intro stream hstream hthere
      apply hapart _ hthere
      exact RollFileFlush.subset_namesAfter names _ io (stream_name_mem hwritten hstream)
    case names_sub => exact RollFileFlush.subset_namesAfter names _ io
    case fresh => exact fun name hname => RollFileFlush.fresh_of_mem_namesAfter hok hname
    case names_mem =>
      intro name hname
      show name ∈ (RollFileFlush.flush flush_log (out.rollState roll) chunk io).files.map (·.name)
      rw [hnames]
      exact RollFileFlush.namesAfter_subset hmem _ io hname
    case names_kept =>
      intro name hname
      show name ∈ (RollFileFlush.flush flush_log (out.rollState roll) chunk io).files.map (·.name)
      rw [hnames]
      exact RollFileFlush.subset_namesAfter _ _ io hname

/-- A call that succeeds appends its chunk to what the object wrote. -/
theorem Holds.flush (flush_log : Nat) {type : FlushType} {flush : LogFlush}
    (h : Holds old out.files names chunks type flush)
    (hmax : ∀ filename max_size, type = .rollFileFlush filename max_size → 0 < max_size)
    (halive : out.crashed = false) (hmem : ∀ name ∈ names, name ∈ out.files.map (·.name))
    (hold : ∀ name ∈ old.map (·.name), name ∈ out.files.map (·.name))
    (hok : flush.Succeeds out chunk io) :
    ∃ names', Holds old (flush.flush flush_log out chunk io).2.files names'
        (chunks ++ [chunk.data]) type (flush.flush flush_log out chunk io).1 ∧
      Flushed out (flush.flush flush_log out chunk io).2 names names' := by
  cases h with
  | stdoutFlush hnames =>
    exact ⟨names, .stdoutFlush hnames, .of_files_eq halive hmem rfl rfl⟩
  | @unopened filename now file hnames hfs =>
    have hsame : (LogFlush.fileFlush file).flush flush_log out chunk io =
        (.fileFlush file, out) := by
      simp only [LogFlush.flush, FileFlush.flush, hfs]
    rw [hsame]
    exact ⟨names, .unopened hnames hfs, .of_files_eq halive hmem rfl rfl⟩
  | fileFlush hnames hfs hstream hfiles hcur hcontent =>
    subst hnames
    exact ⟨_, holds_fileFlush flush_log hfs hstream hfiles hcur hcontent halive
      (hmem _ List.mem_cons_self) (hok _ hfs)⟩
  | rollFileFlush hnew hwritten =>
    exact holds_rollFileFlush flush_log (hmax _ _ rfl) hnew hwritten halive hmem hold hok

end

/-! ## All objects together -/

/-- The objects of `types` have written `chunks`, each of them to the files called `names`. -/
structure Shares (old : List LogFile) (types : List FlushType) (out : LogOutput)
    (flushes : List LogFlush) (names chunks : Nat → List Bytes) : Prop where
  alive : out.crashed = false
  length_eq : flushes.length = types.length
  holds : ∀ k type flush, types[k]? = some type → flushes[k]? = some flush →
    Holds old out.files (names k) (chunks k) type flush
  names_mem : ∀ k, ∀ name ∈ names k, name ∈ out.files.map (·.name)
  apart : ∀ j k name, name ∈ names j → name ∈ names k → j = k
  old_mem : ∀ name ∈ old.map (·.name), name ∈ out.files.map (·.name)
  untouched : ∀ name, (∀ k, name ∉ names k) → filesOf [name] out.files = filesOf [name] old

/-- What matters of the chunks are those of the objects that there are. -/
theorem Shares.congr {old : List LogFile} {types : List FlushType} {out : LogOutput}
    {flushes : List LogFlush} {names chunks chunks' : Nat → List Bytes}
    (h : Shares old types out flushes names chunks)
    (hchunks : ∀ k < flushes.length, chunks' k = chunks k) :
    Shares old types out flushes names chunks' := by
  refine { h with holds := fun k type flush htype hflush => ?_ }
  obtain ⟨hk, -⟩ := List.getElem?_eq_some_iff.mp hflush
  rw [hchunks k hk]
  exact h.holds k type flush htype hflush

/-- A call that succeeds appends its chunk to what one object wrote, and leaves the others'. -/
theorem Shares.flush (flush_log : Nat) {old : List LogFile} {types : List FlushType}
    {out : LogOutput} {flushes : List LogFlush} {names chunks : Nat → List Bytes} {k : Nat}
    {flush : LogFlush} {chunk : Chunk} {io : FlushIo}
    (h : Shares old types out flushes names chunks)
    (hsizes : ∀ filename max_size, .rollFileFlush filename max_size ∈ types → 0 < max_size)
    (hflush : flushes[k]? = some flush) (hok : flush.Succeeds out chunk io) :
    ∃ names', Shares old types (flush.flush flush_log out chunk io).2
      (flushes.set k (flush.flush flush_log out chunk io).1) names'
      (Function.update chunks k (chunks k ++ [chunk.data])) := by
  obtain ⟨hk, -⟩ := List.getElem?_eq_some_iff.mp hflush
  obtain ⟨type, htype⟩ : ∃ type, types[k]? = some type :=
    ⟨_, List.getElem?_eq_getElem (h.length_eq ▸ hk)⟩
  have hmax : ∀ filename max_size, type = .rollFileFlush filename max_size → 0 < max_size := by
    rintro filename max_size rfl
    exact hsizes filename max_size (List.mem_of_getElem? htype)
  obtain ⟨own, hholds, hflushed⟩ := (h.holds k type flush htype hflush).flush flush_log hmax
    h.alive (h.names_mem k) h.old_mem hok
  -- the names of the others are none of its own
  have hothers : ∀ j, j ≠ k → ∀ name ∈ names j, name ∉ own := by
    intro j hj name hname hown
    obtain hown | hfresh := hflushed.fresh name hown
    · exact hj (h.apart j k name hname hown)
    · exact hfresh (h.names_mem j name hname)
  refine ⟨Function.update names k own, ?_⟩
  constructor
  case alive => exact hflushed.alive
  case length_eq => rw [List.length_set, h.length_eq]
  case holds =>
    intro j type' flush' htype' hflush'
    by_cases hj : j = k
    · subst hj
      rw [htype] at htype'
      cases htype'
      rw [List.getElem?_set_self hk] at hflush'
      cases hflush'
      rw [Function.update_self, Function.update_self]
      exact hholds
    · rw [List.getElem?_set_ne (Ne.symm hj)] at hflush'
      rw [Function.update_of_ne hj, Function.update_of_ne hj]
      exact (h.holds j type' flush' htype' hflush').congr (hflushed.kept _ (hothers j hj))
  case names_mem =>
    intro j name hname
    by_cases hj : j = k
    · subst hj
      rw [Function.update_self] at hname
      exact hflushed.names_mem name hname
    · rw [Function.update_of_ne hj] at hname
      exact hflushed.names_kept name (h.names_mem j name hname)
  case apart =>
    intro i j name hi hj
    by_cases hik : i = k
    · by_cases hjk : j = k
      · rw [hik, hjk]
      · rw [hik, Function.update_self] at hi
        rw [Function.update_of_ne hjk] at hj
        exact absurd hi (hothers j hjk name hj)
    · rw [Function.update_of_ne hik] at hi
      by_cases hjk : j = k
      · rw [hjk, Function.update_self] at hj
        exact absurd hj (hothers i hik name hi)
      · rw [Function.update_of_ne hjk] at hj
        exact h.apart i j name hi hj
  case old_mem => exact fun name hname => hflushed.names_kept name (h.old_mem name hname)
  case untouched =>
    intro name hname
    have hbefore : ∀ j, name ∉ names j := by
      intro j hj
      apply hname j
      by_cases hjk : j = k
      · subst hjk
        rw [Function.update_self]
        exact hflushed.names_sub hj
      · rwa [Function.update_of_ne hjk]
    rw [hflushed.kept [name] ?_, h.untouched name hbefore]
    intro other hother
    rw [List.mem_singleton] at hother
    have hnot := hname k
    rwa [Function.update_self, ← hother] at hnot

end Mylog
