import AsyncLogStorage.Native.LogFlush

/-!
# Rolling over log files

`RollFileFlush` never splits a chunk, and starts a new file as soon as the old one has
`max_size_` bytes.

The calls that go into one file are a *group*: the chunks of a run are cut into groups, one for
each file. `Layout` says so of a state with an open file, and each half of `Flush` keeps it:
`InitLogFile` adds an empty group, and what follows it adds a chunk to the last group.
-/

namespace Mylog.RollFileFlush

/-- `InitLogFile` adds an empty file where the name is fresh. -/
theorem initLogFile_of_fresh {s : State} {io : FlushIo} (hneeds : s.roll.needsFile)
    (hopens : io.opens = true) (hfresh : ∀ file ∈ s.files, file.name ≠ s.roll.nextName io.now) :
    initLogFile s io =
      { s with
        files := s.files ++ [⟨s.roll.nextName io.now, io.now, s.roll.cnt_, []⟩]
        roll := { s.roll with
          fs_ := some ⟨s.roll.nextName io.now, io.now, io.now, 0, 0⟩
          cur_size_ := 0
          cnt_ := SizeT.add s.roll.cnt_ 1 } } := by
  simp only [initLogFile, if_pos hneeds, fopen_of_fresh io.now _ hfresh, hopens, ↓reduceIte]

/-! ## Groups of chunks -/

/-- The stream that `InitLogFile` leaves open takes the whole chunk. -/
def TakesAll (s : State) (chunk : Chunk) (io : FlushIo) : Prop :=
  ∀ stream, (initLogFile s io).roll.fs_ = some stream →
    stream.fwrite chunk.data.length io.ready = chunk.data.length

/-- The call opens a file of a fresh name where it needs one, and writes the whole chunk. -/
def Succeeds (s : State) : Action → Prop
  | .flush chunk io =>
    (s.roll.needsFile →
      io.opens = true ∧ ∀ file ∈ s.files, file.name ≠ s.roll.nextName io.now) ∧
    TakesAll s chunk io
  | .restart => False

/-- The files hold the chunks, each file one group of them. -/
structure Rolled (max : Nat) (files : List LogFile) (chunks : List Bytes)
    (groups : List (List Bytes)) : Prop where
  contents : files.map (·.content) = groups.map List.flatten
  chunks_eq : groups.flatten = chunks
  nonempty : ∀ group ∈ groups, group ≠ []
  /-- Every file but the last one is full. -/
  full : ∀ group ∈ groups.dropLast, max ≤ group.flatten.length
  /-- No file was full before its last chunk. -/
  short : ∀ group ∈ groups, group.dropLast.flatten.length < max

/-- The file that is open holds `group`, and the closed ones hold `groups`. -/
structure Layout (max : Nat) (old : List LogFile) (chunks : List Bytes) (s : State)
    (closed : List LogFile) (cur : LogFile) (groups : List (List Bytes)) (group : List Bytes)
    (stream : Stream) : Prop where
  alive : s.crashed = false
  max_eq : s.roll.max_size_ = max
  files_eq : s.files = old ++ closed ++ [cur]
  fs_eq : s.roll.fs_ = some stream
  name_eq : stream.name = cur.name
  others : ∀ file ∈ old ++ closed, file.name ≠ cur.name
  size_eq : s.roll.cur_size_ = cur.content.length
  written_eq : stream.written = cur.content.length
  written_le : stream.written ≤ maxFileSize
  closed_eq : closed.map (·.content) = groups.map List.flatten
  cur_eq : cur.content = group.flatten
  chunks_eq : groups.flatten ++ group = chunks
  nonempty : ∀ g ∈ groups, g ≠ []
  full : ∀ g ∈ groups, max ≤ g.flatten.length
  short : ∀ g ∈ groups, g.dropLast.flatten.length < max

/-- The first call opens the first file. -/
theorem Layout.first (basename_ : Bytes) (max : Nat) (old : List LogFile) {io : FlushIo}
    (hopens : io.opens = true)
    (hfresh : ∀ file ∈ old, file.name ≠ (new basename_ max).nextName io.now) :
    ∃ cur stream,
      Layout max old [] (initLogFile (start basename_ max old) io) [] cur [] [] stream := by
  have hneeds : (start basename_ max old).roll.needsFile := .inl rfl
  refine ⟨⟨(new basename_ max).nextName io.now, io.now, 1, []⟩,
    ⟨(new basename_ max).nextName io.now, io.now, io.now, 0, 0⟩, ?_⟩
  rw [initLogFile_of_fresh hneeds hopens hfresh]
  constructor
  case fs_eq => rfl
  case files_eq => rw [List.append_nil]; rfl
  case name_eq => rfl
  case others => simpa only [List.append_nil] using hfresh
  case size_eq => rfl
  case written_eq => rfl
  case cur_eq => rfl
  all_goals simp [start, new]

variable {max : Nat} {old : List LogFile} {chunks : List Bytes} {s : State}
  {closed : List LogFile} {cur : LogFile} {groups : List (List Bytes)}
  {group : List Bytes} {stream : Stream}

/-- A rotation closes the file, which is full, and opens an empty one. -/
theorem Layout.rotate {io : FlushIo}
    (h : Layout max old chunks s closed cur groups group stream) (hne : group ≠ [])
    (hshort : group.dropLast.flatten.length < max) (hneeds : s.roll.needsFile)
    (hopens : io.opens = true)
    (hfresh : ∀ file ∈ s.files, file.name ≠ s.roll.nextName io.now) :
    ∃ cur' stream', Layout max old chunks (initLogFile s io) (closed ++ [cur]) cur'
      (groups ++ [group]) [] stream' := by
  have hfull : max ≤ group.flatten.length := by
    obtain hnone | hle := hneeds
    · rw [h.fs_eq] at hnone
      cases hnone
    · rw [← h.cur_eq, ← h.size_eq, ← h.max_eq]
      exact hle
  have hmem : ∀ g ∈ groups ++ [group], g ∈ groups ∨ g = group := by
    intro g hg
    simpa only [List.mem_append, List.mem_singleton] using hg
  refine ⟨⟨s.roll.nextName io.now, io.now, s.roll.cnt_, []⟩,
    ⟨s.roll.nextName io.now, io.now, io.now, 0, 0⟩, ?_⟩
  rw [initLogFile_of_fresh hneeds hopens hfresh]
  constructor
  case fs_eq => rfl
  case files_eq => rw [h.files_eq, List.append_assoc old]
  case name_eq => rfl
  case others => rwa [h.files_eq, List.append_assoc old] at hfresh
  case size_eq => rfl
  case written_eq => rfl
  case cur_eq => rfl
  case alive => exact h.alive
  case max_eq => exact h.max_eq
  case written_le => exact Nat.zero_le _
  case closed_eq =>
    simp only [List.map_append, h.closed_eq, List.map_cons, h.cur_eq, List.map_nil]
  case chunks_eq =>
    rw [List.append_nil, List.flatten_append, List.flatten_singleton, h.chunks_eq]
  case nonempty =>
    intro g hg
    obtain hg | rfl := hmem g hg
    · exact h.nonempty g hg
    · exact hne
  case full =>
    intro g hg
    obtain hg | rfl := hmem g hg
    · exact h.full g hg
    · exact hfull
  case short =>
    intro g hg
    obtain hg | rfl := hmem g hg
    · exact h.short g hg
    · exact hshort

/-- Writing the whole chunk adds it to the file that is open. -/
theorem Layout.write (flush_log : Nat) {chunk : Chunk} {ready : Nat}
    (h : Layout max old chunks s closed cur groups group stream)
    (hall : stream.fwrite chunk.data.length ready = chunk.data.length) :
    ∃ cur' stream', Layout max old (chunks ++ [chunk.data]) (write flush_log s chunk ready)
      closed cur' groups (group ++ [chunk.data]) stream' := by
  have hfits := Stream.add_fwrite_le stream chunk.data.length ready h.written_le
  have hwritten := h.written_eq
  rw [hall] at hfits
  have hsize : SizeT.add s.roll.cur_size_ chunk.data.length =
      cur.content.length + chunk.data.length := by
    rw [h.size_eq]
    apply SizeT.add_eq
    simp only [maxFileSize] at hfits
    simp only [SizeT.modulus]
    omega
  have hfiles : appendTo stream.name chunk.data s.files =
      old ++ closed ++ [{ cur with content := cur.content ++ chunk.data }] := by
    rw [h.files_eq, h.name_eq, appendTo_append, appendTo_eq_self _ h.others, appendTo_singleton]
  refine ⟨{ cur with content := cur.content ++ chunk.data },
    { stream with written := stream.written + chunk.data.length }, ?_⟩
  simp only [RollFileFlush.write, h.fs_eq, hall, List.take_length, hsize, hfiles]
  constructor
  case fs_eq => rfl
  case files_eq => rfl
  case name_eq => exact h.name_eq
  case others => exact h.others
  case size_eq => rw [List.length_append]
  case written_eq => rw [hwritten, List.length_append]
  case cur_eq => rw [h.cur_eq, List.flatten_append, List.flatten_singleton]
  case alive => exact h.alive
  case max_eq => exact h.max_eq
  case written_le => exact hfits
  case closed_eq => exact h.closed_eq
  case chunks_eq => rw [← List.append_assoc, h.chunks_eq]
  case nonempty => exact h.nonempty
  case full => exact h.full
  case short => exact h.short

/-- What holds between two calls that succeed: the open file was not full before its last
    chunk. -/
def Between (max : Nat) (old : List LogFile) (chunks : List Bytes) (s : State) : Prop :=
  ∃ closed cur groups group stream,
    Layout max old chunks s closed cur groups group stream ∧ group ≠ [] ∧
    group.dropLast.flatten.length < max

/-- A chunk goes into a file that is not full yet. -/
theorem Layout.between (flush_log : Nat) {chunk : Chunk} {ready : Nat}
    (h : Layout max old chunks s closed cur groups group stream)
    (hroom : group.flatten.length < max)
    (hall : stream.fwrite chunk.data.length ready = chunk.data.length) :
    Between max old (chunks ++ [chunk.data]) (RollFileFlush.write flush_log s chunk ready) := by
  obtain ⟨cur', stream', hlayout⟩ := h.write flush_log hall
  refine ⟨closed, cur', groups, group ++ [chunk.data], stream', hlayout, ?_, ?_⟩
  · exact List.append_ne_nil_of_right_ne_nil group (List.cons_ne_nil chunk.data [])
  · rw [List.dropLast_concat]
    exact hroom

/-- A call that succeeds leads from a state between two calls to the next one. -/
theorem Between.flush (flush_log : Nat) {chunk : Chunk} {io : FlushIo}
    (h : Between max old chunks s) (hok : Succeeds s (.flush chunk io)) :
    Between max old (chunks ++ [chunk.data]) (RollFileFlush.flush flush_log s chunk io) := by
  obtain ⟨closed, cur, groups, group, stream, hlayout, hne, hshort⟩ := h
  obtain ⟨hopen, hall⟩ := hok
  by_cases hneeds : s.roll.needsFile
  · obtain ⟨hopens, hfresh⟩ := hopen hneeds
    obtain ⟨cur', stream', hlayout'⟩ := hlayout.rotate hne hshort hneeds hopens hfresh
    have hmax : ([] : List Bytes).flatten.length < max := by
      simp only [List.flatten_nil, List.length_nil]
      omega
    exact hlayout'.between flush_log hmax (hall _ hlayout'.fs_eq)
  · -- the file is not full, so the chunk goes into it
    have hroom : group.flatten.length < max := by
      have hsize := hlayout.size_eq
      have hmax := hlayout.max_eq
      rw [hlayout.cur_eq] at hsize
      simp only [needsFile, not_or] at hneeds
      omega
    have hinit : initLogFile s io = s := if_neg hneeds
    unfold RollFileFlush.flush
    rw [hinit]
    exact hlayout.between flush_log hroom (hall stream (by rw [hinit]; exact hlayout.fs_eq))

/-- A run of calls that succeed. -/
theorem Between.run {flush_log : Nat} {calls : List (Chunk × FlushIo)} {basename_ : Bytes}
    {files : List LogFile} {s' : State} (h : Between max old chunks s)
    (hok : (system basename_ max flush_log files).AllSteps Succeeds s
      (calls.map fun call => .flush call.1 call.2))
    (hrun : (system basename_ max flush_log files).run s
      (calls.map fun call => .flush call.1 call.2) = some s') :
    Between max old (chunks ++ calls.map (·.1.data)) s' := by
  induction calls generalizing s chunks with
  | nil =>
    cases hrun
    rwa [List.map_nil, List.append_nil]
  | cons call calls ih =>
    rw [List.map_cons] at hok hrun
    obtain ⟨s₁, hs₁, hrun⟩ := Transition.run_cons_eq_some _ |>.mp hrun
    have hnext := h.flush flush_log hok.1
    have halive : s.crashed = false := by
      obtain ⟨closed, cur, groups, group, stream, hlayout, -, -⟩ := h
      exact hlayout.alive
    have heq : s₁ = RollFileFlush.flush flush_log s call.1 call.2 := by
      simp only [system, step, halive, Bool.false_eq_true, ↓reduceIte, Option.some.injEq] at hs₁
      exact hs₁.symm
    rw [← heq] at hnext
    have hrest := ih hnext (hok.2 s₁ hs₁) hrun
    rwa [List.append_assoc, List.singleton_append] at hrest

/-- The files that a state between two calls has. -/
theorem Between.rolled (h : Between max old chunks s) :
    ∃ files groups cur stream,
      s.files = old ++ files ∧ Rolled max files chunks groups ∧ files.getLast? = some cur ∧
      s.roll.fs_ = some stream ∧ stream.name = cur.name ∧
      s.roll.cur_size_ = cur.content.length := by
  obtain ⟨closed, cur, groups, group, stream, hlayout, hne, hshort⟩ := h
  have hmem : ∀ g ∈ groups ++ [group], g ∈ groups ∨ g = group := by
    intro g hg
    simpa only [List.mem_append, List.mem_singleton] using hg
  refine ⟨closed ++ [cur], groups ++ [group], cur, stream, ?_, ?_, List.getLast?_concat,
    hlayout.fs_eq, hlayout.name_eq, hlayout.size_eq⟩
  · rw [hlayout.files_eq, List.append_assoc]
  · constructor
    case contents =>
      simp only [List.map_append, hlayout.closed_eq, List.map_cons, hlayout.cur_eq, List.map_nil]
    case chunks_eq => rw [List.flatten_append, List.flatten_singleton, hlayout.chunks_eq]
    case nonempty =>
      intro g hg
      obtain hg | rfl := hmem g hg
      · exact hlayout.nonempty g hg
      · exact hne
    case full =>
      rw [List.dropLast_concat]
      exact hlayout.full
    case short =>
      intro g hg
      obtain hg | rfl := hmem g hg
      · exact hlayout.short g hg
      · exact hshort

/-- After every sequence of calls that succeed, the files that they created hold their chunks,
    in groups that are not split, and `cur_size_` is the size of the open file. -/
theorem flush_rolls {basename_ : Bytes} {flush_log : Nat} {calls : List (Chunk × FlushIo)}
    (hmax : 0 < max)
    (hok : (system basename_ max flush_log old).AllSteps Succeeds (start basename_ max old)
      (calls.map fun call => .flush call.1 call.2))
    (hrun : (system basename_ max flush_log old).run (start basename_ max old)
      (calls.map fun call => .flush call.1 call.2) = some s) :
    ∃ files groups,
      s.files = old ++ files ∧ Rolled max files (calls.map (·.1.data)) groups ∧
      (files.map (·.content)).flatten = (calls.map (·.1.data)).flatten ∧
      (calls ≠ [] → ∃ cur stream,
        files.getLast? = some cur ∧ s.roll.fs_ = some stream ∧ stream.name = cur.name ∧
        s.roll.cur_size_ = cur.content.length) := by
  cases calls with
  | nil =>
    cases hrun
    refine ⟨[], [], (List.append_nil old).symm, ?_, rfl, fun hne => absurd rfl hne⟩
    constructor <;> simp
  | cons call calls =>
    rw [List.map_cons] at hok hrun
    obtain ⟨s₁, hs₁, hrun⟩ := Transition.run_cons_eq_some _ |>.mp hrun
    obtain ⟨hopen, hall⟩ := hok.1
    obtain ⟨hopens, hfresh⟩ := hopen (.inl rfl)
    obtain ⟨cur, stream, hlayout⟩ := Layout.first basename_ max old hopens hfresh
    have hfirst := hlayout.between flush_log hmax (hall _ hlayout.fs_eq)
    have heq : s₁ = RollFileFlush.flush flush_log (start basename_ max old) call.1 call.2 :=
      (Option.some.inj hs₁).symm
    rw [List.nil_append] at hfirst
    unfold RollFileFlush.flush at heq
    rw [← heq] at hfirst
    obtain ⟨files, groups, cur, stream, hfiles, hrolled, hlast⟩ :=
      (hfirst.run (hok.2 s₁ hs₁) hrun).rolled
    refine ⟨files, groups, hfiles, hrolled, ?_, fun _ => ⟨cur, stream, hlast⟩⟩
    rw [hrolled.contents, ← List.flatten_flatten, hrolled.chunks_eq]
    rfl

/-- The first second of a day, and the one after it. -/
def secondOfDay (late : Bool) : LocalTime := .cut 124 0 1 0 0 (if late then 1 else 0)

/-- Two calls, each of which fills a file. -/
def twoFiles : List (Chunk × FlushIo) :=
  [(⟨[97, 98], by decide⟩, ⟨secondOfDay false, true, 2⟩),
    (⟨[99, 100, 101], by decide⟩, ⟨secondOfDay true, true, 3⟩)]

set_option maxRecDepth 4096 in
theorem flush_rolls_twoFiles : ∃ files groups,
    Rolled 2 files [[97, 98], [99, 100, 101]] groups ∧
      (files.map (·.content)).flatten = [97, 98, 99, 100, 101] := by
  have hok : (system (Bytes.ofString "log") 2 0 []).AllSteps Succeeds
      (start (Bytes.ofString "log") 2 []) (twoFiles.map fun call => .flush call.1 call.2) := by
    have hfirst : Succeeds (start (Bytes.ofString "log") 2 [])
        (.flush ⟨[97, 98], by decide⟩ ⟨secondOfDay false, true, 2⟩) := by
      refine ⟨fun _ => ⟨rfl, fun file hfile => ?_⟩, fun stream hstream => ?_⟩
      · cases hfile
      · cases hstream
        rfl
    refine ⟨hfirst, fun s hs => ⟨⟨fun _ => ⟨rfl, ?_⟩, ?_⟩, fun _ _ => trivial⟩⟩
    · cases hs
      decide
    · cases hs
      intro stream hstream
      cases hstream
      rfl
  obtain ⟨files, groups, -, hrolled, hflat, -⟩ := flush_rolls (by decide) hok rfl
  exact ⟨files, groups, hrolled, hflat⟩

end Mylog.RollFileFlush
