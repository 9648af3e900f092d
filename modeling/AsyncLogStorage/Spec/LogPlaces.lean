import AsyncLogStorage.Spec.LogContents

/-!
# Where the bytes of a log file are

The order of the three places that a byte goes through, and what one step leaves of a file.

## Key results

- `LogDisk.keeps_step`: what the system has of a file outlives every step but a power cut
- `LogDisk.stays_step`: what is on the disk outlives that, too, if the entry of the file does
- `LogDisk.keptPowered_iff`, `LogDisk.kept_iff`: which files every later run leaves complete
-/

namespace Mylog

namespace LogDisk

variable {s s' s'' : State} {flush_log : Nat} {old : List LogFile} {name : Bytes}

/-- The system has no more of a file than was written, and the disk no more than the system.
    Only of an open file there is something in a buffer. -/
structure Inv (s : State) : Prop where
  disk_le : ∀ name, s.disk name ≤ s.kernel name
  kernel_le : ∀ name, s.kernel name ≤ fileSize s.files name
  closed : ∀ name, s.kernel name = fileSize s.files name ∨
    ∃ stream, s.stream = some stream ∧ stream.name = name
  there : ∀ stream, s.stream = some stream → stream.name ∈ s.files.map (·.name)
  written_le : ∀ stream, s.stream = some stream → stream.written ≤ fileSize s.files stream.name

/-- The first bytes stay where no fewer of them are kept. -/
theorem take_prefix_trans {xs ys zs : Bytes} {m n : Nat} (h : xs.take m <+: ys) (hle : m ≤ n)
    (h' : ys.take n <+: zs) : xs.take m <+: zs := by
  have hbetween : xs.take m <+: ys.take n := by
    rw [List.prefix_take_iff]
    exact ⟨h, (List.length_take_le m xs).trans hle⟩
  exact hbetween.trans h'

/-- What the system had of a file is still there, and what was further on is still further on. -/
structure Keeps (name : Bytes) (s s' : State) : Prop where
  content : (contentOf s.files name).take (s.kernel name) <+: contentOf s'.files name
  kernel_le : s.kernel name ≤ s'.kernel name
  disk_le : s.disk name ≤ s'.disk name
  linked : s.linked name = true → s'.linked name = true

theorem Keeps.refl (name : Bytes) (s : State) : Keeps name s s where
  content := List.take_prefix _ _
  kernel_le := Nat.le_refl _
  disk_le := Nat.le_refl _
  linked h := h

theorem Keeps.trans (h : Keeps name s s') (h' : Keeps name s' s'') : Keeps name s s'' where
  -- what the system had at first it had in between
  content := take_prefix_trans h.content h.kernel_le h'.content
  kernel_le := h.kernel_le.trans h'.kernel_le
  disk_le := h.disk_le.trans h'.disk_le
  linked hlinked := h'.linked (h.linked hlinked)

theorem inv_start (files : List LogFile) : Inv (LogDisk.start files) where
  disk_le _ := Nat.le_refl _
  kernel_le _ := Nat.le_refl _
  closed _ := .inl rfl
  there _ h := nomatch h
  written_le _ h := nomatch h

/-! ## One call after the other -/

theorem Keeps.fflush (h : Inv s) (name other : Bytes) : Keeps name s (s.fflush other) where
  content := List.take_prefix _ _
  kernel_le := by
    show s.kernel name ≤ Function.update s.kernel other (fileSize s.files other) name
    rw [Function.update_apply]
    split
    · rename_i hname
      rw [hname]
      exact h.kernel_le other
    · exact Nat.le_refl _
  disk_le := Nat.le_refl _
  linked hlinked := hlinked

theorem Keeps.fsync (h : Inv s) (name other : Bytes) : Keeps name s (s.fsync other) where
  content := List.take_prefix _ _
  kernel_le := Nat.le_refl _
  disk_le := by
    show s.disk name ≤ Function.update s.disk other (s.kernel other) name
    rw [Function.update_apply]
    split
    · rename_i hname
      rw [hname]
      exact h.disk_le other
    · exact Nat.le_refl _
  linked hlinked := hlinked

theorem Keeps.drop (name : Bytes) (s : State) : Keeps name s s.drop where
  content := by
    show _ <+: contentOf (cut s.kernel s.files) name
    rw [contentOf_cut]
  kernel_le := Nat.le_refl _
  disk_le := Nat.le_refl _
  linked hlinked := hlinked

theorem Keeps.fclose (h : Inv s) (name : Bytes) (closes : Bool) :
    Keeps name s (s.fclose closes) := by
  unfold State.fclose
  cases s.stream with
  | none => exact .refl name s
  | some stream =>
    cases closes with
    | true => exact .fflush h name stream.name
    | false => exact .drop name s

theorem inv_fflush (h : Inv s) (other : Bytes) : Inv (s.fflush other) where
  disk_le name := (h.disk_le name).trans (Keeps.fflush h name other).kernel_le
  kernel_le name := by
    show Function.update s.kernel other (fileSize s.files other) name ≤ fileSize s.files name
    rw [Function.update_apply]
    split
    · rename_i hname
      rw [hname]
    · exact h.kernel_le name
  closed name := by
    show Function.update s.kernel other (fileSize s.files other) name = fileSize s.files name ∨ _
    rw [Function.update_apply]
    split
    · rename_i hname
      rw [hname]
      exact .inl rfl
    · exact h.closed name
  there := h.there
  written_le := h.written_le

theorem inv_fsync (h : Inv s) (other : Bytes) : Inv (s.fsync other) where
  disk_le name := by
    show Function.update s.disk other (s.kernel other) name ≤ s.kernel name
    rw [Function.update_apply]
    split
    · rename_i hname
      rw [hname]
    · exact h.disk_le name
  kernel_le := h.kernel_le
  closed := h.closed
  there := h.there
  written_le := h.written_le

/-- The system takes some more of the buffer, and no more than there is. -/
theorem kernel_spill (h : Inv s) (other : Bytes) (n : Nat) (name : Bytes) :
    s.kernel name ≤ Function.update s.kernel other
        (min (s.kernel other + n) (fileSize s.files other)) name ∧
      Function.update s.kernel other (min (s.kernel other + n) (fileSize s.files other)) name ≤
        fileSize s.files name := by
  rw [Function.update_apply]
  have hle := h.kernel_le name
  split
  · rename_i hname
    subst hname
    omega
  · exact ⟨Nat.le_refl _, hle⟩

theorem inv_spill (h : Inv s) {stream : Stream} (hsome : s.stream = some stream) (n : Nat) :
    Inv { s with
      kernel := Function.update s.kernel stream.name
        (min (s.kernel stream.name + n) (fileSize s.files stream.name)) } where
  disk_le name := (h.disk_le name).trans (kernel_spill h stream.name n name).1
  kernel_le name := (kernel_spill h stream.name n name).2
  closed name := by
    by_cases hname : name = stream.name
    · exact .inr ⟨stream, hsome, hname.symm⟩
    · show Function.update s.kernel stream.name _ name = fileSize s.files name ∨ _
      rw [Function.update_of_ne hname]
      exact h.closed name
  there := h.there
  written_le := h.written_le

/-- Where the file is as the system has it, there is nothing in its buffer. -/
theorem fileSize_drop (h : Inv s) (name : Bytes) : s.kernel name = fileSize s.drop.files name := by
  show _ = (contentOf (cut s.kernel s.files) name).length
  rw [contentOf_cut, List.length_take]
  exact (Nat.min_eq_left (h.kernel_le name)).symm

theorem kernel_fclose (h : Inv s) (closes : Bool) (name : Bytes) :
    (s.fclose closes).kernel name = fileSize (s.fclose closes).files name := by
  unfold State.fclose
  cases hstream : s.stream with
  | none =>
    obtain hname | ⟨stream, hstream', -⟩ := h.closed name
    · exact hname
    · rw [hstream] at hstream'
      cases hstream'
  | some stream =>
    cases closes with
    | false => exact fileSize_drop h name
    | true =>
      show Function.update s.kernel stream.name (fileSize s.files stream.name) name =
        fileSize s.files name
      rw [Function.update_apply]
      split
      · rename_i hname
        rw [hname]
      · rename_i hname
        obtain hclosed | ⟨stream', hstream', hname'⟩ := h.closed name
        · exact hclosed
        · cases hstream.symm.trans hstream'
          exact absurd hname'.symm hname

@[simp] theorem disk_fclose (s : State) (closes : Bool) : (s.fclose closes).disk = s.disk := by
  unfold State.fclose
  cases s.stream with
  | none => rfl
  | some stream => cases closes <;> rfl

@[simp] theorem map_name_fclose (s : State) (closes : Bool) :
    (s.fclose closes).files.map (·.name) = s.files.map (·.name) := by
  unfold State.fclose
  cases s.stream with
  | none => rfl
  | some stream =>
    cases closes with
    | true => rfl
    | false => exact map_name_cut s.kernel s.files

/-- Without a process there is no buffer. -/
theorem inv_ended (hdisk : ∀ name, s.disk name ≤ s.kernel name)
    (hkernel : ∀ name, s.kernel name = fileSize s.files name) : Inv s.ended where
  disk_le := hdisk
  kernel_le name := (hkernel name).le
  closed name := .inl (hkernel name)
  there _ h := nomatch h
  written_le _ h := nomatch h

/-! ## A `Flush` -/

/-- Before `fwrite`: a stream that is to be replaced is closed. -/
structure Ready (s : State) (flush : LogFlush) : Prop where
  disk_le : ∀ name, s.disk name ≤ s.kernel name
  kernel_le : ∀ name, s.kernel name ≤ fileSize s.files name
  closed : ∀ name, s.kernel name = fileSize s.files name ∨
    flush.replaces = false ∧ ∃ stream, flush.stream = some stream ∧ stream.name = name
  there : ∀ stream, flush.stream = some stream → stream.name ∈ s.files.map (·.name)
  written_le : flush.replaces = false → ∀ stream, flush.stream = some stream →
    stream.written ≤ fileSize s.files stream.name

theorem Inv.ready {flush : LogFlush} (h : Inv s) (hflush : s.flush = some flush) (closes : Bool) :
    Ready (if flush.replaces then s.fclose closes else s) flush := by
  have hstream : s.stream = flush.stream := by
    simp only [State.stream, hflush, Option.bind_some]
  cases hreplaces : flush.replaces with
  | true =>
    simp only [↓reduceIte]
    constructor
    case disk_le =>
      intro name
      rw [disk_fclose]
      exact (h.disk_le name).trans (Keeps.fclose h name closes).kernel_le
    case kernel_le => exact fun name => (kernel_fclose h closes name).le
    case closed => exact fun name => .inl (kernel_fclose h closes name)
    case there =>
      intro stream hsome
      rw [map_name_fclose]
      exact h.there stream (hstream.trans hsome)
    case written_le =>
      intro hnot
      rw [hreplaces] at hnot
      cases hnot
  | false =>
    simp only [Bool.false_eq_true, ↓reduceIte]
    constructor
    case disk_le => exact h.disk_le
    case kernel_le => exact h.kernel_le
    case closed =>
      intro name
      rw [← hstream]
      exact (h.closed name).imp_right fun hopen => ⟨hreplaces, hopen⟩
    case there => exact fun stream hsome => h.there stream (hstream.trans hsome)
    case written_le => exact fun _ stream hsome => h.written_le stream (hstream.trans hsome)

theorem Silent.stream_write {flush : LogFlush} {chunk : Chunk} {io : FlushIo}
    (h : Silent s.files flush (flush.flush flush_log ⟨s.files, [], [], false⟩ chunk io)) :
    (s.write flush_log flush chunk io).stream = none := by
  unfold State.write State.stream
  simp only
  split
  · rfl
  · exact h.stream_eq

theorem Appended.stream_write {flush : LogFlush} {chunk : Chunk} {io : FlushIo} {stream : Stream}
    {bytes : Bytes}
    (h : Appended s.files flush (flush.flush flush_log ⟨s.files, [], [], false⟩ chunk io) stream
      bytes) :
    (s.write flush_log flush chunk io).stream =
      some { stream with written := stream.written + bytes.length } := by
  unfold State.write State.stream
  simp only [h.alive, Bool.false_eq_true, ↓reduceIte, Option.bind_some, h.stream_eq]

/-- No content gets shorter. -/
theorem Ready.content_prefix {flush : LogFlush} (h : Ready s flush) (chunk : Chunk) (io : FlushIo)
    (name : Bytes) :
    contentOf s.files name <+: contentOf (s.write flush_log flush chunk io).files name := by
  obtain hsilent | ⟨stream, bytes, happended⟩ := flush_cases flush_log flush chunk io h.there
  · show _ <+: contentOf (flush.flush flush_log ⟨s.files, [], [], false⟩ chunk io).2.files name
    rw [hsilent.content]
  · show _ <+: contentOf (flush.flush flush_log ⟨s.files, [], [], false⟩ chunk io).2.files name
    rw [happended.content]
    split
    · exact List.prefix_append _ _
    · exact List.prefix_refl _

theorem Ready.keeps {flush : LogFlush} (h : Ready s flush) (chunk : Chunk) (io : FlushIo)
    (name : Bytes) : Keeps name s (s.write flush_log flush chunk io) where
  content := (List.take_prefix _ _).trans (h.content_prefix chunk io name)
  kernel_le := Nat.le_refl _
  disk_le := Nat.le_refl _
  linked hlinked := hlinked

theorem Ready.inv {flush : LogFlush} (h : Ready s flush) (chunk : Chunk) (io : FlushIo) :
    Inv (s.write flush_log flush chunk io) := by
  have hkernel : ∀ name, s.kernel name ≤ fileSize (s.write flush_log flush chunk io).files name :=
    fun name => (h.kernel_le name).trans (h.content_prefix chunk io name).length_le
  obtain hsilent | ⟨stream, bytes, happended⟩ := flush_cases flush_log flush chunk io h.there
  · have hnone := hsilent.stream_write
    constructor
    case disk_le => exact h.disk_le
    case kernel_le => exact hkernel
    case closed =>
      intro name
      left
      show s.kernel name = (contentOf (flush.flush flush_log _ chunk io).2.files name).length
      rw [hsilent.content]
      obtain hclosed | ⟨hkept, stream, hsome, -⟩ := h.closed name
      · exact hclosed
      · obtain hreplaces | hnot := hsilent.closed
        · rw [hkept] at hreplaces
          cases hreplaces
        · rw [hsome] at hnot
          cases hnot
    case there =>
      intro stream hsome
      rw [hnone] at hsome
      cases hsome
    case written_le =>
      intro stream hsome
      rw [hnone] at hsome
      cases hsome
  · have hsome := happended.stream_write
    constructor
    case disk_le => exact h.disk_le
    case kernel_le => exact hkernel
    case closed =>
      intro name
      by_cases hname : name = stream.name
      · exact .inr ⟨_, hsome, hname.symm⟩
      · left
        show s.kernel name = (contentOf (flush.flush flush_log _ chunk io).2.files name).length
        rw [happended.content, if_neg hname]
        obtain hclosed | ⟨hkept, stream', hopen, hname'⟩ := h.closed name
        · exact hclosed
        · -- the open file is the one of the stream
          obtain ⟨hreplaces, -⟩ | ⟨-, hsame⟩ := happended.opened
          · rw [hkept] at hreplaces
            cases hreplaces
          · cases hopen.symm.trans hsame
            exact absurd hname'.symm hname
    case there =>
      intro stream' hopen
      cases hsome.symm.trans hopen
      exact happended.there
    case written_le =>
      intro stream' hopen
      cases hsome.symm.trans hopen
      show stream.written + bytes.length ≤
        (contentOf (flush.flush flush_log _ chunk io).2.files stream.name).length
      rw [happended.content, if_pos rfl, List.length_append]
      have hbefore : stream.written ≤ fileSize s.files stream.name := by
        obtain ⟨-, hzero⟩ | ⟨hkept, hsame⟩ := happended.opened
        · omega
        · exact h.written_le hkept stream hsame
      unfold fileSize at hbefore
      omega

/-! ## A step -/

theorem contentOf_create (type : FlushType) (files : List LogFile) (name : Bytes) :
    contentOf (type.create files).1 name = contentOf files name := by
  cases type with
  | stdoutFlush => rfl
  | rollFileFlush filename max_size => rfl
  | fileFlush filename now opens =>
    cases opens with
    | false => rfl
    | true => exact contentOf_fopen files filename.cstr now 0 name

/-- What a constructor opens is there, and nothing was written to it yet. -/
theorem stream_create {type : FlushType} {files : List LogFile} {stream : Stream}
    (h : (type.create files).2.stream = some stream) :
    stream.name ∈ (type.create files).1.map (·.name) ∧ stream.written = 0 := by
  cases type with
  | stdoutFlush => cases h
  | rollFileFlush filename max_size => cases h
  | fileFlush filename now opens =>
    cases opens with
    | false => cases h
    | true =>
      cases h
      exact ⟨(map_name_fopen files filename.cstr now 0).1, RollFileFlush.fopen_written _ _ _ _⟩

theorem contentOf_cutPower (s : State) (rest : Bytes → Bytes) (name : Bytes) :
    contentOf (s.cutPower rest).files name =
      if s.linked name = true ∧ name ∈ s.files.map (·.name) then
        (contentOf s.files name).take (s.disk name) ++ rest name
      else [] := by
  have hmem : name ∈ (s.files.filter fun file => s.linked file.name).map (·.name) ↔
      s.linked name = true ∧ name ∈ s.files.map (·.name) := by
    simp only [List.mem_map, List.mem_filter]
    constructor
    · rintro ⟨file, ⟨hfile, hlinked⟩, rfl⟩
      exact ⟨hlinked, file, hfile, rfl⟩
    · rintro ⟨hlinked, file, hfile, rfl⟩
      exact ⟨file, ⟨hfile, hlinked⟩, rfl⟩
  show contentOf ((s.files.filter fun file => s.linked file.name).map _) name = _
  rw [contentOf_map fun n content => content.take (s.disk n) ++ rest n, contentOf_filter]
  simp only [hmem]
  split
  · rename_i hlinked
    rw [if_pos hlinked.1]
  · rfl

theorem inv_step {a : Action} (h : Inv s) (hstep : step flush_log s a = some s') : Inv s' := by
  cases a with
  | start type =>
    simp only [step, Option.ite_none_right_eq_some, Option.some.injEq] at hstep
    obtain ⟨hnone, rfl⟩ := hstep
    have hsize : ∀ name, fileSize (type.create s.files).1 name = fileSize s.files name :=
      fun name => congrArg List.length (contentOf_create type s.files name)
    have hclosed : ∀ name, s.kernel name = fileSize s.files name := by
      intro name
      obtain hclosed | ⟨stream, hsome, -⟩ := h.closed name
      · exact hclosed
      · rw [State.stream, Option.isNone_iff_eq_none.mp hnone] at hsome
        cases hsome
    constructor
    case disk_le => exact h.disk_le
    case kernel_le => exact fun name => ((hclosed name).trans (hsize name).symm).le
    case closed => exact fun name => .inl ((hclosed name).trans (hsize name).symm)
    case there => exact fun stream hsome => (stream_create hsome).1
    case written_le =>
      intro stream hsome
      rw [(stream_create hsome).2]
      exact Nat.zero_le _
  | flush chunk io closes =>
    cases hflush : s.flush with
    | none =>
      simp only [step, hflush, reduceCtorEq] at hstep
    | some flush =>
      simp only [step, hflush, Option.ite_none_right_eq_some, Option.some.injEq] at hstep
      obtain ⟨-, rfl⟩ := hstep
      exact (h.ready hflush closes).inv chunk io
  | call ok =>
    simp only [step] at hstep
    split at hstep
    · rename_i stream call calls hsome hpending
      cases hstep
      have hcall : Inv (if ok then s.call stream.name call else s) := by
        cases ok with
        | false => exact h
        | true =>
          cases call with
          | fflush => exact inv_fflush h stream.name
          | fsync => exact inv_fsync h stream.name
          | fwrite => exact h
          | ferror => exact h
          | fileno => exact h
      exact { hcall with }
    · cases hstep
  | spill n =>
    simp only [step, Option.map_eq_some_iff] at hstep
    obtain ⟨stream, hsome, rfl⟩ := hstep
    exact inv_spill h hsome n
  | link name =>
    simp only [step, Option.ite_none_right_eq_some, Option.some.injEq] at hstep
    obtain ⟨-, rfl⟩ := hstep
    exact { h with }
  | exit closes =>
    simp only [step, Option.ite_none_right_eq_some, Option.some.injEq] at hstep
    obtain ⟨-, rfl⟩ := hstep
    exact inv_ended (fun name => (disk_fclose s closes ▸ h.disk_le name).trans
      (Keeps.fclose h name closes).kernel_le) (kernel_fclose h closes)
  | kill =>
    simp only [step, Option.ite_none_right_eq_some, Option.some.injEq] at hstep
    obtain ⟨-, rfl⟩ := hstep
    exact inv_ended h.disk_le (fileSize_drop h)
  | powerCut rest =>
    cases hstep
    constructor
    case disk_le => exact fun _ => Nat.le_refl _
    case kernel_le => exact fun _ => Nat.le_refl _
    case closed => exact fun _ => .inl rfl
    case there => exact fun _ hsome => nomatch hsome
    case written_le => exact fun _ hsome => nomatch hsome

/-- The step is not a power cut. -/
def Action.Powered : Action → Prop
  | .powerCut _ => False
  | _ => True

theorem keeps_step {a : Action} (h : Inv s) (hpowered : a.Powered)
    (hstep : step flush_log s a = some s') (name : Bytes) : Keeps name s s' := by
  cases a with
  | start type =>
    simp only [step, Option.ite_none_right_eq_some, Option.some.injEq] at hstep
    obtain ⟨-, rfl⟩ := hstep
    exact
      { Keeps.refl name s with
        content := by
          rw [contentOf_create]
          exact List.take_prefix _ _ }
  | flush chunk io closes =>
    cases hflush : s.flush with
    | none =>
      simp only [step, hflush, reduceCtorEq] at hstep
    | some flush =>
      simp only [step, hflush, Option.ite_none_right_eq_some, Option.some.injEq] at hstep
      obtain ⟨-, rfl⟩ := hstep
      have hclose : Keeps name s (if flush.replaces then s.fclose closes else s) := by
        split
        · exact .fclose h name closes
        · exact .refl name s
      exact hclose.trans ((h.ready hflush closes).keeps chunk io name)
  | call ok =>
    simp only [step] at hstep
    split at hstep
    · rename_i stream call calls hsome hpending
      cases hstep
      have hcall : Keeps name s (if ok then s.call stream.name call else s) := by
        cases ok with
        | false => exact .refl name s
        | true =>
          cases call with
          | fflush => exact .fflush h name stream.name
          | fsync => exact .fsync h name stream.name
          | fwrite => exact .refl name s
          | ferror => exact .refl name s
          | fileno => exact .refl name s
      exact { hcall with }
    · cases hstep
  | spill n =>
    simp only [step, Option.map_eq_some_iff] at hstep
    obtain ⟨stream, -, rfl⟩ := hstep
    exact { Keeps.refl name s with kernel_le := (kernel_spill h stream.name n name).1 }
  | link other =>
    simp only [step, Option.ite_none_right_eq_some, Option.some.injEq] at hstep
    obtain ⟨-, rfl⟩ := hstep
    refine { Keeps.refl name s with linked := fun hlinked => ?_ }
    show Function.update s.linked other true name = true
    rw [Function.update_apply, hlinked, ite_self]
  | exit closes =>
    simp only [step, Option.ite_none_right_eq_some, Option.some.injEq] at hstep
    obtain ⟨-, rfl⟩ := hstep
    exact { Keeps.fclose h name closes with }
  | kill =>
    simp only [step, Option.ite_none_right_eq_some, Option.some.injEq] at hstep
    obtain ⟨-, rfl⟩ := hstep
    exact { Keeps.drop name s with }
  | powerCut rest => exact hpowered.elim

/-- What was on the disk of a file, and found there, is still on the disk, and found there. -/
structure Stays (name : Bytes) (s s' : State) : Prop where
  content : (contentOf s.files name).take (s.disk name) <+: contentOf s'.files name
  disk_le : s.disk name ≤ s'.disk name
  linked : s'.linked name = true

theorem Stays.trans (h : Stays name s s') (h' : Stays name s' s'') : Stays name s s'' where
  content := take_prefix_trans h.content h.disk_le h'.content
  disk_le := h.disk_le.trans h'.disk_le
  linked := h'.linked

theorem Stays.refl (hlinked : s.linked name = true) : Stays name s s where
  content := List.take_prefix _ _
  disk_le := Nat.le_refl _
  linked := hlinked

/-- The system has what is on the disk. -/
theorem Keeps.stays (h : Keeps name s s') (hinv : Inv s) (hlinked : s.linked name = true) :
    Stays name s s' where
  content := (List.take_prefix_take_left (hinv.disk_le name)).trans h.content
  disk_le := h.disk_le
  linked := h.linked hlinked

theorem Stays.cutPower (h : Inv s) (hlinked : s.linked name = true) (rest : Bytes → Bytes) :
    Stays name s (s.cutPower rest) := by
  have hfront : (contentOf s.files name).take (s.disk name) <+:
      contentOf (s.cutPower rest).files name := by
    rw [contentOf_cutPower]
    split
    · exact List.prefix_append _ _
    · rename_i habsent
      rw [contentOf_of_not_mem fun hthere => habsent ⟨hlinked, hthere⟩, List.take_nil]
  refine ⟨hfront, ?_, hlinked⟩
  -- everything that is there is on the disk
  show s.disk name ≤ fileSize (s.cutPower rest).files name
  have hlength := hfront.length_le
  rw [List.length_take] at hlength
  have hdisk := (h.disk_le name).trans (h.kernel_le name)
  unfold fileSize at hdisk ⊢
  omega

theorem stays_step {a : Action} (h : Inv s) (hlinked : s.linked name = true)
    (hstep : step flush_log s a = some s') : Stays name s s' := by
  by_cases hpowered : a.Powered
  · exact (keeps_step h hpowered hstep name).stays h hlinked
  · obtain ⟨rest, rfl⟩ : ∃ rest, a = .powerCut rest := by
      cases a with
      | powerCut rest => exact ⟨rest, rfl⟩
      | _ => exact absurd trivial hpowered
    cases hstep
    exact .cutPower h hlinked rest

/-! ## What later runs leave -/

/-- As long as there is power, the file goes on from what it contains. -/
def KeptPowered (T : Transition State Action) (s : State) (name : Bytes) : Prop :=
  ∀ as s', (∀ a ∈ as, a.Powered) → T.run s as = some s' →
    contentOf s.files name <+: contentOf s'.files name

/-- The file goes on from what it contains, whatever happens. -/
def Kept (T : Transition State Action) (s : State) (name : Bytes) : Prop :=
  ∀ as s', T.run s as = some s' →
    contentOf s.files name <+: contentOf s'.files name

/-- A file survives its process exactly if the system has all of it. -/
theorem keptPowered_iff (h : Inv s) :
    KeptPowered (system flush_log old) s name ↔ s.kernel name = fileSize s.files name := by
  constructor
  · intro hkept
    cases hflush : s.flush with
    | none =>
      obtain hclosed | ⟨stream, hsome, -⟩ := h.closed name
      · exact hclosed
      · rw [State.stream, hflush] at hsome
        cases hsome
    | some flush =>
      -- the process is killed
      have hrun : (system flush_log old).run s [.kill] = some s.drop.ended := by
        simp only [Transition.run_cons, system, step, hflush, Option.isSome_some, ↓reduceIte,
          Option.bind_some, Transition.run_nil]
      have hfront := hkept [.kill] _ (by simp [Action.Powered]) hrun
      have hlength : fileSize s.files name ≤ fileSize s.drop.files name := hfront.length_le
      rw [← fileSize_drop h name] at hlength
      exact Nat.le_antisymm (h.kernel_le name) hlength
  · intro hall as s' hpowered hrun
    have hkeeps : Inv s' ∧ Keeps name s s' := by
      refine Transition.run_invariant (I := fun t => Inv t ∧ Keeps name s t)
        (C := fun _ a => a.Powered) ?_ ⟨h, .refl name s⟩
        (Transition.allSteps_of_forall hpowered s) hrun
      rintro t a t' ⟨hinv, hkeeps⟩ hpowered hstep
      exact ⟨inv_step hinv hstep, hkeeps.trans (keeps_step hinv hpowered hstep name)⟩
    have hcontent := hkeeps.2.content
    rwa [hall, fileSize, List.take_length] at hcontent

/-- A file survives everything exactly if all of it is on the disk, and its entry is. -/
theorem kept_iff (h : Inv s) :
    Kept (system flush_log old) s name ↔ contentOf s.files name = [] ∨
      s.linked name = true ∧ s.disk name = fileSize s.files name := by
  constructor
  · intro hkept
    have hrun : (system flush_log old).run s [.powerCut fun _ => []] =
        some (s.cutPower fun _ => []) := rfl
    have hfront := hkept _ _ hrun
    rw [contentOf_cutPower] at hfront
    split at hfront
    · rename_i hthere
      right
      refine ⟨hthere.1, ?_⟩
      have hlength := hfront.length_le
      have hdisk := (h.disk_le name).trans (h.kernel_le name)
      rw [List.append_nil, List.length_take] at hlength
      unfold fileSize at hdisk ⊢
      omega
    · exact .inl (List.prefix_nil.mp hfront)
  · rintro (hempty | ⟨hlinked, hall⟩) as s' hrun
    · rw [hempty]
      exact List.nil_prefix
    · have hstays : Inv s' ∧ Stays name s s' := by
        refine Transition.run_invariant (I := fun t => Inv t ∧ Stays name s t)
          (C := fun _ _ => True) ?_ ⟨h, .refl hlinked⟩
          (Transition.allSteps_of_forall (fun _ _ => trivial) s) hrun
        rintro t a t' ⟨hinv, hstays⟩ - hstep
        exact ⟨inv_step hinv hstep, hstays.trans (stays_step hinv hstays.linked hstep)⟩
      have hcontent := hstays.2.content
      rwa [hall, fileSize, List.take_length] at hcontent

end LogDisk

end Mylog
