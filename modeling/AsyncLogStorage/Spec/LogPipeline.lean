import AsyncLogStorage.ForStd.List
import AsyncLogStorage.Spec.LogChunks
import AsyncLogStorage.Spec.LoggerBuilder

/-!
# From the producers to the files

Every element of `flushes_` is given the same chunks, and these are cut between records. So the
files of a logger hold whole records in the order of acceptance, and a rolled file ends between
two records, however the producers, the worker and the caller of `Stop` interleave.

## Key results

- `step_inv`: every step keeps the invariant `Inv`
- `outputs_hold_records`: what the files and the standard output hold at any time
- `outputs_complete`: what they hold when the worker has exited
-/

namespace Mylog.LogPipeline

open AsyncWorker (bytesOf Cut)

variable {cfg : LogConfig} {type : AsyncType} {flush_log : Nat} {old : List LogFile}
  {types : List FlushType} {s s' : State} {handed : List (List (Nat × Bytes))}
  {current waiting : List (Nat × Bytes)}

/-! ## The invariant -/

/-- The chunks that element `k` was given, where `RealFlush` has called `called` elements. -/
def chunksTo (handed : List (List (Nat × Bytes))) (current : List (Nat × Bytes))
    (called k : Nat) : List Bytes :=
  handed.map bytesOf ++ if k < called then [bytesOf current] else []

/-- The number of elements that write to the standard output. -/
def stdoutCount (types : List FlushType) : Nat := types.count .stdoutFlush

/-- What they wrote there. -/
def coutOf (types : List FlushType) (handed : List (List (Nat × Bytes)))
    (current : List (Nat × Bytes)) (called : Nat) : Bytes :=
  (handed.flatMap fun records => List.replicate (stdoutCount types) (bytesOf records)).flatten ++
    (List.replicate (stdoutCount (types.take called)) (bytesOf current)).flatten

/-- Every record fits, and every `Flush` succeeds. -/
def Goes (cfg : LogConfig) (type : AsyncType) (s : State) : Action → Prop
  | .asyncworker a => AsyncWorker.Fits cfg type s.asyncworker a
  | .flush io => ∀ flush, s.flushes_[s.called]? = some flush →
    flush.Succeeds s.out s.asyncworker.consumer.chunk io

/-- The chunks of whole records are on their way to the elements of `flushes_`. -/
structure Inv (old : List LogFile) (types : List FlushType) (s : State)
    (handed : List (List (Nat × Bytes))) (current waiting : List (Nat × Bytes)) : Prop where
  phase : AsyncWorker.Phase s.asyncworker
  conserves : AsyncWorker.Conserves s.asyncworker
  cut : Cut s.asyncworker handed current waiting
  /-- `RealFlush` is not at work outside the callback. -/
  called_eq : s.asyncworker.worker ≠ .callback → s.called = 0
  cout : s.out.cout = coutOf types handed current s.called
  shares : ∃ names, Shares old types s.out s.flushes_ names (chunksTo handed current s.called)

theorem chunksTo_zero (handed : List (List (Nat × Bytes))) (current : List (Nat × Bytes))
    (k : Nat) : chunksTo handed current 0 k = handed.map bytesOf := by
  simp [chunksTo]

theorem coutOf_zero (types : List FlushType) (handed : List (List (Nat × Bytes)))
    (current current' : List (Nat × Bytes)) :
    coutOf types handed current 0 = coutOf types handed current' 0 := by
  simp [coutOf, stdoutCount]

/-- A chunk that every element was given is handed over. -/
theorem chunksTo_concat (handed : List (List (Nat × Bytes)))
    (current : List (Nat × Bytes)) {called k : Nat} (hk : k < called) :
    chunksTo (handed ++ [current]) [] 0 k = chunksTo handed current called k := by
  simp [chunksTo, hk]

theorem coutOf_concat (types : List FlushType) (handed : List (List (Nat × Bytes)))
    (current : List (Nat × Bytes)) :
    coutOf types (handed ++ [current]) [] 0 = coutOf types handed current types.length := by
  simp [coutOf, stdoutCount]

/-- A step from the callback to elsewhere is one of the worker, and comes when `RealFlush` has
    called every element. -/
theorem called_eq_of_leave {a : AsyncWorker.Action} {w : AsyncWorker.State}
    (hmay : mayStep s a = true) (hstep : AsyncWorker.step cfg type s.asyncworker a = some w)
    (hw : s.asyncworker.worker = .callback) (hw' : w.worker ≠ .callback) :
    s.called = s.flushes_.length := by
  obtain ⟨i, data, -, hout⟩ | ⟨i, -, -, rfl⟩ | ⟨sel, rfl, -⟩ | ⟨-, -, rfl⟩ | ⟨-, -, rfl⟩ |
    ⟨-, -, -, rfl⟩ := AsyncWorker.step_cases hstep
  · cases hout <;> exact absurd hw hw'
  · exact absurd (by rw [hw]; rfl) hw'
  · simpa [mayStep, hw] using hmay
  · exact absurd hw hw'
  · exact absurd (by rw [hw]; rfl) hw'
  · exact absurd hw hw'

/-- A step of the producers, of the worker thread or of the caller of `Stop`. -/
private theorem asyncworker_inv {a : AsyncWorker.Action} {w : AsyncWorker.State}
    (h : Inv old types s handed current waiting)
    (hfit : AsyncWorker.Fits cfg type s.asyncworker a) (hmay : mayStep s a = true)
    (hstep : AsyncWorker.step cfg type s.asyncworker a = some w) :
    ∃ handed' current' waiting', Inv old types
      { s with asyncworker := w, called := if w.worker = .callback then s.called else 0 }
      handed' current' waiting' := by
  obtain ⟨current', waiting', hcut, hsame⟩ :=
    AsyncWorker.step_cut h.phase h.conserves h.cut hfit hstep
  have hphase := AsyncWorker.step_phase h.phase hstep
  have hconserves := AsyncWorker.step_conserves h.phase h.conserves hfit hstep
  obtain ⟨names, hshares⟩ := h.shares
  have hcout := h.cout
  refine ⟨_, current', waiting', hphase, hconserves, hcut, ?_, ?_, names, ?_⟩
  · intro hw'
    exact if_neg hw'
  · show s.out.cout = _
    by_cases hw : s.asyncworker.worker = .callback
    · by_cases hw' : w.worker = .callback
      · rw [if_pos hw', AsyncWorker.handedAfter_eq (fun _ => hw'), hsame hw hw', hcout]
      · have hcalled := called_eq_of_leave hmay hstep hw hw'
        rw [if_neg hw', AsyncWorker.handedAfter_of_leave hw hw', hcout, hcalled, hshares.length_eq,
          ← coutOf_concat]
        exact coutOf_zero types _ _ _
    · rw [AsyncWorker.handedAfter_eq (fun hcall => absurd hcall hw), hcout, h.called_eq hw,
        ite_self]
      exact coutOf_zero types _ _ _
  · apply hshares.congr
    intro k hk
    show chunksTo _ current' (if w.worker = .callback then s.called else 0) k = _
    by_cases hw : s.asyncworker.worker = .callback
    · by_cases hw' : w.worker = .callback
      · rw [if_pos hw', AsyncWorker.handedAfter_eq (fun _ => hw'), hsame hw hw']
      · have hcalled := called_eq_of_leave hmay hstep hw hw'
        rw [if_neg hw', AsyncWorker.handedAfter_of_leave hw hw', chunksTo_zero,
          ← chunksTo_concat handed current (hcalled ▸ hk), chunksTo_zero]
    · rw [AsyncWorker.handedAfter_eq (fun hcall => absurd hcall hw), h.called_eq hw, ite_self,
        chunksTo_zero, chunksTo_zero]

/-- One element more has been called. -/
theorem chunksTo_succ (handed : List (List (Nat × Bytes))) (current : List (Nat × Bytes))
    (called k : Nat) :
    chunksTo handed current (called + 1) k =
      Function.update (chunksTo handed current called) called
        (chunksTo handed current called called ++ [bytesOf current]) k := by
  by_cases hk : k = called
  · subst hk
    rw [Function.update_self]
    simp [chunksTo]
  · have hiff : k < called + 1 ↔ k < called := by omega
    rw [Function.update_of_ne hk]
    simp only [chunksTo, hiff]

theorem coutOf_succ {types : List FlushType} {type : FlushType}
    (handed : List (List (Nat × Bytes))) (current : List (Nat × Bytes)) {called : Nat}
    (htype : types[called]? = some type) :
    coutOf types handed current (called + 1) =
      coutOf types handed current called ++
        if type = .stdoutFlush then bytesOf current else [] := by
  unfold coutOf stdoutCount
  rw [List.take_add_one, htype, List.count_append]
  by_cases hout : type = .stdoutFlush
  · simp [hout, List.replicate_add]
  · simp [hout]

/-- Only a `StdoutFlush` writes to the standard output. -/
theorem cout_flush (flush_log : Nat) {files : List LogFile} {names chunks : List Bytes}
    {ftype : FlushType} {flush : LogFlush} (out : LogOutput) (chunk : Chunk) (io : FlushIo)
    (h : Holds old files names chunks ftype flush) :
    (flush.flush flush_log out chunk io).2.cout =
      out.cout ++ if ftype = .stdoutFlush then chunk.data else [] := by
  cases h with
  | stdoutFlush => rfl
  | unopened | fileFlush => simp [LogFlush.flush, FileFlush.flush, *]
  | rollFileFlush => simp [LogFlush.flush]

/-- `RealFlush` calls the next element. -/
private theorem flush_inv (flush_log : Nat) {flush : LogFlush} {io : FlushIo}
    (h : Inv old types s handed current waiting)
    (hsizes : ∀ filename max_size, .rollFileFlush filename max_size ∈ types → 0 < max_size)
    (hw : s.asyncworker.worker = .callback) (hflush : s.flushes_[s.called]? = some flush)
    (hok : flush.Succeeds s.out s.asyncworker.consumer.chunk io) :
    Inv old types
      { s with
        flushes_ := s.flushes_.set s.called
          (flush.flush flush_log s.out s.asyncworker.consumer.chunk io).1
        out := (flush.flush flush_log s.out s.asyncworker.consumer.chunk io).2
        called := s.called + 1 }
      handed current waiting := by
  obtain ⟨names, hshares⟩ := h.shares
  have hdata : s.asyncworker.consumer.chunk.data = bytesOf current := h.cut.consumer hw
  obtain ⟨hk, -⟩ := List.getElem?_eq_some_iff.mp hflush
  obtain ⟨ftype, htype⟩ : ∃ ftype, types[s.called]? = some ftype :=
    ⟨_, List.getElem?_eq_getElem (hshares.length_eq ▸ hk)⟩
  obtain ⟨names', hshares'⟩ := hshares.flush flush_log hsizes hflush hok
  refine { h with called_eq := fun hne => absurd hw hne, cout := ?_, shares := ⟨names', ?_⟩ }
  · show (flush.flush flush_log s.out s.asyncworker.consumer.chunk io).2.cout = _
    rw [cout_flush flush_log _ _ _ (hshares.holds s.called ftype flush htype hflush), h.cout,
      coutOf_succ handed current htype, hdata]
  · rw [hdata] at hshares'
    apply hshares'.congr
    intro k _
    exact chunksTo_succ handed current s.called k

/-- Every step that goes well keeps the invariant. -/
theorem step_inv {a : Action} (h : Inv old types s handed current waiting)
    (hsizes : ∀ filename max_size, .rollFileFlush filename max_size ∈ types → 0 < max_size)
    (hgoes : Goes cfg type s a) (hstep : step cfg type flush_log s a = some s') :
    ∃ handed' current' waiting', Inv old types s' handed' current' waiting' := by
  unfold step at hstep
  split at hstep
  · cases hstep
  · cases a with
    | asyncworker a =>
      obtain ⟨hmay, hstep⟩ := Option.ite_none_right_eq_some.mp hstep
      obtain ⟨w, hw, rfl⟩ := Option.map_eq_some_iff.mp hstep
      exact asyncworker_inv h hgoes hmay hw
    | flush io =>
      obtain ⟨hw, hstep⟩ := Option.ite_none_right_eq_some.mp hstep
      obtain ⟨flush, hflush, rfl⟩ := Option.map_eq_some_iff.mp hstep
      exact ⟨handed, current, waiting, flush_inv flush_log h hsizes hw hflush (hgoes flush hflush)⟩

theorem start_inv {built : List FlushType} {b : Buffer} (hb : Buffer.new cfg = some b) (n : Nat)
    (hseparate : Separate old (flushTypes built)) :
    Inv old (flushTypes built) (start old built b n) [] [] [] where
  phase := AsyncWorker.start_phase hb n
  conserves := AsyncWorker.start_conserves hb n
  cut := AsyncWorker.start_cut hb n
  called_eq _ := rfl
  cout := by simp [start, coutOf, stdoutCount]
  shares := ⟨_, (shares_built hseparate).congr fun k _ => chunksTo_zero [] [] k⟩

theorem reachable_inv {built : List FlushType} (hseparate : Separate old (flushTypes built))
    (h : (system cfg type flush_log old built).ReachableBy (Goes cfg type) s) :
    ∃ handed current waiting, Inv old (flushTypes built) s handed current waiting := by
  apply h.invariant
  · rintro s ⟨b, n, hb, rfl⟩
    exact ⟨[], [], [], start_inv hb n hseparate⟩
  · rintro s a s' ⟨handed, current, waiting, hinv⟩ hgoes hstep
    exact step_inv hinv hseparate.sizes hgoes hstep

/-! ## What the outputs hold -/

/-- The files hold the records, none of them in two: `parts` are those of each file. -/
structure HoldRecords (max : Nat) (files : List LogFile) (records : List (Nat × Bytes))
    (parts : List (List (Nat × Bytes))) : Prop where
  contents : files.map (·.content) = parts.map bytesOf
  records_eq : parts.flatten = records
  /-- Every file but the last one is full. -/
  full : ∀ part ∈ parts.dropLast, max ≤ (bytesOf part).length

/-- What an element of `flushes_` has made of the records that it was given, in the files called
    `names`. -/
def Logged (old files : List LogFile) (names : List Bytes) :
    FlushType → List (Nat × Bytes) → Prop
  | .stdoutFlush, _ => names = []
  | .fileFlush _ _ false, _ => names = []
  | .fileFlush filename _ true, records => names = [filename.cstr] ∧
    ∃ file, filesOf names files = [file] ∧
      file.content = contentOf old filename.cstr ++ bytesOf records
  | .rollFileFlush _ max_size, records => (∀ name ∈ names, name ∉ old.map (·.name)) ∧
    ∃ parts, HoldRecords max_size (filesOf names files) records parts

/-- The records of the chunks are on the standard output and in the files, and nothing else
    was written. -/
structure Outputs (old : List LogFile) (types : List FlushType) (s : State)
    (handed : List (List (Nat × Bytes))) (current waiting : List (Nat × Bytes))
    (names : Nat → List Bytes) : Prop where
  accepted : s.asyncworker.accepted = handed.flatten ++ current ++ waiting
  cout : s.out.cout = coutOf types handed current s.called
  logged : ∀ k ftype, types[k]? = some ftype → Logged old s.out.files (names k) ftype
    (handed.flatten ++ if k < s.called then current else [])
  apart : ∀ j k name, name ∈ names j → name ∈ names k → j = k
  untouched : ∀ name, (∀ k, name ∉ names k) →
    filesOf [name] s.out.files = filesOf [name] old

theorem bytesOf_flatten (parts : List (List (Nat × Bytes))) :
    bytesOf parts.flatten = (parts.map bytesOf).flatten := by
  induction parts with
  | nil => rfl
  | cons part parts ih => simp [ih]

/-- One `StdoutFlush` writes every record once. -/
theorem coutOf_of_one {types : List FlushType} (hone : stdoutCount types = 1)
    (handed : List (List (Nat × Bytes))) (current : List (Nat × Bytes)) :
    coutOf types handed current 0 = bytesOf handed.flatten := by
  have hrest : stdoutCount (types.take 0) = 0 := by simp [stdoutCount]
  rw [coutOf, hone, hrest, bytesOf_flatten]
  simp only [List.replicate_one, List.replicate_zero, List.flatten_nil, List.append_nil,
    ← List.map_eq_flatMap]

/-- Chunks that are cut between records go into files that are cut between records. -/
theorem exists_holdRecords {max : Nat} {files : List LogFile} {chunks : List (List (Nat × Bytes))}
    {groups : List (List Bytes)}
    (h : RollFileFlush.Rolled max files (chunks.map bytesOf) groups) :
    ∃ parts, HoldRecords max files chunks.flatten parts := by
  obtain ⟨cuts, hcuts, rfl⟩ := List.exists_of_flatten_eq_map h.chunks_eq
  have hbytes : ∀ cut : List (List (Nat × Bytes)),
      (cut.map bytesOf).flatten = bytesOf cut.flatten := by
    intro cut
    rw [bytesOf_flatten]
  refine ⟨cuts.map List.flatten, ?_, ?_, ?_⟩
  · rw [h.contents, List.map_map, List.map_map]
    apply List.map_congr_left
    intro cut _
    exact hbytes cut
  · rw [← List.flatten_flatten, hcuts]
  · intro part hpart
    rw [← List.map_dropLast] at hpart
    obtain ⟨cut, hcut, rfl⟩ := List.mem_map.mp hpart
    have hfull := h.full (cut.map bytesOf)
      (by rw [← List.map_dropLast]; exact List.mem_map_of_mem hcut)
    rwa [hbytes] at hfull

/-- The records of the chunks that an element was given. -/
theorem chunksTo_eq (handed : List (List (Nat × Bytes))) (current : List (Nat × Bytes))
    (called k : Nat) :
    ∃ chunks : List (List (Nat × Bytes)), chunksTo handed current called k = chunks.map bytesOf ∧
      chunks.flatten = handed.flatten ++ if k < called then current else [] := by
  by_cases hk : k < called
  · exact ⟨handed ++ [current], by simp [chunksTo, hk], by simp [hk]⟩
  · exact ⟨handed, by simp [chunksTo, hk], by simp [hk]⟩

private theorem logged_of_holds {files : List LogFile} {names : List Bytes} {ftype : FlushType}
    {flush : LogFlush} {chunks : List (List (Nat × Bytes))}
    (h : Holds old files names (chunks.map bytesOf) ftype flush) :
    Logged old files names ftype chunks.flatten := by
  cases h with
  | stdoutFlush hnames => exact hnames
  | unopened hnames => exact hnames
  | fileFlush hnames hfs hstream hfiles hcur hcontent =>
    refine ⟨hnames, _, hfiles, ?_⟩
    rw [hcontent, bytesOf_flatten]
  | rollFileFlush hnew hwritten =>
    refine ⟨hnew, ?_⟩
    obtain ⟨hnone, hnames, -⟩ | hbetween := hwritten
    · rw [List.map_eq_nil_iff] at hnone
      subst hnone hnames
      exact ⟨[], by simp [filesOf], rfl, by simp⟩
    · obtain ⟨own, groups, cur, stream, hfiles, hrolled, -⟩ := hbetween.rolled
      rw [List.nil_append] at hfiles
      rw [show filesOf names files = own from hfiles]
      exact exists_holdRecords hrolled

theorem Inv.outputs (h : Inv old types s handed current waiting) :
    ∃ names, Outputs old types s handed current waiting names := by
  obtain ⟨names, hshares⟩ := h.shares
  refine ⟨names, h.cut.accepted, h.cout, ?_, hshares.apart, hshares.untouched⟩
  intro k ftype hftype
  obtain ⟨hk, -⟩ := List.getElem?_eq_some_iff.mp hftype
  obtain ⟨flush, hflush⟩ : ∃ flush, s.flushes_[k]? = some flush :=
    ⟨_, List.getElem?_eq_getElem (hshares.length_eq ▸ hk)⟩
  have hholds := hshares.holds k ftype flush hftype hflush
  obtain ⟨chunks, hchunks, hrecords⟩ := chunksTo_eq handed current s.called k
  rw [hchunks] at hholds
  rw [← hrecords]
  exact logged_of_holds hholds

/-! ## The end of the worker -/

/-- `stop_` is set once the worker has entered its loop, or when there is nothing to flush. -/
def StopsFlushing (s : State) : Action → Prop
  | .asyncworker a => AsyncWorker.StopsRunning s.asyncworker a
  | .flush _ => True

theorem reachable_draining {built : List FlushType} (hseparate : Separate old (flushTypes built))
    (h : (system cfg type flush_log old built).ReachableBy
      (fun s a => Goes cfg type s a ∧ StopsFlushing s a) s) :
    ∃ handed current waiting, Inv old (flushTypes built) s handed current waiting ∧
      AsyncWorker.Draining type s.asyncworker := by
  apply h.invariant
  · rintro s ⟨b, n, hb, rfl⟩
    exact ⟨[], [], [], start_inv hb n hseparate, AsyncWorker.start_draining hb n⟩
  · rintro s a s' ⟨handed, current, waiting, hinv, hdraining⟩ ⟨hgoes, hstops⟩ hstep
    obtain ⟨handed', current', waiting', hinv'⟩ := step_inv hinv hseparate.sizes hgoes hstep
    refine ⟨handed', current', waiting', hinv', ?_⟩
    obtain ⟨-, hstep⟩ := Option.ite_none_left_eq_some.mp hstep
    cases a with
    | asyncworker a =>
      obtain ⟨-, hstep⟩ := Option.ite_none_right_eq_some.mp hstep
      obtain ⟨w, hw, rfl⟩ := Option.map_eq_some_iff.mp hstep
      exact AsyncWorker.step_draining hdraining hgoes hstops hw
    | flush io =>
      obtain ⟨-, hstep⟩ := Option.ite_none_right_eq_some.mp hstep
      obtain ⟨flush, -, rfl⟩ := Option.map_eq_some_iff.mp hstep
      exact hdraining

/-! ## A run -/

instance (a : AsyncWorker.Action) (w : AsyncWorker.State) :
    Decidable (AsyncWorker.Fits cfg type w a) :=
  decidable_of_iff (∀ p ∈ AsyncWorker.sectionOf w a,
      (type = .asyncSafe → w.stop = false ∧ p.2.length ≤ w.productor.writeableSize) →
      ∀ g ∈ w.productor.toBeEnough cfg p.2.length,
        w.productor.writePos + p.2.length ≤ g.buffer.length) (by
    constructor
    · intro h i data g hsec hsafe hg
      exact h (i, data) hsec hsafe g hg
    · intro h p hsec hsafe g hg
      exact h p.1 p.2 g hsec hsafe hg)

instance (roll : RollFileFlush.State) (chunk : Chunk) (io : FlushIo) :
    Decidable (RollFileFlush.TakesAll roll chunk io) :=
  inferInstanceAs (Decidable (∀ stream ∈ (RollFileFlush.initLogFile roll io).roll.fs_,
    stream.fwrite chunk.data.length io.ready = chunk.data.length))

instance (out : LogOutput) (chunk : Chunk) (io : FlushIo) :
    (flush : LogFlush) → Decidable (flush.Succeeds out chunk io)
  | .stdoutFlush => .isTrue trivial
  | .fileFlush file => inferInstanceAs (Decidable (∀ stream ∈ file.fs_,
    stream.fwrite chunk.data.length io.ready = chunk.data.length))
  | .rollFileFlush roll =>
    inferInstanceAs (Decidable (_ ∧ RollFileFlush.TakesAll (out.rollState roll) chunk io))

instance (s : State) : (a : Action) → Decidable (Goes cfg type s a)
  | .asyncworker a => inferInstanceAs (Decidable (AsyncWorker.Fits cfg type s.asyncworker a))
  | .flush io => inferInstanceAs (Decidable (∀ flush ∈ s.flushes_[s.called]?,
    flush.Succeeds s.out s.asyncworker.consumer.chunk io))

instance (s : State) : (a : Action) → Decidable (StopsFlushing s a)
  | .asyncworker a => inferInstanceAs (Decidable (a = .stopSet →
    s.asyncworker.worker ≠ .loopHead ∨ bytesOf s.asyncworker.accepted = []))
  | .flush _ => .isTrue trivial

/-- A file and a rolled file of at least one byte. -/
def smallBuilt : List FlushType :=
  [.fileFlush (Bytes.ofString "a") (RollFileFlush.secondOfDay false) true,
    .rollFileFlush (Bytes.ofString "b") 1]

/-- The calls succeed. -/
def smallIo : FlushIo := ⟨RollFileFlush.secondOfDay false, true, 4⟩

/-- The first of the two files is there from an earlier run. -/
def smallOld : List LogFile := [⟨Bytes.ofString "a", RollFileFlush.secondOfDay false, 0, [64]⟩]

/-- Two producers push a record each, `stop_` is set, and the worker swaps, flushes and leaves
    its loop. It comes to its first swap by the stop only, so there is one chunk. -/
def smallRun : List Action :=
  [.asyncworker (.worker 0), .asyncworker (.push 0 [65]), .asyncworker (.push 1 [66, 67]),
    .asyncworker .stopSet, .asyncworker (.worker 0), .flush smallIo, .flush smallIo,
    .asyncworker (.worker 0), .asyncworker (.worker 0), .asyncworker (.worker 0),
    .asyncworker (.worker 0)]

theorem separate_small : Separate smallOld (flushTypes smallBuilt) := by
  constructor
  case nodup => decide
  case openedNames => decide
  case sizes =>
    intro filename max_size hmem
    simp [flushTypes, smallBuilt] at hmem
    omega

set_option maxRecDepth 4096 in
theorem reachable_small : ∃ s,
    (system AsyncWorker.smallConfig .asyncSafe 0 smallOld smallBuilt).ReachableBy
      (fun s a => Goes AsyncWorker.smallConfig .asyncSafe s a ∧ StopsFlushing s a) s ∧
    s.asyncworker.worker = .exited ∧ s.asyncworker.accepted = [(0, [65]), (1, [66, 67])] ∧
    s.asyncworker.acceptedBeforeStop = [(0, [65]), (1, [66, 67])] := by
  have hinit : (system AsyncWorker.smallConfig .asyncSafe 0 smallOld smallBuilt).init
      (start smallOld smallBuilt ⟨[0, 0, 0, 0], 0, 0⟩ 2) := ⟨_, 2, rfl, rfl⟩
  have hsteps : (system AsyncWorker.smallConfig .asyncSafe 0 smallOld smallBuilt).AllSteps
      (fun s a => Goes AsyncWorker.smallConfig .asyncSafe s a ∧ StopsFlushing s a)
      (start smallOld smallBuilt ⟨[0, 0, 0, 0], 0, 0⟩ 2) smallRun := by decide +kernel
  have hrun : ((system AsyncWorker.smallConfig .asyncSafe 0 smallOld smallBuilt).run
      (start smallOld smallBuilt ⟨[0, 0, 0, 0], 0, 0⟩ 2) smallRun).any (fun s =>
        s.asyncworker.worker = .exited ∧ s.asyncworker.accepted = [(0, [65]), (1, [66, 67])] ∧
          s.asyncworker.acceptedBeforeStop = [(0, [65]), (1, [66, 67])]) = true := by
    decide +kernel
  obtain ⟨s, hs, hend⟩ := (Option.any_eq_true _ _).mp hrun
  exact ⟨s, ⟨_, smallRun, hinit, hsteps, hs⟩, of_decide_eq_true hend⟩

/-! ## The results -/

/-- In every interleaving in which the records fit and the calls of `Flush` succeed, the
    accepted records are cut, between records, into what was handed over, what the callback is
    at and what waits; the elements of `flushes_` have written what they were given, and a
    record is never in two files of a `RollFileFlush`. -/
theorem outputs_hold_records {built : List FlushType} (hseparate : Separate old (flushTypes built))
    (h : (system cfg type flush_log old built).ReachableBy (Goes cfg type) s) :
    ∃ handed current waiting names,
      Outputs old (flushTypes built) s handed current waiting names := by
  obtain ⟨handed, current, waiting, hinv⟩ := reachable_inv hseparate h
  obtain ⟨names, houtputs⟩ := hinv.outputs
  exact ⟨handed, current, waiting, names, houtputs⟩

theorem outputs_hold_records_small : ∃ (s : State) (handed : List (List (Nat × Bytes)))
    (current waiting : List (Nat × Bytes)) (names : Nat → List Bytes),
    s.asyncworker.accepted = [(0, [65]), (1, [66, 67])] ∧
      Outputs smallOld (flushTypes smallBuilt) s handed current waiting names := by
  obtain ⟨s, ⟨s₀, as, hinit, hsteps, hrun⟩, -, haccepted, -⟩ := reachable_small
  obtain ⟨handed, current, waiting, names, houtputs⟩ := outputs_hold_records separate_small
    ⟨s₀, as, hinit, ((Transition.allSteps_and _).mp hsteps).1, hrun⟩
  exact ⟨s, handed, current, waiting, names, haccepted, houtputs⟩

/-- When the worker has exited, every output has what was accepted before the stop. In
    `ASYNC_SAFE` mode it has nothing else. -/
theorem outputs_complete {built : List FlushType} (hseparate : Separate old (flushTypes built))
    (h : (system cfg type flush_log old built).ReachableBy
      (fun s a => Goes cfg type s a ∧ StopsFlushing s a) s)
    (hexited : s.asyncworker.worker = .exited) :
    ∃ (records : List (Nat × Bytes)) (names : Nat → List Bytes),
      records <+: s.asyncworker.accepted ∧
      bytesOf s.asyncworker.acceptedBeforeStop <+: bytesOf records ∧
      (type = .asyncSafe → bytesOf records = bytesOf s.asyncworker.acceptedBeforeStop) ∧
      (∀ k ftype, (flushTypes built)[k]? = some ftype →
        Logged old s.out.files (names k) ftype records) ∧
      (stdoutCount (flushTypes built) = 1 → s.out.cout = bytesOf records) := by
  obtain ⟨handed, current, waiting, hinv, hdraining⟩ := reachable_draining hseparate h
  obtain ⟨names, houtputs⟩ := hinv.outputs
  have hcurrent : current = [] := hinv.cut.idle (by simp [hexited])
  have hcalled : s.called = 0 := hinv.called_eq (by simp [hexited])
  have hflushed : s.asyncworker.flushed = bytesOf handed.flatten := hinv.cut.flushed
  refine ⟨handed.flatten, names, ?_, ?_, ?_, ?_, ?_⟩
  · rw [houtputs.accepted, List.append_assoc]
    exact List.prefix_append _ _
  · rw [← hflushed]
    exact (hdraining.drained hexited).1
  · rintro rfl
    rw [← hflushed, hdraining.flushed_eq hexited]
  · intro k ftype hftype
    have hlogged := houtputs.logged k ftype hftype
    simpa [hcalled] using hlogged
  · intro hone
    rw [houtputs.cout, hcalled, coutOf_of_one hone]

theorem outputs_complete_small : ∃ (s : State) (records : List (Nat × Bytes))
    (names : Nat → List Bytes), bytesOf records = [65, 66, 67] ∧
    ∀ k ftype, (flushTypes smallBuilt)[k]? = some ftype →
      Logged smallOld s.out.files (names k) ftype records := by
  obtain ⟨s, hreach, hexited, -, hbefore⟩ := reachable_small
  obtain ⟨records, names, -, -, hbytes, hlogged, -⟩ :=
    outputs_complete separate_small hreach hexited
  refine ⟨s, records, names, ?_, hlogged⟩
  rw [hbytes rfl, hbefore]
  rfl

end Mylog.LogPipeline
