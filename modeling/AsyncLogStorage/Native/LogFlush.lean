import AsyncLogStorage.ForStd.Bytes
import AsyncLogStorage.ForStd.LocalTime
import AsyncLogStorage.ForStd.SizeT
import AsyncLogStorage.ForStd.Transition

/-!
# Log files

`RollFileFlush` and `FileFlush` of `LogFlush.hpp`, over a directory of files that stay there
when the process ends.

* What `fopen` and `fwrite` do is told by the action: whether the file is opened, and how many
  bytes are taken.
* To pass a null stream to a function of `<stdio.h>` is undefined, so it ends the process.
* The messages that an error prints are left out.
-/

namespace Mylog

/-- The name that `CreateLogFileName` makes, from the counter it finds in `cnt_`. -/
def createLogFileName (basename_ : Bytes) (t : LocalTime) (cnt_ : Nat) : Bytes :=
  basename_ ++ Bytes.ofString (toString (t.tm_year + 1900)) ++
    Bytes.ofString (toString (t.tm_mon + 1)) ++ Bytes.ofString (toString t.tm_mday) ++
    Bytes.ofString (toString (t.tm_hour + 1)) ++ Bytes.ofString (toString (t.tm_min + 1)) ++
    (Bytes.ofString (toString (t.tm_sec + 1)) ++ Bytes.ofString "-" ++
      Bytes.ofString (toString cnt_) ++ Bytes.ofString ".log")

/-! ## Files and streams -/

structure LogFile where
  name : Bytes
  /-- The local time at which it was created. -/
  created : LocalTime
  /-- The counter in its name. -/
  number : Nat
  /-- What `fwrite` took, whether or not it has left the buffer of the stream. -/
  content : Bytes
deriving DecidableEq, Repr

/-- A `FILE *` that is not null, opened with `"ab"`. -/
structure Stream where
  name : Bytes
  /-- The local time of the `fopen`. -/
  opened : LocalTime
  /-- The local time at which the file was created. -/
  created : LocalTime
  /-- The size of the file when it was opened. -/
  base : Nat
  /-- The number of bytes written since. -/
  written : Nat
deriving DecidableEq, Repr

/-- The largest `off_t`. -/
def maxFileSize : Nat := 9223372036854775807

/-- What `fwrite` returns for `len` bytes, if the system is ready to take `ready` of them: no
    file grows past the largest `off_t`. -/
def Stream.fwrite (stream : Stream) (len ready : Nat) : Nat :=
  min ready (min len (maxFileSize - stream.written))

theorem Stream.fwrite_le (stream : Stream) (len ready : Nat) : stream.fwrite len ready ≤ len := by
  unfold Stream.fwrite
  omega

/-- What `fwrite` takes fits into the file. -/
theorem Stream.add_fwrite_le (stream : Stream) (len ready : Nat)
    (h : stream.written ≤ maxFileSize) :
    stream.written + stream.fwrite len ready ≤ maxFileSize := by
  unfold Stream.fwrite
  omega

/-- The content of the file of a name; an absent one has none. -/
def contentOf (files : List LogFile) (name : Bytes) : Bytes :=
  ((files.find? (·.name = name)).map (·.content)).getD []

/-- `fopen(name, "ab")`, where it does not fail: a file of that name is opened as it is. The name
    is a C string, so callers cut theirs at the first NUL. -/
def fopen (files : List LogFile) (name : Bytes) (now : LocalTime) (number : Nat) :
    List LogFile × Stream :=
  match files.find? (·.name = name) with
  | some file => (files, ⟨name, now, file.created, file.content.length, 0⟩)
  | none => (files ++ [⟨name, now, number, []⟩], ⟨name, now, now, 0, 0⟩)

/-- `bytes` at the end of the file called `name`. -/
def appendTo (name bytes : Bytes) (files : List LogFile) : List LogFile :=
  files.map fun file =>
    if file.name = name then { file with content := file.content ++ bytes } else file

theorem appendTo_append (name bytes : Bytes) (files files' : List LogFile) :
    appendTo name bytes (files ++ files') =
      appendTo name bytes files ++ appendTo name bytes files' :=
  List.map_append

/-- Files of other names stay as they are. -/
theorem appendTo_eq_self {name : Bytes} {files : List LogFile} (bytes : Bytes)
    (h : ∀ file ∈ files, file.name ≠ name) : appendTo name bytes files = files := by
  unfold appendTo
  induction files with
  | nil => rfl
  | cons file files ih =>
    rw [List.map_cons, if_neg (h file List.mem_cons_self),
      ih fun f hf => h f (List.mem_cons_of_mem file hf)]

theorem appendTo_singleton (file : LogFile) (bytes : Bytes) :
    appendTo file.name bytes [file] = [{ file with content := file.content ++ bytes }] := by
  simp only [appendTo, List.map_cons, ↓reduceIte, List.map_nil]

/-- No file of that name is there, so `fopen` creates one. -/
theorem fopen_of_fresh {files : List LogFile} {name : Bytes} (now : LocalTime) (number : Nat)
    (h : ∀ file ∈ files, file.name ≠ name) :
    fopen files name now number =
      (files ++ [⟨name, now, number, []⟩], ⟨name, now, now, 0, 0⟩) := by
  have hfind : files.find? (·.name = name) = none := by
    rw [List.find?_eq_none]
    intro file hfile
    simpa only [decide_eq_true_eq] using h file hfile
  simp only [fopen, hfind]

/-- The functions that are called with the stream, or with its descriptor. -/
inductive StdioCall where
  | fwrite
  | ferror
  | fflush
  | fileno
  | fsync
deriving DecidableEq, Repr

/-- The arguments of a `Flush`. -/
structure Chunk where
  data : Bytes
  length_lt : data.length < SizeT.modulus
deriving DecidableEq, Repr

/-- What the system does in a `Flush`. -/
structure FlushIo where
  now : LocalTime
  /-- Whether `fopen` succeeds. -/
  opens : Bool
  /-- The number of bytes that `fwrite` could take. -/
  ready : Nat
deriving DecidableEq, Repr

/-- `flush_log == 1` flushes the buffer, `flush_log == 2` also synchronises the file. -/
def flushLogCalls (flush_log : Nat) : List StdioCall :=
  if flush_log = 1 then [.fflush]
  else if flush_log = 2 then [.fflush, .fileno, .fsync]
  else []

/-! ## `RollFileFlush` -/

structure RollFileFlush where
  fs_ : Option Stream
  max_size_ : Nat
  cur_size_ : Nat
  cnt_ : Nat
  basename_ : Bytes
deriving DecidableEq, Repr

namespace RollFileFlush

/-- The constructor. -/
def new (basename_ : Bytes) (max_size_ : Nat) : RollFileFlush where
  fs_ := none
  max_size_ := max_size_
  cur_size_ := 0
  cnt_ := 1
  basename_ := basename_

/-- The condition of `InitLogFile`. -/
def needsFile (roll : RollFileFlush) : Prop :=
  roll.fs_ = none ∨ roll.max_size_ ≤ roll.cur_size_

instance (roll : RollFileFlush) : Decidable roll.needsFile := by
  unfold needsFile
  infer_instance

/-- The name of the next file, as far as `fopen` gets it with `filename.c_str()`. -/
def nextName (roll : RollFileFlush) (now : LocalTime) : Bytes :=
  (createLogFileName roll.basename_ now roll.cnt_).cstr

structure State where
  /-- The files, in the order in which they were created. -/
  files : List LogFile
  roll : RollFileFlush
  /-- The calls made so far, and the names of the files behind their streams, `none` for a null
      stream. -/
  calls : List (StdioCall × Option Bytes)
  /-- A null stream has ended the process. -/
  crashed : Bool
deriving DecidableEq, Repr

inductive Action where
  | flush (chunk : Chunk) (io : FlushIo)
  /-- The process ends, and the next one makes a new object. -/
  | restart
deriving DecidableEq, Repr

def initLogFile (s : State) (io : FlushIo) : State :=
  if s.roll.needsFile then
    let opened := fopen s.files (s.roll.nextName io.now) io.now s.roll.cnt_
    { s with
      files := if io.opens then opened.1 else s.files
      roll := { s.roll with
        fs_ := if io.opens then some opened.2 else none
        cur_size_ := 0
        cnt_ := SizeT.add s.roll.cnt_ 1 } }
  else s

/-- `Flush` behind `InitLogFile`. -/
def write (flush_log : Nat) (s : State) (chunk : Chunk) (ready : Nat) : State :=
  match s.roll.fs_ with
  | none => { s with calls := s.calls ++ [(.fwrite, none)], crashed := true }
  | some stream =>
    let count := stream.fwrite chunk.data.length ready
    { s with
      files := appendTo stream.name (chunk.data.take count) s.files
      roll := { s.roll with
        fs_ := some { stream with written := stream.written + count }
        -- the count that `fwrite` returns is not looked at
        cur_size_ := SizeT.add s.roll.cur_size_ chunk.data.length }
      calls := s.calls ++
        (.fwrite :: .ferror :: flushLogCalls flush_log).map (·, some stream.name) }

def flush (flush_log : Nat) (s : State) (chunk : Chunk) (io : FlushIo) : State :=
  write flush_log (initLogFile s io) chunk io.ready

def step (flush_log : Nat) (s : State) (a : Action) : Option State :=
  match a with
  | .flush chunk io => some (if s.crashed then s else flush flush_log s chunk io)
  | .restart => some { s with roll := new s.roll.basename_ s.roll.max_size_, crashed := false }

/-- A new object, in a directory with some files. -/
def start (basename_ : Bytes) (max_size_ : Nat) (files : List LogFile) : State where
  files := files
  roll := new basename_ max_size_
  calls := []
  crashed := false

/-- The log files of a program that may be started again and again. -/
def system (basename_ : Bytes) (max_size_ flush_log : Nat) (files : List LogFile) :
    Transition State Action where
  init s := s = start basename_ max_size_ files
  step := step flush_log

end RollFileFlush

/-! ## `FileFlush` -/

structure FileFlush where
  filename_ : Bytes
  fs_ : Option Stream
deriving DecidableEq, Repr

/-- The calls that `FileFlush::Flush` makes: nothing is called where `fopen` has failed, and
    `ferror` only where `fwrite` took everything. -/
def FileFlush.flushCalls (flush_log : Nat) (file : FileFlush) (chunk : Chunk) (ready : Nat) :
    List (StdioCall × Option Bytes) :=
  match file.fs_ with
  | none => []
  | some stream =>
    let full := stream.fwrite chunk.data.length ready = chunk.data.length
    let calls := [StdioCall.fwrite] ++ (if full then [.ferror] else []) ++ flushLogCalls flush_log
    calls.map (·, some stream.name)

end Mylog
