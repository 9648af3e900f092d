import AsyncLogStorage.Native.AsyncWorker
import AsyncLogStorage.Native.LogFlush

/-!
# A logger from its producers to its files

`LoggerBuilder` and `AsyncLogger::RealFlush` of `AsyncLogger.hpp`, over the classes of
`LogFlush.hpp`: the callback of the `AsyncWorker` hands the consumer buffer to the elements of
`flushes_`, one after the other, while the producers go on.

* The files are those of one directory, whoever writes them. The directories that
  `FileFlush` creates are left out.
* A file is what `fwrite` took for it. How far these bytes get is the subject of `LogDisk`.
* `std::cout` takes everything.
-/

namespace Mylog

/-- The consumer buffer as the arguments of a `Flush`. -/
def Buffer.chunk (b : Buffer) : Chunk where
  data := b.readable
  length_lt := by
    have hlt : b.readableSize < SizeT.modulus := Nat.mod_lt _ (by decide)
    have hle := List.length_take_le b.readableSize (b.buffer.drop b.readPos)
    exact Nat.lt_of_le_of_lt hle hlt

/-- What the classes write to. -/
structure LogOutput where
  files : List LogFile
  cout : Bytes
  /-- The calls made so far, as in `RollFileFlush.State`. -/
  calls : List (StdioCall × Option Bytes)
  /-- A null stream has ended the process. -/
  crashed : Bool
deriving DecidableEq, Repr

/-! ## The classes of `LogFlush` -/

/-- The constructor. -/
def FileFlush.new (files : List LogFile) (filename : Bytes) (now : LocalTime) (opens : Bool) :
    List LogFile × FileFlush :=
  let opened := fopen files filename.cstr now 0
  if opens then (opened.1, ⟨filename, some opened.2⟩) else (files, ⟨filename, none⟩)

/-- `Flush`, which does nothing where `fopen` has failed. -/
def FileFlush.flush (flush_log : Nat) (file : FileFlush) (out : LogOutput) (chunk : Chunk)
    (ready : Nat) : FileFlush × LogOutput :=
  match file.fs_ with
  | none => (file, out)
  | some stream =>
    let count := stream.fwrite chunk.data.length ready
    ({ file with fs_ := some { stream with written := stream.written + count } },
      { out with
        files := appendTo stream.name (chunk.data.take count) out.files
        calls := out.calls ++ file.flushCalls flush_log chunk ready })

/-- An object of a class that is a `LogFlush`. -/
inductive LogFlush where
  | stdoutFlush
  | fileFlush (file : FileFlush)
  | rollFileFlush (roll : RollFileFlush)
deriving DecidableEq, Repr

/-- A `RollFileFlush` and what it writes to. -/
def LogOutput.rollState (out : LogOutput) (roll : RollFileFlush) : RollFileFlush.State where
  files := out.files
  roll := roll
  calls := out.calls
  crashed := out.crashed

/-- The virtual function `Flush`. -/
def LogFlush.flush (flush_log : Nat) (out : LogOutput) (chunk : Chunk) (io : FlushIo) :
    LogFlush → LogFlush × LogOutput
  | .stdoutFlush => (.stdoutFlush, { out with cout := out.cout ++ chunk.data })
  | .fileFlush file =>
    let after := file.flush flush_log out chunk io.ready
    (.fileFlush after.1, after.2)
  | .rollFileFlush roll =>
    let after := RollFileFlush.flush flush_log (out.rollState roll) chunk io
    (.rollFileFlush after.roll,
      { out with files := after.files, calls := after.calls, crashed := after.crashed })

/-! ## `LoggerBuilder` -/

/-- The argument of a `BuildLoggerFlush`: the class, and what its constructor gets and finds. -/
inductive FlushType where
  | stdoutFlush
  | fileFlush (filename : Bytes) (now : LocalTime) (opens : Bool)
  | rollFileFlush (filename : Bytes) (max_size : Nat)
deriving DecidableEq, Repr

/-- `LogFlushFactory::CreateLogFlush`. -/
def FlushType.create (files : List LogFile) : FlushType → List LogFile × LogFlush
  | .stdoutFlush => (files, .stdoutFlush)
  | .fileFlush filename now opens =>
    let created := FileFlush.new files filename now opens
    (created.1, .fileFlush created.2)
  | .rollFileFlush filename max_size => (files, .rollFileFlush (.new filename max_size))

/-- The objects of a sequence of `BuildLoggerFlush`. -/
def buildLoggerFlush (files : List LogFile) : List FlushType → List LogFile × List LogFlush
  | [] => (files, [])
  | type :: types =>
    let created := type.create files
    let rest := buildLoggerFlush created.1 types
    (rest.1, created.2 :: rest.2)

/-- What `Build` makes of the calls of `BuildLoggerFlush` before it. -/
def flushTypes (built : List FlushType) : List FlushType :=
  if built.isEmpty then [.stdoutFlush] else built

/-! ## The logger at work -/

namespace LogPipeline

structure State where
  asyncworker : AsyncWorker.State
  flushes_ : List LogFlush
  out : LogOutput
  /-- The number of elements of `flushes_` that the `RealFlush` at work has called. -/
  called : Nat
deriving DecidableEq, Repr

inductive Action where
  /-- A step of the producers, of the worker thread or of the caller of `Stop`. -/
  | asyncworker (a : AsyncWorker.Action)
  /-- `RealFlush` calls the next element of `flushes_`. -/
  | flush (io : FlushIo)
deriving DecidableEq, Repr

/-- The worker thread leaves its callback when `RealFlush` has called every element. -/
def mayStep (s : State) : AsyncWorker.Action → Bool
  | .worker _ => s.asyncworker.worker != .callback || s.called == s.flushes_.length
  | _ => true

def step (cfg : LogConfig) (type : AsyncType) (flush_log : Nat) (s : State) (a : Action) :
    Option State :=
  if s.out.crashed then none
  else
    match a with
    | .asyncworker a =>
      if mayStep s a then
        (AsyncWorker.step cfg type s.asyncworker a).map fun worker =>
          { s with
            asyncworker := worker
            called := if worker.worker = .callback then s.called else 0 }
      else none
    | .flush io =>
      if s.asyncworker.worker = .callback then
        (s.flushes_[s.called]?).map fun flush =>
          let after := flush.flush flush_log s.out s.asyncworker.consumer.chunk io
          { s with
            flushes_ := s.flushes_.set s.called after.1
            out := after.2
            called := s.called + 1 }
      else none

/-- The logger that `Build` makes in a directory with some files, for `n` producers. -/
def start (files : List LogFile) (built : List FlushType) (b : Buffer) (n : Nat) : State where
  asyncworker := AsyncWorker.start b n
  flushes_ := (buildLoggerFlush files (flushTypes built)).2
  out :=
    { files := (buildLoggerFlush files (flushTypes built)).1
      cout := []
      calls := []
      crashed := false }
  called := 0

/-- A logger of the given type that writes to what was built. -/
def system (cfg : LogConfig) (type : AsyncType) (flush_log : Nat) (files : List LogFile)
    (built : List FlushType) : Transition State Action where
  init s := ∃ b n, Buffer.new cfg = some b ∧ s = start files built b n
  step := step cfg type flush_log

end LogPipeline

end Mylog
