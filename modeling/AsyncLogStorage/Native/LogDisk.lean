import AsyncLogStorage.Native.LogPipeline

/-!
# Log files when the process or the machine stops

A `FileFlush` or a `RollFileFlush` of `LogFlush.hpp`, one call of `<stdio.h>` after the other,
with the three places a byte of a log goes through: the buffer of the stream, the system, and
the disk.

* `fwrite` writes to the buffer. The buffer goes to the system with `fflush` and `fclose`, and
  from time to time by itself; `fsync` brings to the disk what the system has of the file.
* A process that is killed loses its buffer. A power cut leaves of a file what is on the disk,
  and behind it whatever of the rest the system happened to bring there.
* `fsync` says nothing about the entry of the file in its directory. The system writes the entry
  some time, and without it there is no file after a power cut.
* `FileFlush` does not keep its stream after `fopen` has failed; `RollFileFlush` uses the null
  stream, which ends the process.
-/

namespace Mylog

/-- The open stream. -/
def LogFlush.stream : LogFlush → Option Stream
  | .stdoutFlush => none
  | .fileFlush file => file.fs_
  | .rollFileFlush roll => roll.fs_

/-- Whether the next `Flush` closes the stream to open another file. -/
def LogFlush.replaces : LogFlush → Bool
  | .stdoutFlush => false
  | .fileFlush _ => false
  | .rollFileFlush roll => decide roll.needsFile

namespace LogDisk

structure State where
  /-- The object of the process, if one is running. -/
  flush : Option LogFlush
  /-- The files with everything that `fwrite` took. -/
  files : List LogFile
  /-- How many bytes of a file the system has. -/
  kernel : Bytes → Nat
  /-- How many bytes of a file are on the disk. -/
  disk : Bytes → Nat
  /-- Whether the entry of a file is on the disk. -/
  linked : Bytes → Bool
  /-- The calls that the `Flush` at work has still to make. -/
  pending : List StdioCall

/-- The open stream of the process. -/
def State.stream (s : State) : Option Stream :=
  s.flush.bind LogFlush.stream

def fileSize (files : List LogFile) (name : Bytes) : Nat :=
  (contentOf files name).length

inductive Action where
  /-- A process begins, with an object made like this. -/
  | start (type : FlushType)
  /-- A `Flush` up to its `fwrite`; `closes` is whether its `fclose` succeeds, if it calls it. -/
  | flush (chunk : Chunk) (io : FlushIo) (closes : Bool)
  /-- The next call of the `Flush`, and whether it succeeds. -/
  | call (ok : Bool)
  /-- Some bytes go from the buffer to the system. -/
  | spill (n : Nat)
  /-- The entry of a file gets to the disk. -/
  | link (name : Bytes)
  /-- The process returns from `main`, where the destructor closes the stream. -/
  | exit (closes : Bool)
  | kill
  /-- Behind what is on the disk of a file, there are these bytes. -/
  | powerCut (rest : Bytes → Bytes)

/-- The files, cut to these sizes. -/
def cut (size : Bytes → Nat) (files : List LogFile) : List LogFile :=
  files.map fun file => { file with content := file.content.take (size file.name) }

/-- `fflush` hands the buffer to the system. -/
def State.fflush (s : State) (name : Bytes) : State :=
  { s with kernel := Function.update s.kernel name (fileSize s.files name) }

/-- `fsync` writes what the system has. -/
def State.fsync (s : State) (name : Bytes) : State :=
  { s with disk := Function.update s.disk name (s.kernel name) }

/-- What is in a buffer is lost. -/
def State.drop (s : State) : State :=
  { s with files := cut s.kernel s.files }

/-- `fclose` hands the buffer to the system. Where it cannot, the buffer is gone, too. -/
def State.fclose (s : State) (closes : Bool) : State :=
  match s.stream with
  | none => s
  | some stream => if closes then s.fflush stream.name else s.drop

/-- There is no process any more. -/
def State.ended (s : State) : State :=
  { s with flush := none, pending := [] }

/-- `Flush` behind its `fclose`, up to its `fwrite`. -/
def State.write (flush_log : Nat) (s : State) (flush : LogFlush) (chunk : Chunk) (io : FlushIo) :
    State :=
  let after := flush.flush flush_log ⟨s.files, [], [], false⟩ chunk io
  { s with
    flush := if after.2.crashed then none else some after.1
    files := after.2.files
    pending := if after.1.stream.isSome then flushLogCalls flush_log else [] }

/-- A call of a function that succeeds. -/
def State.call (s : State) (name : Bytes) : StdioCall → State
  | .fflush => s.fflush name
  | .fsync => s.fsync name
  | _ => s

/-- What a power cut leaves. -/
def State.cutPower (s : State) (rest : Bytes → Bytes) : State :=
  let files := (s.files.filter fun file => s.linked file.name).map fun file =>
    { file with content := file.content.take (s.disk file.name) ++ rest file.name }
  { s.ended with
    files := files
    kernel := fileSize files
    disk := fileSize files }

def step (flush_log : Nat) (s : State) (a : Action) : Option State :=
  match a with
  | .start type =>
    if s.flush.isNone then
      let created := type.create s.files
      some { s with flush := some created.2, files := created.1 }
    else none
  | .flush chunk io closes =>
    match s.flush with
    | none => none
    | some flush =>
      if s.pending = [] then
        let closed := if flush.replaces then s.fclose closes else s
        some (closed.write flush_log flush chunk io)
      else none
  | .call ok =>
    match s.stream, s.pending with
    | some stream, call :: calls =>
      some { (if ok then s.call stream.name call else s) with pending := calls }
    | _, _ => none
  | .spill n =>
    s.stream.map fun stream =>
      { s with
        kernel := Function.update s.kernel stream.name
          (min (s.kernel stream.name + n) (fileSize s.files stream.name)) }
  | .link name =>
    if ∃ file ∈ s.files, file.name = name then
      some { s with linked := Function.update s.linked name true }
    else none
  | .exit closes =>
    if s.flush.isSome ∧ s.pending = [] then some (s.fclose closes).ended else none
  | .kill => if s.flush.isSome then some s.drop.ended else none
  | .powerCut rest => some (s.cutPower rest)

/-- No process yet, and some files that are on the disk. -/
def start (files : List LogFile) : State where
  flush := none
  files := files
  kernel := fileSize files
  disk := fileSize files
  linked name := decide (∃ file ∈ files, file.name = name)
  pending := []

/-- The processes that write logs to a directory, one after the other. -/
def system (flush_log : Nat) (files : List LogFile) : Transition State Action where
  init s := s = start files
  step := step flush_log

end LogDisk

end Mylog
