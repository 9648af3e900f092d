import AsyncLogStorage.Native.BackupLog

/-!
# The backup server and its file

`TcpServer::start_service` and `threadRoutine` of `ServerBackupLog.hpp` with `backup_log` of
`ServerBackupLog.cpp`: any number of clients, and a thread for each connection that runs
`service` and, in its callback, appends to the one `logfile.log`.

* Each thread has a stream of its own on the file, and the streams append. What a stream has
  buffered goes to the file in one or more calls of `write`, and other threads may write
  between two of them.
* A failed assertion ends the process and so all its threads.
* A store past the end of `buf` is undefined, whatever the built program goes on to do, so the
  runs of the model end there as well.
-/

namespace BackupLog.TcpServer

/-- Where the thread of a connection is. -/
inductive ThreadPc where
  /-- In `service`, or not created yet. -/
  | service
  /-- In `backup_log`, before its `fopen`. -/
  | fopen (message : Bytes)
  /-- In its `fwrite` and `fflush`, with the bytes that are not in the file yet. -/
  | write (left : Bytes)
  | returned
deriving DecidableEq, Repr

/-- A client, its connection, and the thread for it. -/
structure Peer where
  connection : Connection
  ends : BackupLog.State
  thread : ThreadPc

structure State where
  peers : List Peer
  /-- What `logfile.log` holds. -/
  file : Bytes
  aborted : Bool

/-- What happens to a thread in `backup_log`. -/
inductive FileAction where
  | fopen (ok : Bool)
  /-- A `write` to the file takes the next `n` bytes, or it fails inside `fflush`. -/
  | write (n : Option Nat)
  /-- It fails inside `fwrite`. -/
  | fwriteFails
  | fclose
deriving DecidableEq, Repr

inductive Action where
  /-- A call of `send_backlog`. -/
  | client (c : Connection)
  /-- A step of a client, the network or `service`. -/
  | link (i : Nat) (a : BackupLog.Action)
  /-- A step of a thread in `backup_log`. -/
  | backup (i : Nat) (a : FileAction)

/-- A step that the server has a part in. -/
def needsServer : BackupLog.Action → Bool
  | .connect established => established
  | .read _ => true
  | _ => false

/-- Where a thread that was in `service` is then. -/
def afterService (ends : BackupLog.State) : ThreadPc :=
  match ends.calls with
  | m :: _ => .fopen m
  | [] => if ends.service = .returned then .returned else .service

/-- Peer `i` goes on. -/
def State.goto (s : State) (i : Nat) (peer : Peer) (thread : ThreadPc) : State :=
  { s with peers := s.peers.set i { peer with thread := thread } }

/-- A step of `backup_log`. -/
def fileStep (s : State) (i : Nat) (peer : Peer) (a : FileAction) : Option State :=
  match peer.thread, a with
  | .fopen m, .fopen true => some (s.goto i peer (.write m))
  | .fopen _, .fopen false => some { s with aborted := true }
  | .write left, .write (some n) =>
    if 0 < n ∧ n ≤ left.length then
      some { s.goto i peer (.write (left.drop n)) with file := s.file ++ left.take n }
    else none
  -- nobody looks at what `fflush` returns
  | .write _, .write none => some (s.goto i peer .returned)
  | .write _, .fwriteFails => some { s with aborted := true }
  | .write [], .fclose => some (s.goto i peer .returned)
  | _, _ => none

def step (s : State) : Action → Option State
  | .client c => some { s with peers := s.peers ++ [⟨c, BackupLog.start, .service⟩] }
  | .link i a => do
    let peer ← s.peers[i]?
    if s.aborted ∧ needsServer a then none
    else
      let ends ← BackupLog.step peer.connection peer.ends a
      let thread := if peer.thread = .service then afterService ends else peer.thread
      some { s with
        peers := s.peers.set i { peer with ends := ends, thread := thread }
        aborted := s.aborted || ends.service == .overrun }
  | .backup i a => do
    let peer ← s.peers[i]?
    if s.aborted then none else fileStep s i peer a

/-- Nobody has connected yet. -/
def start (file : Bytes) : State where
  peers := []
  file := file
  aborted := false

/-- The server on a file with the content `file`. -/
def system (file : Bytes) : Transition State Action where
  init s := s = start file
  step := step

end BackupLog.TcpServer
