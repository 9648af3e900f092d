import AsyncLogStorage.Native.AsyncLogger
import AsyncLogStorage.Native.BackupServer

/-!
# From the logger to the backup server

The logger with its pool, and the backup server. The task of a record is `send_backlog`: a
worker that runs it is a client of the server until `send_backlog` comes back, and only then the
task is completed.

* What a server sees of a client whose process `std::terminate` has ended is left out.
-/

namespace Mylog.BackupChain

open BackupLog (Connection TcpServer.FileAction)

structure State where
  logger : AsyncLogger.State
  server : BackupLog.TcpServer.State
  /-- The call whose record client `j` sends. -/
  owners : List Nat
  /-- The workers that are in `send_backlog`, each with its client. -/
  sending : List (Nat × Nat)

inductive Action where
  /-- A step of the logger or its pool. -/
  | logger (a : AsyncLogger.Action)
  /-- A worker that has its task calls `send_backlog`. -/
  | send (tid : Nat) (c : Connection)
  /-- A step of a client, the network or `service`. -/
  | link (j : Nat) (a : BackupLog.Action)
  /-- A step of a thread of the server in `backup_log`. -/
  | backup (j : Nat) (a : TcpServer.FileAction)

/-- A step of the client. -/
def ofClient : BackupLog.Action → Bool
  | .connect _ => true
  | .write _ => true
  | .close => true
  | _ => false

/-- The client has come back from `send_backlog`. -/
def State.isBack (s : State) (j : Nat) : Bool :=
  (s.server.peers[j]?).any fun peer => peer.ends.sender == .returned

/-- A worker in its task waits for `send_backlog`. -/
def State.mayStep (s : State) : AsyncLogger.Action → Bool
  | .worker tid =>
    match s.logger.pool.workers[tid]? with
    | some (.running _) => (s.sending.lookup tid).any s.isBack
    | _ => true
  | _ => true

/-- A worker that goes on is not in `send_backlog` any more. -/
def State.stillSending (s : State) : AsyncLogger.Action → List (Nat × Nat)
  | .worker tid => s.sending.filter (·.1 != tid)
  | _ => s.sending

def step (s : State) : Action → Option State
  | .logger a =>
    if s.mayStep a then
      (AsyncLogger.step s.logger a).map fun logger =>
        { s with logger := logger, sending := s.stillSending a }
    else none
  | .send tid c =>
    match s.logger.pool.workers[tid]? with
    | some (.running task) =>
      if s.logger.pool.dtor ≠ .terminated ∧ s.sending.lookup tid = none ∧
          (s.logger.calls[task.id]?).map (·.logmessage.format) = some c.message then
        (BackupLog.TcpServer.step s.server (.client c)).map fun server =>
          { s with
            server := server
            owners := s.owners ++ [task.id]
            sending := (tid, s.server.peers.length) :: s.sending }
      else none
    | _ => none
  | .link j a =>
    if s.logger.pool.dtor = .terminated ∧ ofClient a then none
    else
      (BackupLog.TcpServer.step s.server (.link j a)).map fun server =>
        { s with server := server }
  | .backup j a =>
    (BackupLog.TcpServer.step s.server (.backup j a)).map fun server =>
      { s with server := server }

/-- Nobody has called `serialize`, and nobody has connected. -/
def start (min max exitThread : Int) (file : Bytes) : State where
  logger := AsyncLogger.start min max exitThread
  server := BackupLog.TcpServer.start file
  owners := []
  sending := []

/-- The log file of the server holds `file` at the start. -/
def system (min max exitThread : Int) (file : Bytes) : Transition State Action where
  init s := s = start min max exitThread file
  step := step

end Mylog.BackupChain
