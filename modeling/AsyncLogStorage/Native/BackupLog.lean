import AsyncLogStorage.ForStd.Bytes
import AsyncLogStorage.ForStd.List
import AsyncLogStorage.ForStd.Transition

/-!
# The remote backup of a record

`send_backlog` of `SendBackupLog.hpp` and `TcpServer::service` of `ServerBackupLog.hpp`
as the two ends of one TCP connection.

* Each call of `connect`, `write`, `close` and `read` is a step. The ends share nothing
  but the connection, so what `service` does behind its `read` belongs to that step.
* What `write` has accepted is in flight until the network delivers it, in order and in
  pieces of any length.
* `write` accepts any non-empty part of what it gets, and `read` returns any non-empty part
  of what has arrived, up to the size of the buffer. Once the sender has closed and
  everything is read, `read` returns 0. Both may fail.
-/

namespace BackupLog

/-- `sizeof(buf)`. -/
def bufSize : Nat := 1024

/-- What the two ends start from. -/
structure Connection where
  message : Bytes
  client_info : Bytes
  /-- What `char buf[1024]` holds before `read`. Nothing initialises it. -/
  buf : Bytes
  buf_length : buf.length = bufSize

/-- Where the sender is in `send_backlog`. -/
inductive SenderPc where
  /-- At `connect`, with what is left in `cnt`. -/
  | connect (cnt : Int)
  | write
  | close
  | returned
deriving DecidableEq, Repr

/-- Where the server's thread for the connection is in `service`. -/
inductive ServicePc where
  /-- There is no connection yet. -/
  | notStarted
  /-- At `read`. -/
  | reading
  | returned
  /-- It has stored past the end of `buf`, which is undefined, so nothing is said of what it does
      then. -/
  | overrun
deriving DecidableEq, Repr

structure State where
  sender : SenderPc
  /-- The bytes that `write` has accepted and the network has not delivered yet. -/
  inFlight : Bytes
  /-- The bytes that `read` can return. -/
  arrived : Bytes
  service : ServicePc
  /-- The arguments of the calls of `func_`. -/
  calls : List Bytes
deriving DecidableEq, Repr

inductive Action where
  | connect (established : Bool)
  /-- `write` accepts the first `n` bytes, or fails. -/
  | write (n : Option Nat)
  | close
  /-- The network delivers the next `n` bytes. -/
  | deliver (n : Nat)
  /-- `read` returns the next `n` bytes, or fails. -/
  | read (n : Option Nat)
deriving DecidableEq, Repr

/-- `read` may return this. -/
def Readable (s : State) : Option Nat → Prop
  | none => True
  | some 0 => s.sender = .returned ∧ s.inFlight = [] ∧ s.arrived = []
  | some (n + 1) => n + 1 ≤ bufSize ∧ n + 1 ≤ s.arrived.length

instance (s : State) : (n : Option Nat) → Decidable (Readable s n)
  | none => inferInstanceAs (Decidable True)
  | some 0 => inferInstanceAs (Decidable (_ ∧ _))
  | some (_ + 1) => inferInstanceAs (Decidable (_ ∧ _))

/-- `service` behind its `read`, which has stored `data` into `buf` or failed. -/
def service (c : Connection) (s : State) : Option Bytes → State
  | none => { s with service := .returned }
  | some data =>
    if 0 < data.length then
      let buf := c.buf.overwrite 0 data
      -- `buf[r_ret] = 0`
      if data.length < buf.length then
        let tmp := Bytes.cstr (buf.set data.length 0)
        { s with service := .returned, calls := s.calls ++ [c.client_info ++ tmp] }
      else
        { s with service := .overrun }
    else
      { s with service := .returned }

def step (c : Connection) (s : State) : Action → Option State
  | .connect established =>
    match s.sender with
    | .connect cnt =>
      if established then some { s with sender := .write, service := .reading }
      else if cnt - 1 ≤ 0 then some { s with sender := .returned }
      else some { s with sender := .connect (cnt - 1) }
    | _ => none
  | .write n =>
    if s.sender = .write then
      match n with
      | none => some { s with sender := .close }
      | some n =>
        -- what `write` does not accept is not sent again
        if n ≤ c.message.length ∧ (0 < n ∨ c.message = []) then
          some { s with sender := .close, inFlight := c.message.take n }
        else
          none
    else
      none
  | .close => if s.sender = .close then some { s with sender := .returned } else none
  | .deliver n =>
    if 0 < n ∧ n ≤ s.inFlight.length then
      some { s with inFlight := s.inFlight.drop n, arrived := s.arrived ++ s.inFlight.take n }
    else
      none
  | .read n =>
    if s.service = .reading ∧ Readable s n then
      some (service c { s with arrived := s.arrived.drop (n.getD 0) } (n.map (s.arrived.take ·)))
    else
      none

/-- Before the first `connect`. -/
def start : State where
  sender := .connect 5
  inFlight := []
  arrived := []
  service := .notStarted
  calls := []

def system (c : Connection) : Transition State Action where
  init s := s = start
  step := step c

end BackupLog
