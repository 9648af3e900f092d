import AsyncLogStorage.Native.BackupServer
import AsyncLogStorage.Spec.BackupDelivery

/-!
# The file of the backup server

The threads of the server append to one file at the same time. What the file has of one
connection is the front of one entry, the client and what the one `read` has returned of the
record. If the entries are written in one piece each, then the file is made of whole entries.

## Key results

- `step_called`: `func_` is called once for a connection, with an entry
- `step_pieces`, `step_entries`: what a step leaves of the pieces
- `file_pieces`: what the file holds, whatever fails
- `file_whole`: what it holds where nothing fails
-/

namespace BackupLog

variable {c : Connection}

/-! ## The entry of a connection -/

/-- What `func_` gets where `read` has returned `n` bytes. -/
def entry (c : Connection) (n : Nat) : Bytes := c.client_info ++ Bytes.cstr (c.message.take n)

/-- `func_` is called once at most, and when it is `service` has nothing left to do. -/
structure Called (c : Connection) (s : State) : Prop where
  returned : s.calls ≠ [] → s.service = .returned
  calls : s.calls = [] ∨ ∃ n, 0 < n ∧ n < bufSize ∧ n ≤ c.message.length ∧ s.calls = [entry c n]

theorem start_called (c : Connection) : Called c start := ⟨fun h => absurd rfl h, .inl rfl⟩

theorem Called.calls_eq_nil {s : State} (h : Called c s) (hnot : s.service ≠ .returned) :
    s.calls = [] :=
  Classical.byContradiction fun hcalls => hnot (h.returned hcalls)

/-- What `service` makes of its one `read`. -/
theorem service_called {s : State} {n : Option Nat} (hs : InStream c s) (h : Called c s)
    (hreading : s.service = .reading) (hreadable : Readable s n) :
    Called c (service c { s with arrived := s.arrived.drop (n.getD 0) }
      (n.map (s.arrived.take ·))) := by
  have hcalls := h.calls_eq_nil (by simp [hreading])
  cases n with
  | none => exact ⟨fun _ => rfl, .inl hcalls⟩
  | some n =>
    cases n with
    | zero => exact ⟨by simp [service, hcalls], .inl (by simp [service, hcalls])⟩
    | succ n =>
      obtain ⟨hfit, havail⟩ := hreadable
      have hlen : (s.arrived.take (n + 1)).length = n + 1 := by simp; omega
      have hstream := hs.stream hreading
      have hle := hstream.length_le
      simp only [List.length_append] at hle
      -- what was read is the front of the record
      have hfront : s.arrived.take (n + 1) = c.message.take (n + 1) := by
        obtain ⟨rest, hrest⟩ := hstream
        rw [← hrest, List.append_assoc, List.take_append_of_le_length havail]
      by_cases hroom : n + 1 < bufSize
      · rw [Option.map_some, service_some _ (by omega) (by omega)]
        refine ⟨fun _ => rfl, .inr ⟨n + 1, by omega, hroom, by omega, ?_⟩⟩
        simp [hcalls, hfront, entry]
      · rw [Option.map_some, service_full _ (by omega)]
        exact ⟨fun hne => absurd hcalls hne, .inl hcalls⟩

theorem step_called {s s' : State} {a : Action} (hs : InStream c s) (h : Called c s)
    (hstep : step c s a = some s') : Called c s' := by
  obtain ⟨cnt, -, hsender, rfl⟩ | ⟨cnt, -, hsender, rfl⟩ | ⟨-, hsender, rfl⟩ |
    ⟨n, -, hsender, -, -, rfl⟩ | ⟨-, hsender, rfl⟩ | ⟨n, -, -, -, rfl⟩ |
    ⟨n, -, hreading, hreadable, rfl⟩ := step_cases hstep
  · have hnot : s.service ≠ .returned := by simp [hs.connecting cnt hsender]
    exact ⟨fun hne => absurd (h.calls_eq_nil hnot) hne, h.calls⟩
  · exact ⟨h.returned, h.calls⟩
  · exact ⟨h.returned, h.calls⟩
  · exact ⟨h.returned, h.calls⟩
  · exact ⟨h.returned, h.calls⟩
  · exact ⟨h.returned, h.calls⟩
  · exact service_called hs h hreading hreadable

/-- When `service` has returned it stays so. -/
theorem step_of_returned {s s' : State} {a : Action} (hs : InStream c s)
    (h : step c s a = some s') (hreturned : s.service = .returned) :
    s'.service = .returned ∧ s'.calls = s.calls := by
  obtain ⟨cnt, -, hsender, rfl⟩ | ⟨cnt, -, hsender, rfl⟩ | ⟨-, hsender, rfl⟩ |
    ⟨n, -, hsender, -, -, rfl⟩ | ⟨-, hsender, rfl⟩ | ⟨n, -, -, -, rfl⟩ |
    ⟨n, -, hreading, -, rfl⟩ := step_cases h
  · rw [hs.connecting cnt hsender] at hreturned
    cases hreturned
  · exact ⟨hreturned, rfl⟩
  · exact ⟨hreturned, rfl⟩
  · exact ⟨hreturned, rfl⟩
  · exact ⟨hreturned, rfl⟩
  · exact ⟨hreturned, rfl⟩
  · rw [hreading] at hreturned
    cases hreturned

namespace TcpServer

/-! ## The pieces of the file -/

/-- What the pieces have of connection `i`. -/
def pieceOf (i : Nat) (pieces : List (Nat × Bytes)) : Bytes :=
  ((pieces.filter (·.1 == i)).map Prod.snd).flatten

@[simp] theorem pieceOf_nil (i : Nat) : pieceOf i [] = [] := rfl

@[simp] theorem pieceOf_concat (i j : Nat) (pieces : List (Nat × Bytes)) (data : Bytes) :
    pieceOf i (pieces ++ [(j, data)]) =
      pieceOf i pieces ++ if j = i then data else [] := by
  by_cases h : j = i <;> simp [pieceOf, h]

theorem pieceOf_of_not_mem {i : Nat} {pieces : List (Nat × Bytes)}
    (h : ∀ p ∈ pieces, p.1 ≠ i) : pieceOf i pieces = [] := by
  have hnone : pieces.filter (·.1 == i) = [] := by
    rw [List.filter_eq_nil_iff]
    intro p hp
    simpa using h p hp
  simp [pieceOf, hnone]

/-- How far a thread has come, with the calls of `func_` and what it has written. -/
def ThreadPc.Wrote (calls : List Bytes) (mine : Bytes) : ThreadPc → Prop
  | .service => calls = [] ∧ mine = []
  | .fopen m => calls = [m] ∧ mine = []
  | .write left => calls = [mine ++ left]
  | .returned => mine <+: calls.flatten

/-- A connection, of which the file has `mine`. -/
structure Peer.Has (peer : Peer) (mine : Bytes) : Prop where
  stream : InStream peer.connection peer.ends
  called : Called peer.connection peer.ends
  busy : peer.thread ≠ .service → peer.ends.service = .returned
  wrote : peer.thread.Wrote peer.ends.calls mine

/-- The file is made of pieces of the entries. -/
structure Pieces (file : Bytes) (s : State) (pieces : List (Nat × Bytes)) : Prop where
  file_eq : s.file = file ++ (pieces.map Prod.snd).flatten
  known : ∀ p ∈ pieces, p.1 < s.peers.length
  peers : ∀ (i : Nat) peer, s.peers[i]? = some peer → peer.Has (pieceOf i pieces)

variable {file : Bytes} {s s' : State} {pieces : List (Nat × Bytes)} {i : Nat} {peer : Peer}

/-! ## Steps -/

/-- A peer goes on with what the file then has of it. -/
theorem Pieces.set (h : Pieces file s pieces) (peer' : Peer) (pieces' : List (Nat × Bytes))
    (hi : s.peers[i]? = some peer) (hpeer : peer'.Has (pieceOf i pieces'))
    (hother : ∀ j, j ≠ i → pieceOf j pieces' = pieceOf j pieces)
    (hknown : ∀ p ∈ pieces', p ∈ pieces ∨ p.1 = i) (aborted : Bool) :
    Pieces file ⟨s.peers.set i peer', file ++ (pieces'.map Prod.snd).flatten, aborted⟩ pieces' where
  file_eq := rfl
  known := by
    intro p hp
    rw [List.length_set]
    obtain hp | hp := hknown p hp
    · exact h.known p hp
    · rw [hp]
      exact (List.getElem?_eq_some_iff.mp hi).1
  peers := by
    intro j peerj hj
    obtain ⟨rfl, rfl⟩ | ⟨hne, hj⟩ := List.getElem?_set_cases hj
    · exact hpeer
    · rw [hother j (Ne.symm hne)]
      exact h.peers j peerj hj

/-- What a thread does behind `service`. -/
theorem Peer.Has.service (h : peer.Has []) {ends : BackupLog.State} {a : BackupLog.Action}
    (hstep : BackupLog.step peer.connection peer.ends a = some ends) :
    Peer.Has { peer with ends := ends, thread := afterService ends } [] := by
  have hcalled := step_called h.stream h.called hstep
  refine ⟨step_inStream h.stream hstep, hcalled, ?_, ?_⟩
  · intro hbusy
    cases hcalls : ends.calls with
    | nil =>
      simp only [afterService, hcalls] at hbusy
      split at hbusy
      · assumption
      · exact absurd rfl hbusy
    | cons m rest => exact hcalled.returned (by simp [hcalls])
  · obtain hnil | ⟨n, -, -, -, hone⟩ := hcalled.calls
    · simp only [afterService, hnil]
      split
      · exact List.nil_prefix
      · exact ⟨rfl, rfl⟩
    · simp only [afterService, hone]
      exact ⟨rfl, rfl⟩

/-- A step of the connection behind the callback. -/
theorem Peer.Has.link {mine : Bytes} (h : peer.Has mine) {ends : BackupLog.State}
    {a : BackupLog.Action} (hthread : peer.thread ≠ .service)
    (hstep : BackupLog.step peer.connection peer.ends a = some ends) :
    Peer.Has { peer with ends := ends } mine := by
  obtain ⟨hreturned, hcalls⟩ := step_of_returned h.stream hstep (h.busy hthread)
  refine ⟨step_inStream h.stream hstep, step_called h.stream h.called hstep, fun _ => hreturned, ?_⟩
  show peer.thread.Wrote ends.calls mine
  rw [hcalls]
  exact h.wrote

/-- A step of a thread in `backup_log`: it stops the process, it goes on, or it writes. -/
theorem fileStep_cases {a : FileAction} (h : fileStep s i peer a = some s') :
    ((a = .fopen false ∨ a = .fwriteFails) ∧ s' = { s with aborted := true }) ∨
    (∃ m, a = .fopen true ∧ peer.thread = .fopen m ∧ s' = s.goto i peer (.write m)) ∨
    (∃ left n, a = .write (some n) ∧ peer.thread = .write left ∧ 0 < n ∧ n ≤ left.length ∧
      s' = { s.goto i peer (.write (left.drop n)) with file := s.file ++ left.take n }) ∨
    ∃ left, (a = .write none ∨ a = .fclose ∧ left = []) ∧ peer.thread = .write left ∧
      s' = s.goto i peer .returned := by
  unfold fileStep at h
  split at h
  · rename_i m hthread
    exact .inr (.inl ⟨m, rfl, hthread, (Option.some.inj h).symm⟩)
  · exact .inl ⟨.inl rfl, (Option.some.inj h).symm⟩
  · rename_i left n hthread
    obtain ⟨⟨hpos, hle⟩, h⟩ := Option.ite_none_right_eq_some.mp h
    exact .inr (.inr (.inl ⟨left, n, rfl, hthread, hpos, hle, (Option.some.inj h).symm⟩))
  · rename_i left hthread
    exact .inr (.inr (.inr ⟨left, .inl rfl, hthread, (Option.some.inj h).symm⟩))
  · exact .inl ⟨.inr rfl, (Option.some.inj h).symm⟩
  · rename_i hthread
    exact .inr (.inr (.inr ⟨[], .inr ⟨rfl, rfl⟩, hthread, (Option.some.inj h).symm⟩))
  · cases h

theorem step_cases {a : Action} (h : step s a = some s') :
    (∃ c, a = .client c ∧ s' = { s with peers := s.peers ++ [⟨c, BackupLog.start, .service⟩] }) ∨
    (∃ i b peer ends, a = .link i b ∧ s.peers[i]? = some peer ∧
      BackupLog.step peer.connection peer.ends b = some ends ∧
      s' = { s with
        peers := s.peers.set i { peer with
          ends := ends
          thread := if peer.thread = .service then afterService ends else peer.thread }
        aborted := s.aborted || ends.service == .overrun }) ∨
    ∃ i b peer, a = .backup i b ∧ s.peers[i]? = some peer ∧ s.aborted = false ∧
      fileStep s i peer b = some s' := by
  cases a with
  | client c => exact .inl ⟨c, rfl, (Option.some.inj h).symm⟩
  | link i b =>
    obtain ⟨peer, hpeer, h⟩ := Option.bind_eq_some_iff.mp h
    obtain ⟨-, h⟩ := Option.ite_none_left_eq_some.mp h
    obtain ⟨ends, hends, h⟩ := Option.bind_eq_some_iff.mp h
    exact .inr (.inl ⟨i, b, peer, ends, rfl, hpeer, hends, (Option.some.inj h).symm⟩)
  | backup i b =>
    obtain ⟨peer, hpeer, h⟩ := Option.bind_eq_some_iff.mp h
    obtain ⟨haborted, h⟩ := Option.ite_none_left_eq_some.mp h
    exact .inr (.inr ⟨i, b, peer, rfl, hpeer, Bool.eq_false_iff.mpr haborted, h⟩)

/-- A new client has nothing in the file. -/
theorem Pieces.client (h : Pieces file s pieces) (c : Connection) :
    Pieces file { s with peers := s.peers ++ [⟨c, BackupLog.start, .service⟩] } pieces where
  file_eq := h.file_eq
  known := by
    intro p hp
    have := h.known p hp
    simp only [List.length_append]
    omega
  peers := by
    intro i peer hi
    by_cases hlt : i < s.peers.length
    · rw [List.getElem?_append_left hlt] at hi
      exact h.peers i peer hi
    · have hnone : pieceOf i pieces = [] := by
        apply pieceOf_of_not_mem
        intro p hp heq
        have := h.known p hp
        omega
      rw [List.getElem?_append_right (by omega)] at hi
      obtain rfl := List.mem_singleton.mp (List.mem_of_getElem? hi)
      rw [hnone]
      exact ⟨start_inStream, start_called c, fun hbusy => absurd rfl hbusy, rfl, rfl⟩

/-- A thread goes on without writing. -/
theorem Pieces.goto (h : Pieces file s pieces) {thread : ThreadPc} (hi : s.peers[i]? = some peer)
    (hbusy : peer.thread ≠ .service)
    (hwrote : thread.Wrote peer.ends.calls (pieceOf i pieces)) :
    Pieces file (s.goto i peer thread) pieces := by
  have hpeer := h.peers i peer hi
  have hset := h.set { peer with thread := thread } pieces hi
    ⟨hpeer.stream, hpeer.called, fun _ => hpeer.busy hbusy, hwrote⟩ (fun _ _ => rfl)
    (fun p hp => .inl hp) s.aborted
  rw [← h.file_eq] at hset
  exact hset

/-- A step of a connection. -/
theorem Pieces.link (h : Pieces file s pieces) (hi : s.peers[i]? = some peer)
    {b : BackupLog.Action} {ends : BackupLog.State}
    (hends : BackupLog.step peer.connection peer.ends b = some ends) :
    Pieces file { s with
      peers := s.peers.set i { peer with
        ends := ends
        thread := if peer.thread = .service then afterService ends else peer.thread }
      aborted := s.aborted || ends.service == .overrun } pieces := by
  have hpeer := h.peers i peer hi
  rw [h.file_eq]
  apply h.set _ pieces hi _ (fun _ _ => rfl) (fun p hp => .inl hp)
  split
  · rename_i hthread
    have hwrote := hpeer.wrote
    rw [hthread] at hwrote
    rw [hwrote.2] at hpeer ⊢
    exact hpeer.service hends
  · rename_i hthread
    exact hpeer.link hthread hends

/-- A piece of an entry goes to the file. -/
theorem Pieces.write (h : Pieces file s pieces) (hi : s.peers[i]? = some peer) {left : Bytes}
    (hthread : peer.thread = .write left) (n : Nat) :
    Pieces file { s.goto i peer (.write (left.drop n)) with file := s.file ++ left.take n }
      (pieces ++ [(i, left.take n)]) := by
  have hpeer := h.peers i peer hi
  have hwrote := hpeer.wrote
  rw [hthread] at hwrote
  have hcalls : peer.ends.calls = [pieceOf i pieces ++ left] := hwrote
  have hset := h.set { peer with thread := .write (left.drop n) }
    (pieces ++ [(i, left.take n)]) hi
    ⟨hpeer.stream, hpeer.called, fun _ => hpeer.busy (by simp [hthread]), ?_⟩ ?_ ?_ s.aborted
  · simpa [h.file_eq, State.goto] using hset
  · simp [ThreadPc.Wrote, hcalls]
  · intro j hne
    simp [Ne.symm hne]
  · intro p hp
    obtain hp | hp := List.mem_append.mp hp
    · exact .inl hp
    · rw [List.mem_singleton.mp hp]
      exact .inr rfl

/-- A thread opens its stream. -/
theorem Pieces.fopen (h : Pieces file s pieces) (hi : s.peers[i]? = some peer) {m : Bytes}
    (hthread : peer.thread = .fopen m) : Pieces file (s.goto i peer (.write m)) pieces := by
  have hwrote := (h.peers i peer hi).wrote
  rw [hthread] at hwrote
  apply h.goto hi (by simp [hthread])
  simp [ThreadPc.Wrote, hwrote.1, hwrote.2]

/-- A thread is done, with all of its entry or a part of it. -/
theorem Pieces.fclose (h : Pieces file s pieces) (hi : s.peers[i]? = some peer) {left : Bytes}
    (hthread : peer.thread = .write left) : Pieces file (s.goto i peer .returned) pieces := by
  have hwrote := (h.peers i peer hi).wrote
  rw [hthread] at hwrote
  have hcalls : peer.ends.calls = [pieceOf i pieces ++ left] := hwrote
  apply h.goto hi (by simp [hthread])
  simp [ThreadPc.Wrote, hcalls]

theorem step_pieces {a : Action} (h : Pieces file s pieces) (hstep : step s a = some s') :
    ∃ pieces', Pieces file s' pieces' := by
  obtain ⟨c, -, rfl⟩ | ⟨i, b, peer, ends, -, hi, hends, rfl⟩ | ⟨i, b, peer, -, hi, -, hfile⟩ :=
    step_cases hstep
  · exact ⟨pieces, h.client c⟩
  · exact ⟨pieces, h.link hi hends⟩
  · obtain ⟨-, rfl⟩ | ⟨m, -, hthread, rfl⟩ | ⟨left, n, -, hthread, -, -, rfl⟩ |
      ⟨left, -, hthread, rfl⟩ := fileStep_cases hfile
    · exact ⟨pieces, h.file_eq, h.known, h.peers⟩
    · exact ⟨pieces, h.fopen hi hthread⟩
    · exact ⟨_, h.write hi hthread n⟩
    · exact ⟨pieces, h.fclose hi hthread⟩

theorem reachable_pieces (h : (system file).Reachable s) : ∃ pieces, Pieces file s pieces := by
  apply h.invariant (I := fun s => ∃ pieces, Pieces file s pieces)
  · rintro s rfl
    exact ⟨[], by simp [start], by simp, by simp [start]⟩
  · rintro s a s' ⟨pieces, hs⟩ hstep
    exact step_pieces hs hstep

/-- The callback has an entry where it is at work. -/
theorem Peer.Has.entry {mine : Bytes} (h : peer.Has mine) (hcalls : peer.ends.calls ≠ []) :
    ∃ n, 0 < n ∧ n < bufSize ∧ n ≤ peer.connection.message.length ∧
      peer.ends.calls = [BackupLog.entry peer.connection n] := by
  obtain hnil | hone := h.called.calls
  · exact absurd hnil hcalls
  · exact hone

/-! ## Nothing fails -/

/-- What the record of a connection should become. -/
def Peer.whole (peer : Peer) : Bytes := peer.connection.client_info ++ peer.connection.message

/-- A `write` takes all that is left. -/
def ThreadPc.WritesAll (n : Option Nat) : ThreadPc → Prop
  | .write left => n = some left.length
  | _ => True

/-- The `read` of a connection returns the whole record, and the entry goes to the file in one
    piece. -/
def Unfailing (s : State) : Action → Prop
  | .client _ => True
  | .link i a => ∀ peer, s.peers[i]? = some peer → ReadsWhole peer.connection peer.ends a
  | .backup _ (.fopen ok) => ok = true
  | .backup i (.write n) => ∀ peer, s.peers[i]? = some peer → peer.thread.WritesAll n
  | .backup _ .fwriteFails => False
  | .backup _ .fclose => True

/-- How far a thread has come where nothing fails. -/
def ThreadPc.Keeps (whole : Bytes) (written : Prop) : ThreadPc → Prop
  | .service => ¬written
  | .fopen m => m = whole ∧ ¬written
  | .write left => (left = whole ∧ ¬written) ∨ (left = [] ∧ written)
  | .returned => written

/-- Each connection that has been served has its record in the file, once and whole. -/
structure Entries (s : State) (pieces : List (Nat × Bytes)) : Prop where
  aborted : s.aborted = false
  nodup : (pieces.map Prod.fst).Nodup
  whole : ∀ p ∈ pieces, ∃ peer, s.peers[p.1]? = some peer ∧ p.2 = peer.whole
  delivered : ∀ (i : Nat) peer, s.peers[i]? = some peer → Delivered peer.connection peer.ends
  keeps : ∀ (i : Nat) peer, s.peers[i]? = some peer →
    peer.thread.Keeps peer.whole (i ∈ pieces.map Prod.fst)

/-- A peer of the same connection goes on. -/
theorem Entries.set (h : Entries s pieces) (peer' : Peer) (hi : s.peers[i]? = some peer)
    (hconn : peer'.connection = peer.connection)
    (hdelivered : Delivered peer'.connection peer'.ends)
    (hkeeps : peer'.thread.Keeps peer'.whole (i ∈ pieces.map Prod.fst)) {aborted : Bool}
    (haborted : aborted = false) :
    Entries { s with peers := s.peers.set i peer', aborted := aborted } pieces where
  aborted := haborted
  nodup := h.nodup
  whole := by
    intro p hp
    obtain ⟨peerp, hpeerp, hwhole⟩ := h.whole p hp
    by_cases hip : i = p.1
    · rw [← hip, hi] at hpeerp
      cases hpeerp
      refine ⟨peer', ?_, by rw [hwhole, Peer.whole, Peer.whole, hconn]⟩
      rw [← hip, List.getElem?_set_self (List.getElem?_eq_some_iff.mp hi).1]
    · exact ⟨peerp, by rw [List.getElem?_set_ne hip, hpeerp], hwhole⟩
  delivered := by
    intro j peerj hj
    obtain ⟨-, rfl⟩ | ⟨-, hj⟩ := List.getElem?_set_cases hj
    · exact hdelivered
    · exact h.delivered j peerj hj
  keeps := by
    intro j peerj hj
    obtain ⟨rfl, rfl⟩ | ⟨-, hj⟩ := List.getElem?_set_cases hj
    · exact hkeeps
    · exact h.keeps j peerj hj

/-- The entry goes to the file. -/
theorem Entries.write (h : Entries s pieces) (hi : s.peers[i]? = some peer)
    (hnew : i ∉ pieces.map Prod.fst) (bytes : Bytes) :
    Entries { s.goto i peer (.write []) with file := bytes } (pieces ++ [(i, peer.whole)]) where
  aborted := h.aborted
  nodup := by
    rw [List.map_append, List.nodup_append]
    refine ⟨h.nodup, by simp, ?_⟩
    intro j hj k hk heq
    rw [List.map_singleton, List.mem_singleton] at hk
    rw [heq, hk] at hj
    exact hnew hj
  whole := by
    intro p hp
    have hlt := (List.getElem?_eq_some_iff.mp hi).1
    obtain hp | hp := List.mem_append.mp hp
    · obtain ⟨peerp, hpeerp, hwhole⟩ := h.whole p hp
      have hne : i ≠ p.1 := fun heq => hnew (heq ▸ List.mem_map_of_mem hp)
      exact ⟨peerp, (List.getElem?_set_ne hne).trans hpeerp, hwhole⟩
    · rw [List.mem_singleton.mp hp]
      exact ⟨_, List.getElem?_set_self hlt, rfl⟩
  delivered := by
    intro j peerj hj
    obtain ⟨rfl, rfl⟩ | ⟨-, hj⟩ := List.getElem?_set_cases hj
    · exact h.delivered i peer hi
    · exact h.delivered j peerj hj
  keeps := by
    intro j peerj hj
    obtain ⟨rfl, rfl⟩ | ⟨hne, hj⟩ := List.getElem?_set_cases hj
    · exact .inr ⟨rfl, by simp⟩
    · have hmem : j ∈ (pieces ++ [(i, peer.whole)]).map Prod.fst ↔ j ∈ pieces.map Prod.fst := by
        simp [Ne.symm hne]
      rw [hmem]
      exact h.keeps j peerj hj

/-- A connection whose callback is at work has its record there. -/
theorem Peer.message_ne_nil {mine : Bytes} (h : peer.Has mine) (hcalls : peer.ends.calls ≠ []) :
    peer.connection.message ≠ [] := by
  obtain ⟨n, hpos, -, hle, -⟩ := h.entry hcalls
  exact List.length_pos_iff.mp (by omega)

/-- A new client has not been served. -/
theorem Entries.client (h : Entries s pieces) (hpieces : Pieces file s pieces) (c : Connection) :
    Entries { s with peers := s.peers ++ [⟨c, BackupLog.start, .service⟩] } pieces where
  aborted := h.aborted
  nodup := h.nodup
  whole := by
    intro p hp
    obtain ⟨peer, hpeer, hwhole⟩ := h.whole p hp
    have hlt := (List.getElem?_eq_some_iff.mp hpeer).1
    exact ⟨peer, by rw [List.getElem?_append_left hlt, hpeer], hwhole⟩
  delivered := by
    intro i peer hi
    obtain hi | hi := List.mem_append.mp (List.mem_of_getElem? hi)
    · obtain ⟨j, hj⟩ := List.getElem?_of_mem hi
      exact h.delivered j peer hj
    · obtain rfl := List.mem_singleton.mp hi
      exact ⟨by simp [BackupLog.start], rfl⟩
  keeps := by
    intro i peer hi
    by_cases hlt : i < s.peers.length
    · rw [List.getElem?_append_left hlt] at hi
      exact h.keeps i peer hi
    · rw [List.getElem?_append_right (by omega)] at hi
      obtain rfl := List.mem_singleton.mp (List.mem_of_getElem? hi)
      intro hmem
      obtain ⟨p, hp, rfl⟩ := List.mem_map.mp hmem
      exact hlt (hpieces.known p hp)

/-- Where a thread goes from `service` with what it got. -/
theorem keeps_afterService {ends : BackupLog.State} {written : Prop}
    (hdelivered : Delivered peer.connection ends) (hnot : ¬written) :
    (afterService ends).Keeps peer.whole written := by
  have hcalls := hdelivered.2
  split at hcalls
  · simp only [afterService, hcalls]
    exact ⟨rfl, hnot⟩
  · rename_i hservice
    simp only [afterService, hcalls, hservice, ↓reduceIte]
    exact hnot

/-- A step of a connection. -/
theorem Entries.link (h : Entries s pieces) (hpieces : Pieces file s pieces)
    (hi : s.peers[i]? = some peer) {b : BackupLog.Action} {ends : BackupLog.State}
    (hends : BackupLog.step peer.connection peer.ends b = some ends)
    (hwhole : ReadsWhole peer.connection peer.ends b) :
    Entries { s with
      peers := s.peers.set i { peer with
        ends := ends
        thread := if peer.thread = .service then afterService ends else peer.thread }
      aborted := s.aborted || ends.service == .overrun } pieces := by
  have hdelivered := (step_delivered_iff (hpieces.peers i peer hi).stream
    (h.delivered i peer hi) hends).mpr hwhole
  have haborted : (s.aborted || ends.service == .overrun) = false := by
    simp [h.aborted, hdelivered.1]
  have hkeeps := h.keeps i peer hi
  refine h.set { peer with
    ends := ends
    thread := if peer.thread = .service then afterService ends else peer.thread } hi rfl
    hdelivered ?_ haborted
  show ThreadPc.Keeps peer.whole _ _
  split
  · rename_i hthread
    rw [hthread] at hkeeps
    exact keeps_afterService hdelivered hkeeps
  · exact hkeeps

/-- A thread goes on without writing. -/
theorem Entries.goto (h : Entries s pieces) {thread : ThreadPc} (hi : s.peers[i]? = some peer)
    (hkeeps : thread.Keeps peer.whole (i ∈ pieces.map Prod.fst)) :
    Entries (s.goto i peer thread) pieces :=
  h.set { peer with thread := thread } hi rfl (h.delivered i peer hi) hkeeps h.aborted

theorem step_entries {a : Action} (hpieces : Pieces file s pieces) (h : Entries s pieces)
    (hok : Unfailing s a) (hstep : step s a = some s') :
    ∃ pieces', Pieces file s' pieces' ∧ Entries s' pieces' := by
  obtain ⟨c, -, rfl⟩ | ⟨i, b, peer, ends, rfl, hi, hends, rfl⟩ | ⟨i, b, peer, rfl, hi, -, hfile⟩ :=
    step_cases hstep
  · exact ⟨pieces, hpieces.client c, h.client hpieces c⟩
  · exact ⟨pieces, hpieces.link hi hends, h.link hpieces hi hends (hok peer hi)⟩
  · have hkeeps := h.keeps i peer hi
    obtain ⟨hb, -⟩ | ⟨m, -, hthread, rfl⟩ | ⟨left, n, rfl, hthread, hpos, hle, rfl⟩ |
      ⟨left, hb, hthread, rfl⟩ := fileStep_cases hfile
    · obtain rfl | rfl := hb
      · exact absurd hok Bool.false_ne_true
      · exact hok.elim
    · rw [hthread] at hkeeps
      exact ⟨pieces, hpieces.fopen hi hthread, h.goto hi (.inl hkeeps)⟩
    · have hall := hok peer hi
      rw [hthread] at hkeeps hall
      obtain rfl : n = left.length := Option.some.inj hall
      obtain ⟨rfl, hnew⟩ | ⟨rfl, -⟩ := hkeeps
      · have hwrite := hpieces.write hi hthread peer.whole.length
        rw [List.drop_length, List.take_length] at hwrite ⊢
        exact ⟨_, hwrite, h.write hi hnew _⟩
      · exact absurd hpos (Nat.lt_irrefl 0)
    · obtain rfl | ⟨rfl, rfl⟩ := hb
      · have hall := hok peer hi
        rw [hthread] at hall
        cases hall
      · have hpeer := hpieces.peers i peer hi
        have hwrote := hpeer.wrote
        rw [hthread] at hkeeps hwrote
        refine ⟨pieces, hpieces.fclose hi hthread, h.goto hi ?_⟩
        obtain ⟨hnil, -⟩ | ⟨-, hwritten⟩ := hkeeps
        · -- an entry has the record, and that has a byte
          have hne := Peer.message_ne_nil hpeer (by
            rw [show peer.ends.calls = [pieceOf i pieces ++ []] from hwrote]
            exact List.cons_ne_nil _ _)
          exact absurd (List.append_eq_nil_iff.mp hnil.symm).2 hne
        · exact hwritten

theorem reachable_entries (h : (system file).ReachableBy Unfailing s) :
    ∃ pieces, Pieces file s pieces ∧ Entries s pieces := by
  apply h.invariant (I := fun s => ∃ pieces, Pieces file s pieces ∧ Entries s pieces)
  · rintro s rfl
    refine ⟨[], ⟨by simp [start], by simp, by simp [start]⟩, rfl, List.nodup_nil, by simp, ?_, ?_⟩
    · simp [start]
    · simp [start]
  · rintro s a s' ⟨pieces, hpieces, hentries⟩ hok hstep
    exact step_entries hpieces hentries hok hstep

/-! ## A run -/

/-- A connection of a client that sends one byte. -/
def smallConnection (b : UInt8) : Connection where
  message := [b]
  client_info := [63]
  buf := List.replicate bufSize 0
  buf_length := List.length_replicate

/-- Two clients, of which the second one is served first. -/
def smallRun : List Action :=
  [.client (smallConnection 65), .client (smallConnection 66), .link 0 (.connect true),
    .link 1 (.connect true), .link 0 (.write (some 1)), .link 1 (.write (some 1)),
    .link 0 (.deliver 1), .link 1 (.deliver 1), .link 0 (.read (some 1)),
    .link 1 (.read (some 1)), .backup 0 (.fopen true), .backup 1 (.fopen true),
    .backup 1 (.write (some 2)), .backup 0 (.write (some 2)), .backup 1 .fclose,
    .backup 0 .fclose]

instance (n : Option Nat) : (thread : ThreadPc) → Decidable (thread.WritesAll n)
  | .write left => inferInstanceAs (Decidable (n = some left.length))
  | .service => .isTrue trivial
  | .fopen _ => .isTrue trivial
  | .returned => .isTrue trivial

instance (c : Connection) (s : BackupLog.State) :
    (a : BackupLog.Action) → Decidable (ReadsWhole c s a)
  | .read n => inferInstanceAs (Decidable (s.service = .reading → Readable s n →
      n = some c.message.length ∧ 0 < c.message.length ∧ c.message.length < bufSize ∧
        0 ∉ c.message))
  | .connect _ => .isTrue trivial
  | .write _ => .isTrue trivial
  | .close => .isTrue trivial
  | .deliver _ => .isTrue trivial

instance (s : State) : (a : Action) → Decidable (Unfailing s a)
  | .client _ => .isTrue trivial
  | .link i a => inferInstanceAs (Decidable (∀ peer ∈ s.peers[i]?,
      ReadsWhole peer.connection peer.ends a))
  | .backup _ (.fopen ok) => inferInstanceAs (Decidable (ok = true))
  | .backup i (.write n) => inferInstanceAs (Decidable (∀ peer ∈ s.peers[i]?,
      peer.thread.WritesAll n))
  | .backup _ .fwriteFails => .isFalse id
  | .backup _ .fclose => .isTrue trivial

set_option maxRecDepth 8000 in
theorem reachable_small : ∃ s, (system []).ReachableBy Unfailing s ∧
    s.file = [63, 66, 63, 65] ∧ s.peers.map Peer.thread = [.returned, .returned] := by
  have hsteps : (system []).AllSteps Unfailing (start []) smallRun := by decide +kernel
  have hrun : ((system []).run (start []) smallRun).any (fun s =>
      s.file = [63, 66, 63, 65] ∧ s.peers.map Peer.thread = [.returned, .returned]) = true := by
    decide +kernel
  obtain ⟨s, hs, hend⟩ := (Option.any_eq_true _ _).mp hrun
  exact ⟨s, ⟨_, smallRun, rfl, hsteps, hs⟩, of_decide_eq_true hend⟩

/-! ## The file -/

/-- Whatever fails, and however the clients, the network and the threads interleave: behind what
    the file held there are pieces of entries, those of a connection in their order and of one
    entry. A thread that is still writing has lost nothing. -/
theorem file_pieces (h : (system file).Reachable s) :
    ∃ pieces : List (Nat × Bytes), s.file = file ++ (pieces.map Prod.snd).flatten ∧
      (∀ p ∈ pieces, p.1 < s.peers.length) ∧
      ∀ (i : Nat) peer, s.peers[i]? = some peer → pieceOf i pieces = [] ∨
        ∃ n, 0 < n ∧ n < bufSize ∧ n ≤ peer.connection.message.length ∧
          pieceOf i pieces <+: BackupLog.entry peer.connection n ∧
          ∀ left, peer.thread = .write left →
            pieceOf i pieces ++ left = BackupLog.entry peer.connection n := by
  obtain ⟨pieces, hpieces⟩ := reachable_pieces h
  refine ⟨pieces, hpieces.file_eq, hpieces.known, ?_⟩
  intro i peer hi
  have hpeer := hpieces.peers i peer hi
  have hwrote := hpeer.wrote
  by_cases hcalls : peer.ends.calls = []
  · left
    rw [hcalls] at hwrote
    cases hthread : peer.thread with
    | service =>
      rw [hthread] at hwrote
      exact hwrote.2
    | fopen m =>
      rw [hthread] at hwrote
      exact hwrote.2
    | write left => simp [hthread, ThreadPc.Wrote] at hwrote
    | returned => simpa [hthread, ThreadPc.Wrote] using hwrote
  · obtain ⟨n, hpos, hroom, hle, hentry⟩ := hpeer.entry hcalls
    right
    refine ⟨n, hpos, hroom, hle, ?_⟩
    rw [hentry] at hwrote
    cases hthread : peer.thread with
    | service => simp [hthread, ThreadPc.Wrote] at hwrote
    | fopen m =>
      rw [hthread] at hwrote
      rw [hwrote.2]
      exact ⟨List.nil_prefix, by simp⟩
    | write left =>
      rw [hthread] at hwrote
      have hleft := List.singleton_inj.mp hwrote
      exact ⟨⟨left, hleft.symm⟩, fun left' heq => by cases heq; exact hleft.symm⟩
    | returned =>
      rw [hthread] at hwrote
      exact ⟨by simpa [ThreadPc.Wrote] using hwrote, by simp⟩

theorem file_pieces_small : ∃ (s : State) (pieces : List (Nat × Bytes)),
    s.file = [63, 66, 63, 65] ∧ s.file = (pieces.map Prod.snd).flatten ∧
      ∀ p ∈ pieces, p.1 < 2 := by
  obtain ⟨s, hreach, hfile, hpeers⟩ := reachable_small
  obtain ⟨pieces, heq, hknown, -⟩ := file_pieces hreach.reachable
  have hlen : s.peers.length = 2 := by simpa using congrArg List.length hpeers
  rw [hlen] at hknown
  exact ⟨s, pieces, hfile, heq, hknown⟩

/-- Where each `read` returns the whole record, and each thread can open the file and write its
    entry in one piece, the file has, behind what it held, the whole records that it was sent
    with their clients before them: the record of each connection that has been served once, in
    some order, and nothing else. -/
theorem file_whole (h : (system file).ReachableBy Unfailing s) :
    ∃ pieces : List (Nat × Bytes), s.file = file ++ (pieces.map Prod.snd).flatten ∧
      (pieces.map Prod.fst).Nodup ∧
      (∀ p ∈ pieces, ∃ peer, s.peers[p.1]? = some peer ∧
        p.2 = peer.connection.client_info ++ peer.connection.message) ∧
      (∀ (i : Nat) peer, s.peers[i]? = some peer → peer.thread = .returned →
        i ∈ pieces.map Prod.fst) ∧
      s.aborted = false := by
  obtain ⟨pieces, hpieces, hentries⟩ := reachable_entries h
  refine ⟨pieces, hpieces.file_eq, hentries.nodup, hentries.whole, ?_, hentries.aborted⟩
  intro i peer hi hthread
  have hkeeps := hentries.keeps i peer hi
  rw [hthread] at hkeeps
  exact hkeeps

/-- Both records are there. -/
theorem file_whole_small : ∃ (s : State) (pieces : List (Nat × Bytes)),
    s.file = [63, 66, 63, 65] ∧ s.file = (pieces.map Prod.snd).flatten ∧
      (pieces.map Prod.fst).Nodup ∧ 0 ∈ pieces.map Prod.fst ∧ 1 ∈ pieces.map Prod.fst := by
  obtain ⟨s, hreach, hfile, hpeers⟩ := reachable_small
  obtain ⟨pieces, heq, hnodup, -, hserved, -⟩ := file_whole hreach
  have hreturned : ∀ i < 2, i ∈ pieces.map Prod.fst := by
    intro i hi
    have hlen : s.peers.length = 2 := by simpa using congrArg List.length hpeers
    have hget : (s.peers.map Peer.thread)[i]? = some .returned := by
      rw [hpeers]
      match i, hi with
      | 0, _ => rfl
      | 1, _ => rfl
    rw [List.getElem?_map, Option.map_eq_some_iff] at hget
    obtain ⟨peer, hpeer, hthread⟩ := hget
    exact hserved i peer hpeer hthread
  exact ⟨s, pieces, hfile, heq, hnodup, hreturned 0 (by decide), hreturned 1 (by decide)⟩

end TcpServer

end BackupLog
