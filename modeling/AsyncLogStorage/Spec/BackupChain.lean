import Mathlib.Data.List.Nodup
import AsyncLogStorage.Native.BackupChain
import AsyncLogStorage.Spec.BackupFile
import AsyncLogStorage.Spec.BackupFirst

/-!
# The records of the local log in the backup file

The logger hands an ERROR or FATAL record to `Push` when its task is completed, and the task is
completed when its `send_backlog` is back. So the local log has no such record without a client
that has come and gone for it, and where nothing fails between that client and the file, the
file has the record too.

## Key results

- `ThreadPool.step_running`: a worker leaves its task by its own step, and completes it
- `step_linked`: each task that runs or has run has one client, with its record
- `sent_once`: one client for each ERROR or FATAL record of the local log
- `file_has_records`: the backup file against the local log
-/

namespace ThreadPool

/-- A worker in its task stays there until it goes on itself, and that completes the task. -/
theorem step_running {s s' : State} {a : Action} (h : step s a = some s') :
    (∃ i t, a = .worker i ∧ s.workers[i]? = some (.running t) ∧
      s'.completed = s.completed ++ [t] ∧ s'.workers = s.workers.set i .runInc) ∨
    ((∀ i t, a = .worker i → s.workers[i]? ≠ some (.running t)) ∧
      s'.completed = s.completed ∧
      ∀ (j : Nat) t, s.workers[j]? = some (.running t) →
        s'.workers[j]? = some (.running t)) := by
  have hnotified : ∀ (j : Nat) t, s.workers[j]? = some (.running t) →
      (notifyAll s.workers)[j]? = some (.running t) := by
    intro j t hj
    simp [notifyAll, hj, WorkerPc.notified]
  obtain ⟨task, rfl, -, rfl⟩ | ⟨sel, ws, rfl, -, hws, rfl⟩ | ⟨i, rfl, h⟩ | ⟨rfl, h⟩ |
    ⟨sel, rfl, h⟩ := step_cases h
  · exact .inr ⟨by simp, rfl, fun _ _ hj => hj⟩
  · refine .inr ⟨by simp, rfl, ?_⟩
    intro j t hj
    obtain ⟨hsel, rfl⟩ | ⟨-, rfl⟩ := notifyOne_cases hws
    · have hne : sel ≠ j := by
        rintro rfl
        rw [hsel] at hj
        cases hj
      exact (List.getElem?_set_ne hne).trans hj
    · exact hj
  · obtain ⟨pc, hpc, hstep, hframe⟩ := workerStep_frame h
    -- the worker is not in a task
    have hother (hrun : ∀ t, pc ≠ .running t) (hcompleted : s'.completed = s.completed) :
        (∀ j t, Action.worker i = .worker j → s.workers[j]? ≠ some (.running t)) ∧
          s'.completed = s.completed ∧
          ∀ (j : Nat) t, s.workers[j]? = some (.running t) →
            s'.workers[j]? = some (.running t) := by
      refine ⟨?_, hcompleted, ?_⟩
      · intro j t hj hrunning
        cases hj
        rw [hpc] at hrunning
        exact hrun t (Option.some.inj hrunning)
      · intro j t hj
        have hne : i ≠ j := by
          rintro rfl
          rw [hpc] at hj
          exact hrun t (Option.some.inj hj)
        rw [hframe.workers, List.getElem?_set_ne hne, hj]
    obtain ⟨-, ⟨rfl, -, -, hcompleted⟩ | ⟨t, rfl, -, -, hcompleted⟩ |
      ⟨-, hrun, -, -, hcompleted⟩⟩ := workerStepAt_tasks hstep
    · exact .inr (hother (by simp) hcompleted)
    · exact .inl ⟨i, t, rfl, hpc, hcompleted, hframe.workers⟩
    · exact .inr (hother hrun hcompleted)
  · refine .inr ⟨by simp, (managerStep_tasks h).2.2, ?_⟩
    intro j t hj
    obtain ⟨-, -, -, -, -, ⟨-, hw⟩ | ⟨-, hw⟩ | ⟨-, hw⟩⟩ := managerStep_frame h
    · rw [hw]
      exact hnotified j t hj
    · rw [hw, List.getElem?_append_left (List.getElem?_eq_some_iff.mp hj).1, hj]
    · rw [hw, hj]
  · refine .inr ⟨by simp, (dtorStep_tasks h).2.2.1, ?_⟩
    intro j t hj
    obtain ⟨-, -, -, ⟨-, -, hw⟩ | ⟨-, -, hw | hw⟩⟩ := dtorStep_frame h
    · rw [hw, hj]
    · rw [hw, hj]
    · rw [hw]
      exact hnotified j t hj

end ThreadPool

namespace Mylog

open ThreadPool (Task)

namespace AsyncLogger

variable {s s' : State}

/-- What a step of the logger does to the tasks that run. -/
theorem step_running {a : Action} (h : step s a = some s') :
    (∃ i t, a = .worker i ∧ s.pool.workers[i]? = some (.running t) ∧
      s'.pool.completed = s.pool.completed ++ [t] ∧
      s'.pool.workers = s.pool.workers.set i .runInc) ∨
    ((∀ i t, a = .worker i → s.pool.workers[i]? ≠ some (.running t)) ∧
      s'.pool.completed = s.pool.completed ∧
      ∀ (j : Nat) t, s.pool.workers[j]? = some (.running t) →
        s'.pool.workers[j]? = some (.running t)) := by
  have hsame (hpool : s'.pool = s.pool) (ha : ∀ i, a ≠ .worker i) :
      (∀ i t, a = .worker i → s.pool.workers[i]? ≠ some (.running t)) ∧
        s'.pool.completed = s.pool.completed ∧
        ∀ (j : Nat) t, s.pool.workers[j]? = some (.running t) →
          s'.pool.workers[j]? = some (.running t) := by
    rw [hpool]
    exact ⟨fun i t hi => absurd hi (ha i), rfl, fun _ _ hj => hj⟩
  -- a step of the pool that is no step of a worker
  have hpool {b : ThreadPool.Action} (hb : ∀ i, b ≠ .worker i)
      (hstep : ThreadPool.step s.pool b = some s'.pool) (ha : ∀ i, a ≠ .worker i) :
      (∀ i t, a = .worker i → s.pool.workers[i]? ≠ some (.running t)) ∧
        s'.pool.completed = s.pool.completed ∧
        ∀ (j : Nat) t, s.pool.workers[j]? = some (.running t) →
          s'.pool.workers[j]? = some (.running t) := by
    obtain ⟨i, t, hi, -⟩ | ⟨-, hcompleted, hrunning⟩ := ThreadPool.step_running hstep
    · exact absurd hi (hb i)
    · exact ⟨fun i t hi => absurd hi (ha i), hcompleted, hrunning⟩
  obtain ⟨m, pc, rfl, -, rfl⟩ | ⟨i, sel, call, rfl, -, h⟩ | ⟨b, pool, hb, hstep, rfl⟩ |
    ⟨rfl, -, -, rfl⟩ := step_cases h
  · exact .inr (hsame rfl (by simp))
  · obtain ⟨pool, -, -, hstep, rfl⟩ | ⟨pool, -, hstep, rfl⟩ | ⟨-, -, rfl⟩ | ⟨-, -, -, rfl⟩ |
      ⟨-, rfl⟩ := callStep_cases h
    · exact .inr (hpool (by simp) hstep (by simp))
    · exact .inr (hpool (by simp) hstep (by simp))
    · exact .inr (hsame rfl (by simp))
    · exact .inr (hsame rfl (by simp))
    · exact .inr (hsame rfl (by simp))
  · cases a with
    | worker tid =>
      cases hb
      obtain ⟨i, t, hi, hrun⟩ | ⟨hnot, hrunning⟩ := ThreadPool.step_running hstep
      · cases hi
        exact .inl ⟨tid, t, rfl, hrun⟩
      · exact .inr ⟨fun i t hi => hnot i t (by cases hi; rfl), hrunning⟩
    | manager =>
      cases hb
      exact .inr (hpool (by simp) hstep (by simp))
    | dtor sel =>
      cases hb
      exact .inr (hpool (by simp) hstep (by simp))
    | serialize m => cases hb
    | call i sel => cases hb
    | destroy => cases hb
  · exact .inr (hsame rfl (by simp))

/-- The record of a call stays the same. -/
theorem step_logmessage {a : Action} (h : step s a = some s') {i : Nat} {call : Call}
    (hi : s.calls[i]? = some call) :
    ∃ call', s'.calls[i]? = some call' ∧ call'.logmessage = call.logmessage := by
  have hgoto {j : Nat} {callj : Call} (hj : s.calls[j]? = some callj) (pc : CallPc) :
      ∃ call', (s.goto j callj pc).calls[i]? = some call' ∧
        call'.logmessage = call.logmessage := by
    by_cases hij : j = i
    · rw [hij, hi] at hj
      cases hj
      rw [hij]
      exact ⟨_, List.getElem?_set_self (List.getElem?_eq_some_iff.mp hi).1, rfl⟩
    · exact ⟨call, (List.getElem?_set_ne hij).trans hi, rfl⟩
  obtain ⟨m, pc, -, -, rfl⟩ | ⟨j, sel, callj, -, hj, h⟩ | ⟨b, pool, -, -, rfl⟩ | ⟨-, -, -, rfl⟩ :=
    step_cases h
  · refine ⟨call, ?_, rfl⟩
    show (s.calls ++ _)[i]? = some call
    rw [List.getElem?_append_left (List.getElem?_eq_some_iff.mp hi).1, hi]
  · obtain ⟨pool, -, -, -, rfl⟩ | ⟨pool, -, -, rfl⟩ | ⟨-, -, rfl⟩ | ⟨-, -, -, rfl⟩ | ⟨-, rfl⟩ :=
      callStep_cases h
    · exact hgoto hj .notify
    · exact hgoto hj .get
    · exact hgoto hj .flush
    · exact hgoto hj .threw
    · exact hgoto hj .returned
  · exact ⟨call, hi, rfl⟩
  · exact ⟨call, hi, rfl⟩

/-- A task that a worker runs is the one of a call. -/
theorem running_eq {min max exitThread : Int} (h : (system min max exitThread).Reachable s)
    {tid : Nat} {t : Task} (hrun : s.pool.workers[tid]? = some (.running t)) :
    t = backlogTask t.id ∧ t ∈ s.pool.added := by
  have hle := (ThreadPool.reachable_placesOf t (waking_pool (waking_of_reachable h))).1
  have hheld : 0 < s.pool.workers.countP (ThreadPool.WorkerPc.holds t) :=
    List.countP_pos_iff.mpr
      ⟨_, List.mem_of_getElem? hrun, by simp [ThreadPool.WorkerPc.holds, ThreadPool.WorkerPc.task]⟩
  unfold ThreadPool.State.placesOf at hle
  have hadded : t ∈ s.pool.added := List.count_pos_iff.mp (by omega)
  obtain ⟨i, -, rfl⟩ := (reachable_consistent h).added t hadded
  exact ⟨rfl, hadded⟩

/-- A task that a worker runs is not completed, and no other worker runs it. -/
theorem running_once {min max exitThread : Int} (h : (system min max exitThread).Reachable s)
    {tid : Nat} {t : Task} (hrun : s.pool.workers[tid]? = some (.running t)) :
    t ∉ s.pool.completed ∧
      ∀ tid', s.pool.workers[tid']? = some (.running t) → tid' = tid := by
  have hle := placesOf_le_one (waking_of_reachable h) t
  have hholds : (ThreadPool.WorkerPc.running t).holds t = true := by
    simp [ThreadPool.WorkerPc.holds, ThreadPool.WorkerPc.task]
  unfold ThreadPool.State.placesOf at hle
  constructor
  · intro hmem
    have hcompleted := List.count_pos_iff.mpr hmem
    have hheld : 0 < s.pool.workers.countP (ThreadPool.WorkerPc.holds t) :=
      List.countP_pos_iff.mpr ⟨_, List.mem_of_getElem? hrun, hholds⟩
    omega
  · intro tid' hrun'
    by_contra hne
    have htwo := List.two_le_countP hne hrun' hrun hholds hholds
    omega

end AsyncLogger

end Mylog

namespace BackupLog

/-- Who is back from `send_backlog` stays back. -/
theorem step_sender {c : Connection} {s s' : State} {a : Action} (h : step c s a = some s')
    (hback : s.sender = .returned) : s'.sender = .returned := by
  cases a with
  | connect established => simp [step, hback] at h
  | write n => simp [step, hback] at h
  | close => simp [step, hback] at h
  | deliver n =>
    obtain ⟨-, h⟩ := Option.ite_none_right_eq_some.mp h
    cases h
    exact hback
  | read n =>
    obtain ⟨-, h⟩ := Option.ite_none_right_eq_some.mp h
    obtain ⟨pc, calls, -, heq⟩ := service_eq (c := c)
      { s with arrived := s.arrived.drop (n.getD 0) } (n.map (s.arrived.take ·))
    rw [heq] at h
    cases h
    exact hback

namespace TcpServer

/-- The connections stay the same, and who is back stays back. -/
structure Keeps (s s' : State) : Prop where
  length : s'.peers.length = s.peers.length
  peer : ∀ (j : Nat) peer, s.peers[j]? = some peer → ∃ peer', s'.peers[j]? = some peer' ∧
    peer'.connection = peer.connection ∧
    (peer.ends.sender = .returned → peer'.ends.sender = .returned)

theorem Keeps.of_set {s : State} {i : Nat} {peer : Peer} (peer' : Peer)
    (hi : s.peers[i]? = some peer) (hconn : peer'.connection = peer.connection)
    (hback : peer.ends.sender = .returned → peer'.ends.sender = .returned) (file : Bytes)
    (aborted : Bool) : Keeps s ⟨s.peers.set i peer', file, aborted⟩ where
  length := List.length_set
  peer := by
    intro j peerj hj
    by_cases hij : i = j
    · subst hij
      rw [hi] at hj
      cases hj
      exact ⟨peer', List.getElem?_set_self (List.getElem?_eq_some_iff.mp hi).1, hconn, hback⟩
    · exact ⟨peerj, (List.getElem?_set_ne hij).trans hj, rfl, fun hpeer => hpeer⟩

theorem step_keeps {s s' : State} {a : Action} (h : step s a = some s')
    (ha : ∀ c, a ≠ .client c) : Keeps s s' := by
  obtain ⟨c, rfl, -⟩ | ⟨i, b, peer, ends, -, hi, hends, rfl⟩ | ⟨i, b, peer, -, hi, -, hfile⟩ :=
    step_cases h
  · exact absurd rfl (ha c)
  · exact Keeps.of_set { peer with ends := ends, thread := _ } hi rfl (step_sender hends) _ _
  · obtain ⟨-, rfl⟩ | ⟨m, -, -, rfl⟩ | ⟨left, n, -, -, -, -, rfl⟩ | ⟨left, -, -, rfl⟩ :=
      fileStep_cases hfile
    · exact ⟨rfl, fun j peer hj => ⟨peer, hj, rfl, fun hback => hback⟩⟩
    · exact Keeps.of_set { peer with thread := .write m } hi rfl id _ _
    · exact Keeps.of_set { peer with thread := .write (left.drop n) } hi rfl id _ _
    · exact Keeps.of_set { peer with thread := .returned } hi rfl id _ _

end TcpServer

end BackupLog

namespace Mylog.BackupChain

open AsyncLogger (backlogTask Severe)
open ThreadPool (Task)

variable {s s' : State}

/-! ## The clients -/

/-- Each task that runs or has run has one client, with its record. -/
structure Linked (s : State) : Prop where
  length : s.owners.length = s.server.peers.length
  nodup : s.owners.Nodup
  unique : ∀ tid j j', (tid, j) ∈ s.sending → (tid, j') ∈ s.sending → j = j'
  sending : ∀ tid j, (tid, j) ∈ s.sending → ∃ i, s.owners[j]? = some i ∧
    s.logger.pool.workers[tid]? = some (.running (backlogTask i))
  clients : ∀ (j : Nat) i, s.owners[j]? = some i → ∃ call peer,
    s.logger.calls[i]? = some call ∧ s.server.peers[j]? = some peer ∧
    peer.connection.message = call.logmessage.format ∧
    ((∃ tid, (tid, j) ∈ s.sending) ∨
      (backlogTask i ∈ s.logger.pool.completed ∧ peer.ends.sender = .returned))
  done : ∀ i, backlogTask i ∈ s.logger.pool.completed → i ∈ s.owners

theorem start_linked (min max exitThread : Int) (file : Bytes) :
    Linked (start min max exitThread file) := by
  constructor
  case length => rfl
  case nodup => exact List.nodup_nil
  case unique => simp [start]
  case sending => simp [start]
  case clients => simp [start]
  case done => simp [start, AsyncLogger.start, ThreadPool.start]

/-- The server goes on. -/
theorem Linked.server (h : Linked s) {server : BackupLog.TcpServer.State}
    (hkeeps : BackupLog.TcpServer.Keeps s.server server) :
    Linked { s with server := server } where
  length := h.length.trans hkeeps.length.symm
  nodup := h.nodup
  unique := h.unique
  sending := h.sending
  clients := by
    intro j i hj
    obtain ⟨call, peer, hcall, hpeer, hmessage, hwhere⟩ := h.clients j i hj
    obtain ⟨peer', hpeer', hconn, hback⟩ := hkeeps.peer j peer hpeer
    refine ⟨call, peer', hcall, hpeer', by rw [hconn, hmessage], ?_⟩
    exact hwhere.imp_right fun hdone => ⟨hdone.1, hback hdone.2⟩
  done := h.done

/-- A worker that is in no task is not in `send_backlog`. -/
theorem Linked.stillSending (h : Linked s) {a : AsyncLogger.Action}
    (hnot : ∀ i t, a = .worker i → s.logger.pool.workers[i]? ≠ some (.running t)) :
    s.stillSending a = s.sending := by
  cases a with
  | worker tid =>
    apply List.filter_eq_self.mpr
    intro p hp
    obtain ⟨i, -, hrun⟩ := h.sending p.1 p.2 hp
    have hne : p.1 ≠ tid := by
      rintro rfl
      exact hnot p.1 _ rfl hrun
    simpa using hne
  | _ => rfl

/-- The logger goes on, and no task is completed. -/
theorem Linked.logger (h : Linked s) {a : AsyncLogger.Action} {logger : AsyncLogger.State}
    (hstep : AsyncLogger.step s.logger a = some logger)
    (hcompleted : logger.pool.completed = s.logger.pool.completed)
    (hrunning : ∀ (tid : Nat) t, s.logger.pool.workers[tid]? = some (.running t) →
      logger.pool.workers[tid]? = some (.running t)) :
    Linked { s with logger := logger } where
  length := h.length
  nodup := h.nodup
  unique := h.unique
  sending := by
    intro tid j hmem
    obtain ⟨i, hi, hrun⟩ := h.sending tid j hmem
    exact ⟨i, hi, hrunning tid _ hrun⟩
  clients := by
    intro j i hj
    obtain ⟨call, peer, hcall, hpeer, hmessage, hwhere⟩ := h.clients j i hj
    obtain ⟨call', hcall', hsame⟩ := AsyncLogger.step_logmessage hstep hcall
    refine ⟨call', peer, hcall', hpeer, by rw [hsame, hmessage], ?_⟩
    rw [hcompleted]
    exact hwhere
  done := by
    intro i hi
    rw [hcompleted] at hi
    exact h.done i hi

/-- A worker is back, and its task is completed. -/
theorem Linked.complete (h : Linked s) {tid : Nat} {t : Task} {logger : AsyncLogger.State}
    (hstep : AsyncLogger.step s.logger (.worker tid) = some logger)
    (hmay : s.mayStep (.worker tid) = true)
    (hrun : s.logger.pool.workers[tid]? = some (.running t))
    (hcompleted : logger.pool.completed = s.logger.pool.completed ++ [t])
    (hworkers : logger.pool.workers = s.logger.pool.workers.set tid .runInc) :
    Linked { s with logger := logger, sending := s.stillSending (.worker tid) } := by
  -- the client of the worker
  simp only [State.mayStep, hrun, Option.any_eq_true] at hmay
  obtain ⟨j₀, hlookup, hback⟩ := hmay
  obtain ⟨before, after, hsplit, -⟩ := List.lookup_eq_some_iff.mp hlookup
  have hmem : (tid, j₀) ∈ s.sending := by simp [hsplit]
  obtain ⟨i₀, hi₀, hrun₀⟩ := h.sending tid j₀ hmem
  obtain rfl : t = backlogTask i₀ := by
    rw [hrun] at hrun₀
    cases hrun₀
    rfl
  have hstill : ∀ tid' j, (tid', j) ∈ s.stillSending (.worker tid) ↔
      (tid', j) ∈ s.sending ∧ tid' ≠ tid := by
    intro tid' j
    simp [State.stillSending]
  constructor
  case length => exact h.length
  case nodup => exact h.nodup
  case unique =>
    intro tid' j j' hj hj'
    exact h.unique tid' j j' ((hstill _ _).mp hj).1 ((hstill _ _).mp hj').1
  case sending =>
    intro tid' j hj
    obtain ⟨hj, hne⟩ := (hstill _ _).mp hj
    obtain ⟨i, hi, hruni⟩ := h.sending tid' j hj
    refine ⟨i, hi, ?_⟩
    show logger.pool.workers[tid']? = _
    rw [hworkers, List.getElem?_set_ne (Ne.symm hne), hruni]
  case clients =>
    intro j i hj
    obtain ⟨call, peer, hcall, hpeer, hmessage, hwhere⟩ := h.clients j i hj
    obtain ⟨call', hcall', hsame⟩ := AsyncLogger.step_logmessage hstep hcall
    refine ⟨call', peer, hcall', hpeer, by rw [hsame, hmessage], ?_⟩
    show _ ∨ (_ ∈ logger.pool.completed ∧ _)
    rw [hcompleted]
    obtain ⟨tid', hj'⟩ | ⟨hdone, hreturned⟩ := hwhere
    · by_cases htid : tid' = tid
      · rw [htid] at hj'
        obtain rfl := h.unique tid j j₀ hj' hmem
        rw [hi₀] at hj
        cases hj
        refine .inr ⟨by simp, ?_⟩
        simpa [State.isBack, hpeer] using hback
      · exact .inl ⟨tid', (hstill _ _).mpr ⟨hj', htid⟩⟩
    · exact .inr ⟨List.mem_append_left _ hdone, hreturned⟩
  case done =>
    intro i hi
    have hi : backlogTask i ∈ logger.pool.completed := hi
    rw [hcompleted, List.mem_append, List.mem_singleton] at hi
    obtain hi | hi := hi
    · exact h.done i hi
    · have hid : i = i₀ := congrArg Task.id hi
      rw [hid]
      exact List.mem_of_getElem? hi₀

/-- A worker calls `send_backlog`. -/
theorem Linked.send {min max exitThread : Int} (h : Linked s)
    (hreach : (AsyncLogger.system min max exitThread).Reachable s.logger) {tid : Nat} {t : Task}
    {c : BackupLog.Connection} (hrun : s.logger.pool.workers[tid]? = some (.running t))
    (hfree : s.sending.lookup tid = none)
    (hrecord : (s.logger.calls[t.id]?).map (·.logmessage.format) = some c.message) :
    Linked { s with
      server := { s.server with peers := s.server.peers ++ [⟨c, BackupLog.start, .service⟩] }
      owners := s.owners ++ [t.id]
      sending := (tid, s.server.peers.length) :: s.sending } := by
  have hfree : ∀ j, (tid, j) ∉ s.sending := by
    intro j hj
    exact absurd (List.lookup_eq_none_iff.mp hfree _ hj) (by simp)
  obtain ⟨htask, -⟩ := AsyncLogger.running_eq hreach hrun
  rw [htask] at hrun
  obtain ⟨hnotdone, honly⟩ := AsyncLogger.running_once hreach hrun
  -- the task had no client before
  have hnew : t.id ∉ s.owners := by
    intro hmem
    obtain ⟨j, hj⟩ := List.getElem?_of_mem hmem
    obtain ⟨-, -, -, -, -, ⟨tid', hj'⟩ | ⟨hdone, -⟩⟩ := h.clients j t.id hj
    · obtain ⟨i, hi, hruni⟩ := h.sending tid' j hj'
      rw [hj] at hi
      cases hi
      rw [honly tid' hruni] at hj'
      exact hfree j hj'
    · exact hnotdone hdone
  have hold : ∀ (j : Nat) i, s.owners[j]? = some i → (s.owners ++ [t.id])[j]? = some i := by
    intro j i hj
    rw [List.getElem?_append_left (List.getElem?_eq_some_iff.mp hj).1, hj]
  have hlast : (s.owners ++ [t.id])[s.server.peers.length]? = some t.id := by
    rw [← h.length, List.getElem?_concat_length]
  constructor
  case length => simp [h.length]
  case nodup =>
    refine List.nodup_append.mpr ⟨h.nodup, by simp, ?_⟩
    intro i hi i' hi' heq
    rw [heq, List.mem_singleton.mp hi'] at hi
    exact hnew hi
  case unique =>
    intro tid' j j' hj hj'
    obtain hj | hj := List.mem_cons.mp hj
    · obtain hj' | hj' := List.mem_cons.mp hj'
      · cases hj
        cases hj'
        rfl
      · cases hj
        exact absurd hj' (hfree j')
    · obtain hj' | hj' := List.mem_cons.mp hj'
      · cases hj'
        exact absurd hj (hfree j)
      · exact h.unique tid' j j' hj hj'
  case sending =>
    intro tid' j hj
    obtain hj | hj := List.mem_cons.mp hj
    · cases hj
      exact ⟨t.id, hlast, hrun⟩
    · obtain ⟨i, hi, hruni⟩ := h.sending tid' j hj
      exact ⟨i, hold j i hi, hruni⟩
  case clients =>
    intro j i hj
    by_cases hlt : j < s.owners.length
    · have hj : (s.owners ++ [t.id])[j]? = some i := hj
      rw [List.getElem?_append_left hlt] at hj
      obtain ⟨call, peer, hcall, hpeer, hmessage, hwhere⟩ := h.clients j i hj
      refine ⟨call, peer, hcall, ?_, hmessage, ?_⟩
      · show (s.server.peers ++ _)[j]? = some peer
        rw [List.getElem?_append_left (h.length ▸ hlt), hpeer]
      · exact hwhere.imp_left fun ⟨tid', hj'⟩ => ⟨tid', List.mem_cons_of_mem _ hj'⟩
    · have hj : (s.owners ++ [t.id])[j]? = some i := hj
      have hlen := (List.getElem?_eq_some_iff.mp hj).1
      rw [List.length_append, List.length_singleton] at hlen
      obtain rfl : j = s.server.peers.length := by
        have := h.length
        omega
      rw [hlast] at hj
      cases hj
      obtain ⟨call, hcall, hmessage⟩ := Option.map_eq_some_iff.mp hrecord
      refine ⟨call, _, hcall, List.getElem?_concat_length, hmessage.symm, ?_⟩
      exact .inl ⟨tid, List.mem_cons_self⟩
  case done =>
    intro i hi
    exact List.mem_append_left _ (h.done i hi)

/-! ## Steps -/

/-- What a step is. -/
theorem step_cases {a : Action} (h : step s a = some s') :
    (∃ b logger, a = .logger b ∧ s.mayStep b = true ∧
      AsyncLogger.step s.logger b = some logger ∧
      s' = { s with logger := logger, sending := s.stillSending b }) ∨
    (∃ tid c t, a = .send tid c ∧ s.logger.pool.workers[tid]? = some (.running t) ∧
      s.sending.lookup tid = none ∧
      (s.logger.calls[t.id]?).map (·.logmessage.format) = some c.message ∧
      s' = { s with
        server := { s.server with peers := s.server.peers ++ [⟨c, BackupLog.start, .service⟩] }
        owners := s.owners ++ [t.id]
        sending := (tid, s.server.peers.length) :: s.sending }) ∨
    ∃ b server, ((∃ j c, a = .link j c ∧ b = .link j c) ∨
        ∃ j c, a = .backup j c ∧ b = .backup j c) ∧
      BackupLog.TcpServer.step s.server b = some server ∧ s' = { s with server := server } := by
  cases a with
  | logger b =>
    obtain ⟨hmay, h⟩ := Option.ite_none_right_eq_some.mp h
    obtain ⟨logger, hlogger, rfl⟩ := Option.map_eq_some_iff.mp h
    exact .inl ⟨b, logger, rfl, hmay, hlogger, rfl⟩
  | send tid c =>
    simp only [step] at h
    split at h
    · rename_i t hrun
      obtain ⟨⟨-, hfree, hrecord⟩, h⟩ := Option.ite_none_right_eq_some.mp h
      obtain ⟨server, hserver, rfl⟩ := Option.map_eq_some_iff.mp h
      obtain rfl := Option.some.inj hserver
      exact .inr (.inl ⟨tid, c, t, rfl, hrun, hfree, hrecord, rfl⟩)
    · cases h
  | link j b =>
    obtain ⟨-, h⟩ := Option.ite_none_left_eq_some.mp h
    obtain ⟨server, hserver, rfl⟩ := Option.map_eq_some_iff.mp h
    exact .inr (.inr ⟨_, server, .inl ⟨j, b, rfl, rfl⟩, hserver, rfl⟩)
  | backup j b =>
    obtain ⟨server, hserver, rfl⟩ := Option.map_eq_some_iff.mp h
    exact .inr (.inr ⟨_, server, .inr ⟨j, b, rfl, rfl⟩, hserver, rfl⟩)

theorem step_linked {min max exitThread : Int} {a : Action}
    (hreach : (AsyncLogger.system min max exitThread).Reachable s.logger) (h : Linked s)
    (hstep : step s a = some s') : Linked s' := by
  obtain ⟨b, logger, -, hmay, hlogger, rfl⟩ | ⟨tid, c, t, -, hrun, hfree, hrecord, rfl⟩ |
    ⟨b, server, hb, hserver, rfl⟩ := step_cases hstep
  · obtain ⟨tid, t, rfl, hrun, hcompleted, hworkers⟩ | ⟨hnot, hcompleted, hrunning⟩ :=
      AsyncLogger.step_running hlogger
    · exact h.complete hlogger hmay hrun hcompleted hworkers
    · rw [h.stillSending hnot]
      exact h.logger hlogger hcompleted hrunning
  · exact h.send hreach hrun hfree hrecord
  · apply h.server (BackupLog.TcpServer.step_keeps hserver _)
    obtain ⟨j, c, -, rfl⟩ | ⟨j, c, -, rfl⟩ := hb
    · simp
    · simp

/-- The logger of the system is a logger. -/
theorem step_logger {min max exitThread : Int} {a : Action}
    (hreach : (AsyncLogger.system min max exitThread).Reachable s.logger)
    (hstep : step s a = some s') :
    (AsyncLogger.system min max exitThread).Reachable s'.logger := by
  obtain ⟨b, logger, -, -, hlogger, rfl⟩ | ⟨tid, c, t, -, -, -, -, rfl⟩ | ⟨b, server, -, -, rfl⟩ :=
    step_cases hstep
  · exact hreach.step hlogger
  · exact hreach
  · exact hreach

theorem reachable_linked {min max exitThread : Int} {file : Bytes}
    (h : (system min max exitThread file).Reachable s) :
    (AsyncLogger.system min max exitThread).Reachable s.logger ∧ Linked s := by
  apply h.invariant (I := fun s =>
    (AsyncLogger.system min max exitThread).Reachable s.logger ∧ Linked s)
  · rintro s rfl
    exact ⟨Transition.Reachable.of_init _ rfl, start_linked min max exitThread file⟩
  · rintro s a s' ⟨hreach, hlinked⟩ hstep
    exact ⟨step_logger hreach hstep, step_linked hreach hlinked hstep⟩

/-! ## The local log and the clients -/

/-- A client sends the record of an ERROR or FATAL call. -/
theorem Linked.severe {min max exitThread : Int} (h : Linked s)
    (hreach : (AsyncLogger.system min max exitThread).Reachable s.logger) {j i : Nat}
    {call : AsyncLogger.Call} (hj : s.owners[j]? = some i)
    (hi : s.logger.calls[i]? = some call) : Severe call.logmessage := by
  have hwaking := AsyncLogger.waking_of_reachable hreach
  have hadded : backlogTask i ∈ s.logger.pool.added := by
    obtain ⟨-, -, -, -, -, ⟨tid, htid⟩ | ⟨hdone, -⟩⟩ := h.clients j i hj
    · obtain ⟨i', hi', hrun⟩ := h.sending tid j htid
      rw [hj] at hi'
      cases hi'
      exact (AsyncLogger.running_eq hreach hrun).2
    · have hpool := AsyncLogger.waking_pool hwaking
      have hle := (ThreadPool.reachable_placesOf (backlogTask i) hpool).1
      have hpos := List.count_pos_iff.mpr hdone
      unfold ThreadPool.State.placesOf at hle
      exact List.count_pos_iff.mp (by omega)
  have hcall := AsyncLogger.waking_assigned hwaking i call hi
  by_contra hlow
  unfold AsyncLogger.Call.Assigned at hcall
  rw [if_neg hlow] at hcall
  exact hcall.1 hadded

/-- A record that has come to `Push` has its client, and the client is back. -/
theorem Linked.client_of_pushed {min max exitThread : Int} (h : Linked s)
    (hreach : (AsyncLogger.system min max exitThread).Reachable s.logger) {i : Nat}
    {call : AsyncLogger.Call} (hi : s.logger.calls[i]? = some call)
    (hsevere : Severe call.logmessage) (hpc : call.pc = .flush ∨ call.pc = .returned) :
    ∃ (j : Nat) (peer : BackupLog.TcpServer.Peer), s.owners[j]? = some i ∧
      s.server.peers[j]? = some peer ∧ peer.connection.message = call.logmessage.format ∧
      peer.ends.sender = .returned := by
  have hcompleted :=
    AsyncLogger.completed_of_severe (AsyncLogger.waking_of_reachable hreach) hi hsevere hpc
  obtain ⟨j, hj⟩ := List.getElem?_of_mem (h.done i hcompleted)
  obtain ⟨call', peer, hcall', hpeer, hmessage, hwhere⟩ := h.clients j i hj
  rw [hi] at hcall'
  cases hcall'
  refine ⟨j, peer, hj, hpeer, hmessage, ?_⟩
  obtain ⟨tid, htid⟩ | ⟨-, hback⟩ := hwhere
  · obtain ⟨i', hi', hrun⟩ := h.sending tid j htid
    rw [hj] at hi'
    cases hi'
    exact absurd hcompleted (AsyncLogger.running_once hreach hrun).1
  · exact hback

/-- What `Push` has got is the record of a call that has returned. -/
theorem pushed_call {min max exitThread : Int} {logger : AsyncLogger.State}
    (hreach : (AsyncLogger.system min max exitThread).Reachable logger) {i : Nat} {bytes : Bytes}
    (hmem : (i, bytes) ∈ logger.pushed) : ∃ call, logger.calls[i]? = some call ∧
      bytes = call.logmessage.format ∧ call.pc = .returned := by
  have hconsistent := AsyncLogger.reachable_consistent hreach
  have hi := List.getElem?_eq_getElem (hconsistent.pushed _ hmem)
  have hpushes := hconsistent.pushes i _ hi
  have hfilter : (i, bytes) ∈ logger.pushed.filter (·.1 = i) :=
    List.mem_filter.mpr ⟨hmem, by simp⟩
  rw [hpushes] at hfilter
  split at hfilter
  · rename_i hpc
    exact ⟨_, hi, congrArg Prod.snd (List.mem_singleton.mp hfilter), hpc⟩
  · cases hfilter

/-! ## Nothing fails -/

/-- Nothing fails between the clients and the file, as in `TcpServer.Unfailing`. -/
def Unfailing (s : State) : Action → Prop
  | .link j a => BackupLog.TcpServer.Unfailing s.server (.link j a)
  | .backup j a => BackupLog.TcpServer.Unfailing s.server (.backup j a)
  | _ => True

theorem reachable_server {min max exitThread : Int} {file : Bytes}
    (h : (system min max exitThread file).ReachableBy Unfailing s) :
    (BackupLog.TcpServer.system file).ReachableBy BackupLog.TcpServer.Unfailing s.server := by
  apply h.invariant (I := fun s => (BackupLog.TcpServer.system file).ReachableBy
    BackupLog.TcpServer.Unfailing s.server)
  · rintro s rfl
    exact ⟨_, [], rfl, trivial, rfl⟩
  · intro s a s' hserver hok hstep
    obtain ⟨b, logger, -, -, -, rfl⟩ | ⟨tid, c, t, -, -, -, -, rfl⟩ |
      ⟨b, server, hb, hnext, rfl⟩ := step_cases hstep
    · exact hserver
    · exact hserver.step (a := .client c) trivial rfl
    · refine hserver.step ?_ hnext
      obtain ⟨j, c, rfl, rfl⟩ | ⟨j, c, rfl, rfl⟩ := hb
      · exact hok
      · exact hok

/-- The call whose record client `j` sends. -/
def State.owner (s : State) (j : Nat) : Nat := s.owners.getD j 0

/-- The name of client `j`. -/
def State.client_info (s : State) (j : Nat) : Bytes :=
  ((s.server.peers[j]?).map (·.connection.client_info)).getD []

/-- The record of call `i`. -/
def State.record (s : State) (i : Nat) : Bytes :=
  ((s.logger.calls[i]?).map (·.logmessage.format)).getD []

/-- A client has one call, and a call has one client. -/
theorem Linked.owner_eq (h : Linked s) {j : Nat} (hlt : j < s.server.peers.length) :
    s.owners[j]? = some (s.owner j) := by
  have hlt : j < s.owners.length := h.length ▸ hlt
  rw [State.owner, List.getD_eq_getElem?_getD, List.getElem?_eq_getElem hlt, Option.getD_some]

theorem Linked.owner_inj (h : Linked s) {j j' : Nat} (hlt : j < s.server.peers.length)
    (hlt' : j' < s.server.peers.length) (heq : s.owner j = s.owner j') : j = j' := by
  have hj := h.owner_eq hlt
  have hj' := h.owner_eq hlt'
  rw [heq, ← hj'] at hj
  exact (List.getElem?_inj (h.length ▸ hlt) h.nodup).mp hj

/-- The entry of a client is the record of its call. -/
theorem Linked.whole_eq (h : Linked s) {j : Nat} {peer : BackupLog.TcpServer.Peer}
    (hj : s.server.peers[j]? = some peer) :
    peer.whole = s.client_info j ++ s.record (s.owner j) ∧
      ∃ call, s.logger.calls[s.owner j]? = some call := by
  have howner := h.owner_eq (List.getElem?_eq_some_iff.mp hj).1
  obtain ⟨call, peer', hcall, hpeer, hmessage, -⟩ := h.clients j _ howner
  rw [hj] at hpeer
  cases hpeer
  refine ⟨?_, call, hcall⟩
  simp [BackupLog.TcpServer.Peer.whole, State.client_info, State.record, hj, hcall, hmessage]

/-! ## A run -/

def errorRecord : LogMessage := ⟨.ERROR, [], 0, [], [], [], []⟩

def errorConnection : BackupLog.Connection :=
  { BackupLog.TcpServer.smallConnection 0 with message := errorRecord.format }

/-- An ERROR record, from its `serialize` to the backup file. -/
def smallChain : List Action :=
  [Action.logger (.serialize errorRecord), Action.logger (.call 0 0), Action.logger (.call 0 0)] ++
    List.replicate 6 (Action.logger (.worker 0)) ++
    [Action.send 0 errorConnection, Action.link 0 (.connect true),
      Action.link 0 (.write (some errorRecord.format.length)), Action.link 0 .close,
      Action.logger (.worker 0), Action.logger (.call 0 0), Action.logger (.call 0 0),
      Action.link 0 (.deliver errorRecord.format.length),
      Action.link 0 (.read (some errorRecord.format.length)), Action.backup 0 (.fopen true),
      Action.backup 0 (.write (some (errorRecord.format.length + 1))), Action.backup 0 .fclose]

instance (s : State) : (a : Action) → Decidable (Unfailing s a)
  | .logger _ => .isTrue trivial
  | .send _ _ => .isTrue trivial
  | .link j a => inferInstanceAs (Decidable (BackupLog.TcpServer.Unfailing s.server (.link j a)))
  | .backup j a =>
    inferInstanceAs (Decidable (BackupLog.TcpServer.Unfailing s.server (.backup j a)))

set_option maxRecDepth 20000 in
theorem reachable_small : ∃ s, (system 1 1 0 []).ReachableBy Unfailing s ∧
    s.logger.pushed = [(0, errorRecord.format)] ∧
    s.logger.calls.map AsyncLogger.Call.logmessage = [errorRecord] ∧
    s.server.peers.map BackupLog.TcpServer.Peer.thread = [.returned] := by
  have hsteps : (system 1 1 0 []).AllSteps Unfailing (start 1 1 0 []) smallChain := by
    decide +kernel
  have hrun : ((system 1 1 0 []).run (start 1 1 0 []) smallChain).any (fun s =>
      s.logger.pushed = [(0, errorRecord.format)] ∧
        s.logger.calls.map AsyncLogger.Call.logmessage = [errorRecord] ∧
        s.server.peers.map BackupLog.TcpServer.Peer.thread = [.returned]) = true := by
    decide +kernel
  obtain ⟨s, hs, hend⟩ := (Option.any_eq_true _ _).mp hrun
  exact ⟨s, ⟨_, smallChain, rfl, hsteps, hs⟩, of_decide_eq_true hend⟩

/-! ## The local log and the backup file -/

/-- Whatever fails, and however the callers, the pool with its shutdown, the network and the
    server interleave: the clients of the server are those of ERROR and FATAL records, one for a
    record, and each such record that the local log has got has its client, which is back. -/
theorem sent_once {min max exitThread : Int} {file : Bytes}
    (h : (system min max exitThread file).Reachable s) :
    s.owners.length = s.server.peers.length ∧ s.owners.Nodup ∧
    (∀ (j : Nat) i, s.owners[j]? = some i → ∃ call peer, s.logger.calls[i]? = some call ∧
      Severe call.logmessage ∧ s.server.peers[j]? = some peer ∧
      peer.connection.message = call.logmessage.format) ∧
    ∀ i bytes, (i, bytes) ∈ s.logger.pushed → ∃ call, s.logger.calls[i]? = some call ∧
      bytes = call.logmessage.format ∧
      (Severe call.logmessage → ∃ (j : Nat) (peer : BackupLog.TcpServer.Peer),
        s.owners[j]? = some i ∧ s.server.peers[j]? = some peer ∧
        peer.connection.message = bytes ∧ peer.ends.sender = .returned) := by
  obtain ⟨hreach, hlinked⟩ := reachable_linked h
  refine ⟨hlinked.length, hlinked.nodup, ?_, ?_⟩
  · intro j i hj
    obtain ⟨call, peer, hcall, hpeer, hmessage, -⟩ := hlinked.clients j i hj
    exact ⟨call, peer, hcall, hlinked.severe hreach hj hcall, hpeer, hmessage⟩
  · intro i bytes hmem
    obtain ⟨call, hcall, rfl, hpc⟩ := pushed_call hreach hmem
    exact ⟨call, hcall, rfl, fun hsevere =>
      hlinked.client_of_pushed hreach hcall hsevere (.inr hpc)⟩

theorem sent_once_small : ∃ (s : State) (j : Nat) (peer : BackupLog.TcpServer.Peer),
    (system 1 1 0 []).Reachable s ∧ s.logger.pushed = [(0, errorRecord.format)] ∧
      s.owners[j]? = some 0 ∧ s.server.peers[j]? = some peer ∧
      peer.connection.message = errorRecord.format ∧ peer.ends.sender = .returned := by
  obtain ⟨s, hreach, hpushed, hcalls, -⟩ := reachable_small
  obtain ⟨-, -, -, hlog⟩ := sent_once hreach.reachable
  obtain ⟨call, hcall, -, hclient⟩ := hlog 0 errorRecord.format (by simp [hpushed])
  have hrecord : call.logmessage = errorRecord := by
    have hget := congrArg (fun records => records[0]?) hcalls
    simpa [hcall] using hget
  obtain ⟨j, peer, hj, hpeer, hmessage, hback⟩ := hclient (by rw [hrecord]; exact .inl rfl)
  exact ⟨s, j, peer, hreach.reachable, hpushed, hj, hpeer, hmessage, hback⟩

/-- The backup file has, behind what it held, whole entries of ERROR and FATAL records, one for
    a record, and when the threads of the server have returned it has every such record that the
    local log has got. -/
theorem file_has_records {min max exitThread : Int} {file : Bytes}
    (h : (system min max exitThread file).ReachableBy Unfailing s) :
    ∃ written : List (Nat × Bytes),
      s.server.file = file ++ (written.map fun w => w.2 ++ s.record w.1).flatten ∧
      (written.map Prod.fst).Nodup ∧
      (∀ w ∈ written, ∃ call, s.logger.calls[w.1]? = some call ∧ Severe call.logmessage) ∧
      ((∀ peer ∈ s.server.peers, peer.thread = .returned) → ∀ i bytes,
        (i, bytes) ∈ s.logger.pushed → ∃ call, s.logger.calls[i]? = some call ∧
          bytes = s.record i ∧ (Severe call.logmessage → i ∈ written.map Prod.fst)) := by
  obtain ⟨hreach, hlinked⟩ := reachable_linked h.reachable
  obtain ⟨pieces, hpieces, hentries⟩ := BackupLog.TcpServer.reachable_entries (reachable_server h)
  have hlt : ∀ j ∈ pieces.map Prod.fst, j < s.server.peers.length := by
    intro j hj
    obtain ⟨p, hp, rfl⟩ := List.mem_map.mp hj
    exact hpieces.known p hp
  refine ⟨pieces.map fun p => (s.owner p.1, s.client_info p.1), ?_, ?_, ?_, ?_⟩
  · rw [hpieces.file_eq, List.map_map]
    congr 2
    apply List.map_congr_left
    intro p hp
    obtain ⟨peer, hpeer, hwhole⟩ := hentries.whole p hp
    rw [hwhole, (hlinked.whole_eq hpeer).1]
    rfl
  · have hmap : (pieces.map fun p => (s.owner p.1, s.client_info p.1)).map Prod.fst =
        (pieces.map Prod.fst).map s.owner := by
      simp
    rw [hmap]
    exact List.Nodup.map_on (fun j hj j' hj' heq =>
      hlinked.owner_inj (hlt j hj) (hlt j' hj') heq) hentries.nodup
  · intro w hw
    obtain ⟨p, hp, rfl⟩ := List.mem_map.mp hw
    obtain ⟨peer, hpeer, -⟩ := hentries.whole p hp
    obtain ⟨-, call, hcall⟩ := hlinked.whole_eq hpeer
    exact ⟨call, hcall, hlinked.severe hreach (hlinked.owner_eq (hpieces.known p hp)) hcall⟩
  · intro hreturned i bytes hmem
    obtain ⟨call, hcall, rfl, hpc⟩ := pushed_call hreach hmem
    refine ⟨call, hcall, by simp [State.record, hcall], ?_⟩
    intro hsevere
    obtain ⟨j, peer, hj, hpeer, -, -⟩ :=
      hlinked.client_of_pushed hreach hcall hsevere (.inr hpc)
    have hkeeps := hentries.keeps j peer hpeer
    rw [hreturned peer (List.mem_of_getElem? hpeer)] at hkeeps
    obtain ⟨p, hp, rfl⟩ := List.mem_map.mp hkeeps
    have howner : s.owner p.1 = i := by
      rw [hlinked.owner_eq (hpieces.known p hp)] at hj
      exact Option.some.inj hj
    rw [← howner]
    exact List.mem_map_of_mem (List.mem_map_of_mem hp)

theorem file_has_records_small : ∃ (s : State) (written : List (Nat × Bytes)),
    s.logger.pushed = [(0, errorRecord.format)] ∧
      s.server.file = (written.map fun w => w.2 ++ s.record w.1).flatten ∧
      0 ∈ written.map Prod.fst := by
  obtain ⟨s, hreach, hpushed, hcalls, hthreads⟩ := reachable_small
  obtain ⟨written, hfile, -, -, hlog⟩ := file_has_records hreach
  have hreturned : ∀ peer ∈ s.server.peers, peer.thread = .returned := by
    intro peer hpeer
    have hmem := List.mem_map_of_mem (f := BackupLog.TcpServer.Peer.thread) hpeer
    rw [hthreads] at hmem
    exact List.mem_singleton.mp hmem
  obtain ⟨call, hcall, -, hwritten⟩ := hlog hreturned 0 errorRecord.format (by simp [hpushed])
  have hrecord : call.logmessage = errorRecord := by
    have hget := congrArg (fun records => records[0]?) hcalls
    simpa [hcall] using hget
  exact ⟨s, written, hpushed, hfile, hwritten (by rw [hrecord]; exact .inl rfl)⟩

end Mylog.BackupChain
