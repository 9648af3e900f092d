import AsyncLogStorage.Native.BackupLog

/-!
# What the backup server makes of a record

`service` reads once, takes what it got for a C string, and stores the NUL behind it. So
the record comes out whole exactly when that one `read` returns all of it and there is
room for the NUL in the buffer.

## Key results

- `run_length_le`, `exists_step_of_reading`: `service` is never left waiting
- `delivers_whole_iff`: in which runs, and for which records, `func_` gets the record
-/

namespace BackupLog

variable {c : Connection}

/-- `service` has stored within its buffer, and it has called `func_` once, with the client
    and the whole record, when it returns. -/
def Delivered (c : Connection) (s : State) : Prop :=
  s.service ≠ .overrun ∧
    s.calls = if s.service = .returned then [c.client_info ++ c.message] else []

instance {s : State} : Decidable (Delivered c s) := inferInstanceAs (Decidable (_ ∧ _))

/-- Neither `write` nor `read` fails. -/
def NoError : Action → Prop
  | .write n => n ≠ none
  | .read n => n ≠ none
  | _ => True

/-- If this is the `read` of `service`, it returns the whole record, which is not empty, leaves
    room in the buffer and has no NUL. -/
def ReadsWhole (c : Connection) (s : State) : Action → Prop
  | .read n => s.service = .reading → Readable s n →
      n = some c.message.length ∧ 0 < c.message.length ∧ c.message.length < bufSize ∧
        0 ∉ c.message
  | _ => True

/-! ## The end of `service` -/

/-- Where there is room for the NUL, `func_` gets what was read up to its first NUL. -/
theorem service_some (s : State) {data : Bytes} (hpos : 0 < data.length)
    (hroom : data.length < bufSize) :
    service c s (some data) =
      { s with service := .returned, calls := s.calls ++ [c.client_info ++ Bytes.cstr data] } := by
  have hlen := c.buf_length
  have hstore : (c.buf.overwrite 0 data).set data.length 0 =
      data ++ 0 :: c.buf.drop (data.length + 1) := by
    rw [List.overwrite_eq (by omega), List.take_zero, List.nil_append, Nat.zero_add,
      List.set_append_right _ _ (Nat.le_refl _), Nat.sub_self,
      List.drop_eq_getElem_cons (by omega), List.set_cons_zero]
  simp only [service, hpos, ↓reduceIte, List.length_overwrite, hlen, hroom, hstore,
    Bytes.cstr_append_nul]

/-- The NUL behind a full buffer is out of bounds. -/
theorem service_full (s : State) {data : Bytes} (hfull : data.length = bufSize) :
    service c s (some data) = { s with service := .overrun } := by
  have hpos : 0 < data.length := by rw [hfull]; decide
  have hroom : ¬data.length < bufSize := by omega
  simp only [service, hpos, ↓reduceIte, List.length_overwrite, c.buf_length, hroom]

/-! ## Steps -/

/-- The kinds of steps of the system. -/
theorem step_cases {s s' : State} {a : Action} (h : step c s a = some s') :
    (∃ cnt, a = .connect true ∧ s.sender = .connect cnt ∧
      s' = { s with sender := .write, service := .reading }) ∨
    (∃ cnt, a = .connect false ∧ s.sender = .connect cnt ∧
      s' = { s with sender := if cnt - 1 ≤ 0 then .returned else .connect (cnt - 1) }) ∨
    (a = .write none ∧ s.sender = .write ∧ s' = { s with sender := .close }) ∨
    (∃ n, a = .write (some n) ∧ s.sender = .write ∧ n ≤ c.message.length ∧
      (0 < n ∨ c.message = []) ∧
      s' = { s with sender := .close, inFlight := c.message.take n }) ∨
    (a = .close ∧ s.sender = .close ∧ s' = { s with sender := .returned }) ∨
    (∃ n, a = .deliver n ∧ 0 < n ∧ n ≤ s.inFlight.length ∧
      s' = { s with inFlight := s.inFlight.drop n,
                    arrived := s.arrived ++ s.inFlight.take n }) ∨
    (∃ n, a = .read n ∧ s.service = .reading ∧ Readable s n ∧
      s' = service c { s with arrived := s.arrived.drop (n.getD 0) }
        (n.map (s.arrived.take ·))) := by
  cases a with
  | connect established =>
    simp only [step] at h
    split at h
    · rename_i cnt hsender
      cases established with
      | true =>
        cases h
        exact .inl ⟨cnt, rfl, hsender, rfl⟩
      | false =>
        refine .inr (.inl ⟨cnt, rfl, hsender, ?_⟩)
        simp only [Bool.false_eq_true, ↓reduceIte] at h
        split at h
        · rename_i hlast
          rw [if_pos hlast]
          exact (Option.some.inj h).symm
        · rename_i hmore
          rw [if_neg hmore]
          exact (Option.some.inj h).symm
    · cases h
  | write n =>
    obtain ⟨hsender, hs⟩ := Option.ite_none_right_eq_some.mp h
    cases n with
    | none => exact .inr (.inr (.inl ⟨rfl, hsender, (Option.some.inj hs).symm⟩))
    | some n =>
      obtain ⟨⟨hle, hpos⟩, hs⟩ := Option.ite_none_right_eq_some.mp hs
      exact .inr (.inr (.inr (.inl ⟨n, rfl, hsender, hle, hpos, (Option.some.inj hs).symm⟩)))
  | close =>
    obtain ⟨hsender, hs⟩ := Option.ite_none_right_eq_some.mp h
    exact .inr (.inr (.inr (.inr (.inl ⟨rfl, hsender, (Option.some.inj hs).symm⟩))))
  | deliver n =>
    obtain ⟨⟨hpos, hle⟩, hs⟩ := Option.ite_none_right_eq_some.mp h
    exact .inr (.inr (.inr (.inr (.inr (.inl ⟨n, rfl, hpos, hle, (Option.some.inj hs).symm⟩)))))
  | read n =>
    obtain ⟨⟨hreading, hreadable⟩, hs⟩ := Option.ite_none_right_eq_some.mp h
    exact .inr (.inr (.inr (.inr (.inr (.inr
      ⟨n, rfl, hreading, hreadable, (Option.some.inj hs).symm⟩)))))

/-! ## The stream -/

/-- The sender has not called `write` yet. -/
def SenderPc.beforeWrite : SenderPc → Bool
  | .connect _ | .write => true
  | _ => false

/-- What holds of the two ends in every reachable state. -/
structure InStream (c : Connection) (s : State) : Prop where
  connecting : ∀ cnt, s.sender = .connect cnt → s.service = .notStarted
  unsent : s.sender.beforeWrite = true → s.inFlight = [] ∧ s.arrived = []
  /-- Until `service` has read, everything sent is there, and it is the front of the record. -/
  stream : s.service = .reading → s.arrived ++ s.inFlight <+: c.message

/-- Behind its `read`, `service` only ends and calls `func_`. -/
theorem service_eq (s : State) (data : Option Bytes) :
    ∃ pc calls, (pc = .returned ∨ pc = .overrun) ∧
      service c s data = { s with service := pc, calls := calls } := by
  cases data with
  | none => exact ⟨.returned, s.calls, .inl rfl, rfl⟩
  | some data =>
    by_cases hpos : 0 < data.length
    · simp only [service, hpos, ↓reduceIte]
      split
      · exact ⟨.returned, _, .inl rfl, rfl⟩
      · exact ⟨.overrun, s.calls, .inr rfl, rfl⟩
    · simp only [service, hpos, ↓reduceIte]
      exact ⟨.returned, s.calls, .inl rfl, rfl⟩

theorem start_inStream : InStream c start := by
  refine ⟨fun _ _ => rfl, fun _ => ⟨rfl, rfl⟩, nofun⟩

theorem step_inStream {s s' : State} {a : Action} (hs : InStream c s)
    (h : step c s a = some s') : InStream c s' := by
  obtain ⟨cnt, -, hsender, rfl⟩ | ⟨cnt, -, hsender, rfl⟩ | ⟨-, hsender, rfl⟩ |
    ⟨n, -, hsender, hle, -, rfl⟩ | ⟨-, hsender, rfl⟩ | ⟨n, -, hpos, hle, rfl⟩ |
    ⟨n, -, hreading, hreadable, rfl⟩ := step_cases h
  · -- the connection is there, and nothing is sent
    have hnil := hs.unsent (by rw [hsender]; rfl)
    refine ⟨nofun, fun _ => hnil, fun _ => ?_⟩
    show s.arrived ++ s.inFlight <+: c.message
    rw [hnil.1, hnil.2]
    exact List.nil_prefix
  · have hnot := hs.connecting cnt hsender
    have hnil := hs.unsent (by rw [hsender]; rfl)
    refine ⟨fun _ _ => hnot, fun _ => hnil, fun hreading => ?_⟩
    rw [show s.service = .reading from hreading] at hnot
    cases hnot
  · have hnil := hs.unsent (by rw [hsender]; rfl)
    exact ⟨nofun, fun _ => hnil, hs.stream⟩
  · have hnil := hs.unsent (by rw [hsender]; rfl)
    refine ⟨nofun, nofun, fun _ => ?_⟩
    show s.arrived ++ c.message.take n <+: c.message
    rw [hnil.2]
    exact List.take_prefix n c.message
  · exact ⟨nofun, nofun, hs.stream⟩
  · -- what the network delivers only changes its place
    refine ⟨hs.connecting, fun hbefore => ?_, fun hreading => ?_⟩
    · rw [(hs.unsent hbefore).1, List.length_nil] at hle
      omega
    · show s.arrived ++ s.inFlight.take n ++ s.inFlight.drop n <+: c.message
      rw [List.append_assoc, List.take_append_drop]
      exact hs.stream hreading
  · -- `service` has read
    obtain ⟨pc, calls, hpc, heq⟩ := service_eq (c := c)
      { s with arrived := s.arrived.drop (n.getD 0) } (n.map (s.arrived.take ·))
    rw [heq]
    refine ⟨fun cnt hcnt => ?_, fun hbefore => ?_, fun hback => ?_⟩
    · rw [hs.connecting cnt hcnt] at hreading
      cases hreading
    · obtain ⟨hnil, hnil'⟩ := hs.unsent hbefore
      exact ⟨hnil, by rw [hnil', List.drop_nil]⟩
    · obtain rfl | rfl := hpc <;> cases hback

/-! ## One step -/

/-- Every step keeps the promise, except a `read` that does not return the whole record. -/
theorem step_delivered_iff {s s' : State} {a : Action} (hs : InStream c s) (hdel : Delivered c s)
    (h : step c s a = some s') : Delivered c s' ↔ ReadsWhole c s a := by
  obtain ⟨cnt, rfl, hsender, rfl⟩ | ⟨cnt, rfl, -, rfl⟩ | ⟨rfl, -, rfl⟩ | ⟨n, rfl, -, -, -, rfl⟩ |
    ⟨rfl, -, rfl⟩ | ⟨n, rfl, -, -, rfl⟩ | ⟨n, rfl, hreading, hreadable, rfl⟩ := step_cases h
  · refine iff_of_true ⟨nofun, ?_⟩ trivial
    have hcalls := hdel.2
    rw [hs.connecting cnt hsender] at hcalls
    exact hcalls
  · exact iff_of_true hdel trivial
  · exact iff_of_true hdel trivial
  · exact iff_of_true hdel trivial
  · exact iff_of_true hdel trivial
  · exact iff_of_true hdel trivial
  · have hcalls : s.calls = [] := by
      have hcalls := hdel.2
      rw [hreading] at hcalls
      exact hcalls
    have harrived : s.arrived <+: c.message :=
      (List.prefix_append s.arrived s.inFlight).trans (hs.stream hreading)
    simp only [ReadsWhole, hreading, hreadable, true_implies]
    match n, hreadable with
    | none, _ => simp [Delivered, service, hcalls]
    | some 0, _ =>
      refine iff_of_false (fun h => ?_) ?_
      · simpa [service, hcalls] using h.2
      · rintro ⟨heq, hpos, -, -⟩
        rw [← Option.some.inj heq] at hpos
        exact absurd hpos (Nat.lt_irrefl 0)
    | some (n + 1), ⟨hfit, havail⟩ =>
      -- what has been read is a front of the record
      have hdata : s.arrived.take (n + 1) <+: c.message := (List.take_prefix _ _).trans harrived
      have hlen : (s.arrived.take (n + 1)).length = n + 1 := List.length_take_of_le havail
      simp only [Option.map_some, Option.some.injEq]
      by_cases hfull : n + 1 = bufSize
      · rw [service_full _ (hlen.trans hfull)]
        refine iff_of_false (fun h => h.1 rfl) ?_
        rintro ⟨heq, -, hlt, -⟩
        omega
      · rw [service_some _ (by omega) (by omega), hcalls]
        simp only [Delivered, ne_eq, reduceCtorEq, not_false_eq_true, true_and, ↓reduceIte,
          List.nil_append, List.cons.injEq, List.append_cancel_left_eq, and_true]
        constructor
        · intro hcstr
          have hle : c.message.length ≤ n + 1 := by
            have := Bytes.length_cstr_le (s.arrived.take (n + 1))
            rw [hcstr, hlen] at this
            exact this
          have := hdata.length_le
          refine ⟨by omega, by omega, by omega, ?_⟩
          rw [← hcstr]
          exact Bytes.not_mem_cstr _
        · rintro ⟨heq, -, -, hnul⟩
          rw [hdata.eq_of_length (hlen.trans heq)]
          exact Bytes.cstr_eq_self.mpr hnul

/-! ## The end of a run -/

/-- The steps that the sender can still take, with the deliveries of what it may send. -/
def SenderPc.left (c : Connection) : SenderPc → Nat
  | .connect cnt => cnt.toNat + c.message.length + 3
  | .write => c.message.length + 2
  | .close => 1
  | .returned => 0

/-- `service` has not read yet. -/
def ServicePc.left : ServicePc → Nat
  | .notStarted | .reading => 1
  | .returned | .overrun => 0

/-- No run from here has more steps than this. -/
def State.left (c : Connection) (s : State) : Nat :=
  s.sender.left c + s.inFlight.length + s.service.left

theorem step_left {s s' : State} {a : Action} (hs : InStream c s) (h : step c s a = some s') :
    s'.left c < s.left c := by
  obtain ⟨cnt, -, hsender, rfl⟩ | ⟨cnt, -, hsender, rfl⟩ | ⟨-, hsender, rfl⟩ |
    ⟨n, -, hsender, hle, -, rfl⟩ | ⟨-, hsender, rfl⟩ | ⟨n, -, hpos, hle, rfl⟩ |
    ⟨n, -, hreading, -, rfl⟩ := step_cases h
  · simp only [State.left, hsender, hs.connecting cnt hsender, SenderPc.left, ServicePc.left]
    omega
  · -- one attempt less
    by_cases hlast : cnt - 1 ≤ 0
    · simp only [State.left, hsender, hlast, ↓reduceIte, SenderPc.left]
      omega
    · simp only [State.left, hsender, hlast, ↓reduceIte, SenderPc.left]
      omega
  · simp only [State.left, hsender, SenderPc.left]
    omega
  · have hnil := (hs.unsent (by rw [hsender]; rfl)).1
    simp only [State.left, hsender, SenderPc.left, hnil, List.length_take, List.length_nil]
    omega
  · simp only [State.left, hsender, SenderPc.left]
    omega
  · simp only [State.left, List.length_drop]
    omega
  · obtain ⟨pc, calls, hpc, heq⟩ := service_eq (c := c)
      { s with arrived := s.arrived.drop (n.getD 0) } (n.map (s.arrived.take ·))
    rw [heq]
    simp only [State.left, hreading]
    obtain rfl | rfl := hpc
    · simp only [ServicePc.left]
      omega
    · simp only [ServicePc.left]
      omega

/-- No run goes on for ever. -/
theorem run_length_le {s : State} {as : List Action} (h : (system c).run start as = some s) :
    as.length ≤ c.message.length + 9 := by
  have hbound := Transition.run_length_add_le (I := InStream c) (m := State.left c)
    (fun s a s' hs hstep => step_inStream hs hstep) (fun s a s' hs hstep => step_left hs hstep)
    start_inStream h
  have hstart : start.left c = c.message.length + 9 := by
    show (5 : Int).toNat + c.message.length + 3 + 0 + 1 = _
    omega
  omega

/-- As long as `service` waits in its `read`, something can happen without an error. -/
theorem exists_step_of_reading {s : State} (hs : InStream c s) (hreading : s.service = .reading) :
    ∃ a s', NoError a ∧ step c s a = some s' := by
  cases hsender : s.sender with
  | connect cnt =>
    rw [hs.connecting cnt hsender] at hreading
    cases hreading
  | write =>
    have hall : c.message.length ≤ c.message.length ∧
        (0 < c.message.length ∨ c.message = []) := by
      refine ⟨Nat.le_refl _, ?_⟩
      rw [← List.length_eq_zero_iff]
      omega
    exact ⟨.write (some c.message.length), _, nofun, by simp only [step, hsender, hall]; rfl⟩
  | close => exact ⟨.close, _, trivial, by simp only [step, hsender]; rfl⟩
  | returned =>
    -- what is in flight arrives, what has arrived is read, and then comes the end of the stream
    cases hflight : s.inFlight with
    | cons b rest =>
      have havail : 0 < 1 ∧ 1 ≤ s.inFlight.length := by
        rw [hflight, List.length_cons]
        omega
      exact ⟨.deliver 1, _, trivial, by simp only [step, havail]; rfl⟩
    | nil =>
      cases harrived : s.arrived with
      | cons b rest =>
        have havail : Readable s (some 1) := by
          refine ⟨by decide, ?_⟩
          show 1 ≤ s.arrived.length
          rw [harrived, List.length_cons]
          omega
        exact ⟨.read (some 1), _, nofun, by simp only [step, hreading, havail]; rfl⟩
      | nil =>
        have hend : Readable s (some 0) := ⟨hsender, hflight, harrived⟩
        exact ⟨.read (some 0), _, nofun, by simp only [step, hreading, hend]; rfl⟩

/-! ## Which records are delivered -/

/-- Any non-empty front of a record that fits the buffer can be what `read` returns, and so can
    the end of the stream if the record is empty. -/
theorem exists_readable {n : Nat} (hfit : n ≤ bufSize) (hle : n ≤ c.message.length)
    (hpos : 0 < n ∨ c.message = []) :
    ∃ s, (system c).ReachableBy (fun _ => NoError) s ∧ s.service = .reading ∧
      Readable s (some n) := by
  -- everything is sent, and `n` bytes of it arrive
  have hall : c.message.length ≤ c.message.length ∧ (0 < c.message.length ∨ c.message = []) := by
    refine ⟨Nat.le_refl _, hpos.imp_left fun hpos => ?_⟩
    omega
  have hsent : (system c).ReachableBy (fun _ => NoError)
      { sender := .returned, inFlight := c.message, arrived := [], service := .reading,
        calls := [] } := by
    refine ⟨start, [.connect true, .write (some c.message.length), .close], rfl, ?_, ?_⟩
    · exact Transition.allSteps_of_forall (by simp [NoError]) _
    · simp only [Transition.run_cons, system, step, start, ↓reduceIte, Option.bind_some, hall,
        and_self, Transition.run_nil, List.take_length]
  cases n with
  | zero =>
    have hnil : c.message = [] := hpos.resolve_left (Nat.lt_irrefl 0)
    exact ⟨_, hsent, rfl, rfl, hnil, rfl⟩
  | succ n =>
    have hdeliver : 0 < n + 1 ∧ n + 1 ≤ c.message.length := ⟨by omega, hle⟩
    refine ⟨_, hsent.step (a := .deliver (n + 1)) trivial (if_pos hdeliver), rfl, hfit, ?_⟩
    show n + 1 ≤ ([] ++ c.message.take (n + 1)).length
    rw [List.nil_append, List.length_take_of_le hle]

theorem reachable_inStream {s : State} (h : (system c).Reachable s) : InStream c s := by
  apply h.invariant
  · intro s hs
    rw [show s = start from hs]
    exact start_inStream
  · intro s a s' hs hstep
    have hstep : step c s a = some s' := hstep
    exact step_inStream hs hstep

/-- A `read` that does not return the whole record breaks the promise. -/
theorem exists_not_delivered {n : Nat} (hfit : n ≤ bufSize) (hle : n ≤ c.message.length)
    (hpos : 0 < n ∨ c.message = [])
    (hnot : ¬(n = c.message.length ∧ 0 < n ∧ n < bufSize ∧ 0 ∉ c.message)) :
    ∃ s, (system c).ReachableBy (fun _ => NoError) s ∧ ¬Delivered c s := by
  obtain ⟨s, hreach, hreading, hreadable⟩ := exists_readable hfit hle hpos
  by_cases hdel : Delivered c s
  · have hstep : step c s (.read (some n)) = some (service c
        { s with arrived := s.arrived.drop n } (some (s.arrived.take n))) :=
      if_pos ⟨hreading, hreadable⟩
    refine ⟨_, hreach.step (a := .read (some n)) nofun hstep, ?_⟩
    rw [step_delivered_iff (reachable_inStream hreach.reachable) hdel hstep]
    intro hwhole
    obtain ⟨heq, hlen⟩ := hwhole hreading hreadable
    rw [← Option.some.inj heq] at hlen
    exact hnot ⟨Option.some.inj heq, hlen⟩
  · exact ⟨s, hreach, hdel⟩

/-- As long as `service` has not read, what was written is on its way. -/
def Unread (s : State) : Prop :=
  s.service = .reading → s.sender.beforeWrite = false → s.arrived ++ s.inFlight ≠ []

private theorem step_unread {s s' : State} {a : Action} (hne : c.message ≠ []) (hs : InStream c s)
    (hunread : Unread s) (hok : NoError a) (h : step c s a = some s') : Unread s' := by
  obtain ⟨cnt, -, hsender, rfl⟩ | ⟨cnt, -, hsender, rfl⟩ | ⟨rfl, hsender, rfl⟩ |
    ⟨n, -, hsender, -, hpos, rfl⟩ | ⟨-, hsender, rfl⟩ | ⟨n, -, hpos, hle, rfl⟩ |
    ⟨n, -, -, -, rfl⟩ := step_cases h
  · exact nofun
  · intro hreading
    rw [hs.connecting cnt hsender] at hreading
    cases hreading
  · exact absurd rfl hok
  · -- at least one byte is accepted
    intro _ _ hnil
    have htake := congrArg List.length (List.append_eq_nil_iff.mp hnil).2
    have hlen := List.length_pos_iff.mpr hne
    rw [List.length_take, List.length_nil] at htake
    obtain hpos | hnil := hpos
    · omega
    · exact hne hnil
  · intro hreading _
    exact hunread hreading (by rw [hsender]; rfl)
  · show s.service = .reading → s.sender.beforeWrite = false →
      s.arrived ++ s.inFlight.take n ++ s.inFlight.drop n ≠ []
    rw [List.append_assoc, List.take_append_drop]
    exact hunread
  · intro hreading
    obtain ⟨pc, calls, hpc, heq⟩ := service_eq (c := c)
      { s with arrived := s.arrived.drop (n.getD 0) } (n.map (s.arrived.take ·))
    rw [heq] at hreading
    obtain rfl | rfl := hpc <;> cases hreading

/-- A record of one byte cannot be split, and it is there before the stream ends. -/
private theorem readsWhole_of_single {b : UInt8} (hb : b ≠ 0) (hmsg : c.message = [b]) {s : State}
    {a : Action} (hs : InStream c s) (hunread : Unread s) (hok : NoError a) :
    ReadsWhole c s a := by
  have hlen : c.message.length = 1 := by rw [hmsg]; rfl
  cases a with
  | read n =>
    intro hreading hreadable
    match n, hreadable with
    | none, _ => exact absurd rfl hok
    | some 0, hend =>
      -- the byte is still there
      refine absurd ?_ (hunread hreading (by rw [hend.1]; rfl))
      rw [hend.2.1, hend.2.2, List.append_nil]
    | some (n + 1), hread =>
      have hle := (hs.stream hreading).length_le
      rw [List.length_append] at hle
      have havail := hread.2
      refine ⟨by congr 1; omega, by omega, by rw [hlen]; decide, ?_⟩
      rw [hmsg, List.mem_singleton]
      exact hb.symm
  | _ => trivial

theorem delivered_of_single {b : UInt8} (hb : b ≠ 0) (hmsg : c.message = [b]) {s : State}
    (h : (system c).ReachableBy (fun _ => NoError) s) : Delivered c s := by
  refine (h.invariant (I := fun s => InStream c s ∧ Delivered c s ∧ Unread s) ?_ ?_).2.1
  · intro s hs
    rw [show s = start from hs]
    exact ⟨start_inStream, ⟨nofun, rfl⟩, nofun⟩
  · rintro s a s' ⟨hs, hdel, hunread⟩ hok (h : step c s a = some s')
    have hwhole := readsWhole_of_single hb hmsg hs hunread hok
    refine ⟨step_inStream hs h, (step_delivered_iff hs hdel h).mpr hwhole, ?_⟩
    exact step_unread (by rw [hmsg]; exact List.cons_ne_nil b []) hs hunread hok h

/-- Along a run `service` stays within its buffer and `func_` gets the record, exactly if the one
    `read` returns all of a record that leaves room for the NUL and has none. Every run ends, and
    not in that `read`. So the records that are safe from any splitting are those of one byte. -/
theorem delivers_whole_iff (c : Connection) :
    (∀ as, (system c).Always (Delivered c) start as ↔ (system c).AllSteps (ReadsWhole c) start as) ∧
      (∀ as s, (system c).run start as = some s → as.length ≤ c.message.length + 9 ∧
        (s.service = .reading → ∃ a s', NoError a ∧ (system c).step s a = some s')) ∧
      ((∀ s, (system c).ReachableBy (fun _ => NoError) s → Delivered c s) ↔
        ∃ b, b ≠ 0 ∧ c.message = [b]) := by
  refine ⟨fun as => ?_, fun as s hrun => ⟨run_length_le hrun, fun hreading => ?_⟩, ?_, ?_⟩
  · -- a `read` that is not enabled returns nothing
    have hdisabled : ∀ s a, step c s a = none → ReadsWhole c s a := by
      intro s a hnone
      cases a with
      | read n =>
        intro hreading hreadable
        simp [step, hreading, hreadable] at hnone
      | _ => trivial
    exact Transition.always_iff_allSteps (fun s a s' hs hstep => step_inStream hs hstep) hdisabled
      (fun s a s' hs hdel hstep => step_delivered_iff hs hdel hstep) start_inStream ⟨nofun, rfl⟩
  · exact exists_step_of_reading (reachable_inStream ⟨start, as, rfl, hrun⟩) hreading
  · intro hall
    cases hmsg : c.message with
    | nil =>
      obtain ⟨s, hreach, hnot⟩ := exists_not_delivered (c := c) (n := 0) (by decide) (by omega)
        (.inr hmsg) (by omega)
      exact absurd (hall s hreach) hnot
    | cons b rest =>
      have hpos : 1 ≤ c.message.length := by
        rw [hmsg, List.length_cons]
        omega
      -- the first byte alone has to be the whole record
      by_cases hone : 1 = c.message.length ∧ 0 < 1 ∧ 1 < bufSize ∧ 0 ∉ c.message
      · obtain ⟨hlen, -, -, hnul⟩ := hone
        rw [hmsg, List.length_cons] at hlen
        have hrest : rest = [] := List.length_eq_zero_iff.mp (by omega)
        rw [hmsg, hrest, List.mem_singleton] at hnul
        exact ⟨b, fun heq => hnul heq.symm, by rw [hrest]⟩
      · obtain ⟨s, hreach, hnot⟩ :=
          exists_not_delivered (by decide) hpos (.inl Nat.one_pos) hone
        exact absurd (hall s hreach) hnot
  · rintro ⟨b, hb, hmsg⟩ s hreach
    exact delivered_of_single hb hmsg hreach

/-- A record of 1024 bytes that arrives in one piece makes `service` store behind its buffer. -/
theorem not_delivers_whole :
    ¬∀ (c : Connection) (s : State), (system c).ReachableBy (fun _ => NoError) s →
      Delivered c s := by
  intro h
  let c : Connection :=
    { message := List.replicate bufSize 65
      client_info := []
      buf := List.replicate bufSize 0
      buf_length := List.length_replicate }
  have hlen : c.message.length = bufSize := List.length_replicate
  obtain ⟨s, hreach, hnot⟩ := exists_not_delivered (c := c) (Nat.le_refl _) (Nat.le_of_eq hlen.symm)
    (.inl (by decide)) fun hwhole => Nat.lt_irrefl _ hwhole.2.2.1
  exact hnot (h c s hreach)

end BackupLog
