import AsyncLogStorage.Spec.LogPlaces

/-!
# What `flush_log` keeps

`LogFlush.hpp` says that under `flush_log == 1` a `Flush` only flushes the buffer of the file,
and that under `flush_log == 2` it also synchronises the file with the disk. `Called` follows
the calls of one `Flush`.

## Key results

- `LogDisk.flush_survives_process_iff`: a file survives its process from the return of a `Flush`
  on, and under which values of `flush_log`
- `LogDisk.flush_survives_power_cut_iff`: the same for power cuts, where the entry of the file
  in its directory matters, which no call of the code brings to the disk
- `LogDisk.closed_kept`: a file that was left for another one survives the process under every
  value
-/

namespace Mylog

namespace LogDisk

variable {s s' : State} {flush_log : Nat} {old : List LogFile} {name : Bytes}

/-! ## What `flush_log` asks for -/

/-- The calls of a `Flush` succeed. -/
def Action.Works : Action → Prop
  | .call ok => ok = true
  | _ => True

theorem flushLogCalls_eq_nil (hone : flush_log ≠ 1) (htwo : flush_log ≠ 2) :
    flushLogCalls flush_log = [] := by
  rw [flushLogCalls, if_neg hone, if_neg htwo]

/-- How far the calls of `flush_log` are. -/
structure Called (flush_log : Nat) (s : State) : Prop where
  suffix : s.pending <:+ flushLogCalls flush_log
  flushed : flush_log = 1 ∨ flush_log = 2 → .fflush ∉ s.pending →
    ∀ name, s.kernel name = fileSize s.files name
  synced : flush_log = 2 → .fsync ∉ s.pending → ∀ stream, s.stream = some stream →
    0 < stream.written → s.disk stream.name = fileSize s.files stream.name

/-- Without a stream there is nothing to call. -/
theorem Called.of_closed (h : Inv s) (hpending : s.pending = []) (hnone : s.stream = none) :
    Called flush_log s where
  suffix := by
    rw [hpending]
    exact List.nil_suffix
  flushed _ _ name := by
    obtain hclosed | ⟨stream, hsome, -⟩ := h.closed name
    · exact hclosed
    · rw [hnone] at hsome
      cases hsome
  synced _ _ stream hsome := by
    rw [hnone] at hsome
    cases hsome

/-- The calls in their order: the first one of those that are left. -/
theorem calls_cases {call : StdioCall} {calls : List StdioCall}
    (h : call :: calls <:+ flushLogCalls flush_log) :
    call = .fflush ∧ (flush_log = 1 ∧ calls = [] ∨ flush_log = 2 ∧ calls = [.fileno, .fsync]) ∨
      flush_log = 2 ∧ (call = .fileno ∧ calls = [.fsync] ∨ call = .fsync ∧ calls = []) := by
  unfold flushLogCalls at h
  split at h
  · rename_i hone
    simp only [List.suffix_cons_iff, List.cons.injEq, List.suffix_nil, reduceCtorEq,
      or_false] at h
    exact .inl ⟨h.1, .inl ⟨hone, h.2⟩⟩
  · split at h
    · rename_i htwo
      simp only [List.suffix_cons_iff, List.cons.injEq, List.suffix_nil, reduceCtorEq,
        or_false] at h
      obtain ⟨hcall, hcalls⟩ | ⟨hcall, hcalls⟩ | ⟨hcall, hcalls⟩ := h
      · exact .inl ⟨hcall, .inr ⟨htwo, hcalls⟩⟩
      · exact .inr ⟨htwo, .inl ⟨hcall, hcalls⟩⟩
      · exact .inr ⟨htwo, .inr ⟨hcall, hcalls⟩⟩
    · simp only [List.suffix_nil, reduceCtorEq] at h

theorem called_write {flush : LogFlush} (h : Ready s flush) (chunk : Chunk) (io : FlushIo) :
    Called flush_log (s.write flush_log flush chunk io) := by
  have hinv : Inv (s.write flush_log flush chunk io) := h.inv chunk io
  obtain hsilent | ⟨stream, bytes, happended⟩ := flush_cases flush_log flush chunk io h.there
  · apply Called.of_closed hinv
    · unfold State.write
      simp only [hsilent.stream_eq, Option.isSome_none, Bool.false_eq_true, ↓reduceIte]
    · exact hsilent.stream_write
  · have hpending : (s.write flush_log flush chunk io).pending = flushLogCalls flush_log := by
      unfold State.write
      simp only [happended.stream_eq, Option.isSome_some, ↓reduceIte]
    constructor
    · rw [hpending]
    · intro hcases hnot
      rw [hpending] at hnot
      obtain rfl | rfl := hcases <;> simp [flushLogCalls] at hnot
    · rintro rfl hnot
      rw [hpending] at hnot
      simp [flushLogCalls] at hnot

theorem called_call {stream : Stream} {call : StdioCall} {calls : List StdioCall} (hinv : Inv s)
    (h : Called flush_log s) (hsome : s.stream = some stream)
    (hpending : s.pending = call :: calls) :
    Called flush_log { s.call stream.name call with pending := calls } := by
  have hsuffix : call :: calls <:+ flushLogCalls flush_log := hpending ▸ h.suffix
  have hsuffix' : calls <:+ flushLogCalls flush_log := (List.suffix_cons call calls).trans hsuffix
  -- `fflush` leaves nothing in the buffer
  have hflushed : ∀ name, (s.fflush stream.name).kernel name = fileSize s.files name := by
    have hclose : s.fclose true = s.fflush stream.name := by
      simp only [State.fclose, hsome, ↓reduceIte]
    intro name
    rw [← hclose, kernel_fclose hinv true name, hclose]
    rfl
  obtain ⟨rfl, ⟨rfl, rfl⟩ | ⟨rfl, rfl⟩⟩ | ⟨rfl, ⟨rfl, rfl⟩ | ⟨rfl, rfl⟩⟩ := calls_cases hsuffix
  · exact ⟨hsuffix', fun _ _ => hflushed, fun hcase => nomatch hcase⟩
  · have hfsync : StdioCall.fsync ∈ [StdioCall.fileno, .fsync] := by decide
    exact ⟨hsuffix', fun _ _ => hflushed, fun _ hnot => absurd hfsync hnot⟩
  · have hbefore := h.flushed (.inr rfl) (by rw [hpending]; decide)
    exact ⟨hsuffix', fun _ _ => hbefore, fun _ hnot => absurd List.mem_cons_self hnot⟩
  · have hbefore := h.flushed (.inr rfl) (by rw [hpending]; decide)
    refine ⟨hsuffix', fun _ _ => hbefore, fun _ _ stream' hsome' _ => ?_⟩
    cases hsome.symm.trans hsome'
    show Function.update s.disk stream.name (s.kernel stream.name) stream.name = _
    rw [Function.update_self]
    exact hbefore stream.name

theorem called_step {a : Action} (hinv : Inv s) (h : Called flush_log s) (hworks : a.Works)
    (hstep : step flush_log s a = some s') : Called flush_log s' := by
  have hinv' := inv_step hinv hstep
  cases a with
  | start type =>
    simp only [step, Option.ite_none_right_eq_some, Option.some.injEq] at hstep
    obtain ⟨-, rfl⟩ := hstep
    constructor
    case suffix => exact h.suffix
    case flushed =>
      intro hcases hnot name
      show s.kernel name = (contentOf (type.create s.files).1 name).length
      rw [contentOf_create]
      exact h.flushed hcases hnot name
    case synced =>
      intro _ _ stream hsome hpos
      rw [(stream_create hsome).2] at hpos
      cases hpos
  | flush chunk io closes =>
    cases hflush : s.flush with
    | none =>
      simp only [step, hflush, reduceCtorEq] at hstep
    | some flush =>
      simp only [step, hflush, Option.ite_none_right_eq_some, Option.some.injEq] at hstep
      obtain ⟨-, rfl⟩ := hstep
      exact called_write (hinv.ready hflush closes) chunk io
  | call ok =>
    simp only [step] at hstep
    split at hstep
    · rename_i stream call calls hsome hpending
      cases hstep
      rw [show ok = true from hworks, if_pos rfl]
      exact called_call hinv h hsome hpending
    · cases hstep
  | spill n =>
    simp only [step, Option.map_eq_some_iff] at hstep
    obtain ⟨stream, hsome, rfl⟩ := hstep
    refine ⟨h.suffix, fun hcases hnot name => ?_, h.synced⟩
    -- there is nothing to take any more
    obtain ⟨hle, hle'⟩ := kernel_spill hinv stream.name n name
    have hall := h.flushed hcases hnot name
    exact Nat.le_antisymm hle' (hall ▸ hle)
  | link other =>
    simp only [step, Option.ite_none_right_eq_some, Option.some.injEq] at hstep
    obtain ⟨-, rfl⟩ := hstep
    exact { h with }
  | exit closes =>
    simp only [step, Option.ite_none_right_eq_some, Option.some.injEq] at hstep
    obtain ⟨-, rfl⟩ := hstep
    exact .of_closed hinv' rfl rfl
  | kill =>
    simp only [step, Option.ite_none_right_eq_some, Option.some.injEq] at hstep
    obtain ⟨-, rfl⟩ := hstep
    exact .of_closed hinv' rfl rfl
  | powerCut rest =>
    cases hstep
    exact .of_closed hinv' rfl rfl

/-! ## Results -/

/-- Something was written to the stream, and the last `Flush` has returned. -/
structure Returned (s : State) (stream : Stream) : Prop where
  stream_eq : s.stream = some stream
  written_pos : 0 < stream.written
  pending_eq : s.pending = []

theorem inv_of_reachable (h : (system flush_log old).Reachable s) : Inv s := by
  apply h.invariant
  · rintro s rfl
    exact inv_start old
  · intro s a s' hinv hstep
    exact inv_step hinv hstep

theorem called_of_reachableBy
    (h : (system flush_log old).ReachableBy (fun _ a => a.Works) s) : Called flush_log s := by
  have hboth : Inv s ∧ Called flush_log s := by
    refine h.invariant (I := fun s => Inv s ∧ Called flush_log s) ?_ ?_
    · rintro s rfl
      exact ⟨inv_start old, .of_closed (inv_start old) rfl rfl⟩
    · rintro s a s' ⟨hinv, hcalled⟩ hworks hstep
      exact ⟨inv_step hinv hstep, called_step hinv hcalled hworks hstep⟩
  exact hboth.2

/-- There is a byte in the file. -/
theorem Returned.content_ne_nil {stream : Stream} (h : Returned s stream) (hinv : Inv s) :
    contentOf s.files stream.name ≠ [] := by
  intro hempty
  have hle := hinv.written_le stream h.stream_eq
  have hpos := h.written_pos
  rw [fileSize, hempty, List.length_nil] at hle
  omega

/-- A file that is not open any more survives its process, whatever `flush_log` is. -/
theorem closed_kept (h : (system flush_log old).Reachable s)
    (hclosed : ∀ stream, s.stream = some stream → stream.name ≠ name) :
    KeptPowered (system flush_log old) s name := by
  have hinv := inv_of_reachable h
  rw [keptPowered_iff hinv]
  obtain hall | ⟨stream, hsome, hname⟩ := hinv.closed name
  · exact hall
  · exact absurd hname (hclosed stream hsome)

def oneByte : Chunk := ⟨[0x0a], by decide⟩

/-- Two files, the second one open. -/
def rotated : List Action :=
  [.start (.rollFileFlush [] 1),
    .flush oneByte ⟨RollFileFlush.secondOfDay false, true, 1⟩ true,
    .flush oneByte ⟨RollFileFlush.secondOfDay true, true, 1⟩ true]

set_option maxRecDepth 4000 in
theorem closed_kept_rotated : ∃ s, (system 0 []).Reachable s ∧
    contentOf s.files (createLogFileName [] (RollFileFlush.secondOfDay false) 1) = [0x0a] ∧
    KeptPowered (system 0 []) s (createLogFileName [] (RollFileFlush.secondOfDay false) 1) := by
  have hrun : ((system 0 []).run (LogDisk.start []) rotated).any (fun s => decide
      (contentOf s.files (createLogFileName [] (RollFileFlush.secondOfDay false) 1) = [0x0a] ∧
        s.stream.map (·.name) =
          some (createLogFileName [] (RollFileFlush.secondOfDay true) 2))) = true := by
    decide +kernel
  obtain ⟨s, hreach, hcontent, hopen⟩ := Transition.exists_reachable_of_run rfl hrun
  refine ⟨s, hreach, hcontent, closed_kept hreach ?_⟩
  intro stream hsome hname
  rw [hsome, Option.map_some, hname] at hopen
  revert hopen
  decide +kernel

/-- A `Flush` has written a byte, and the calls of `flush_log` are still to make. -/
theorem exists_written (flush_log : Nat) (old : List LogFile) :
    ∃ s stream, (system flush_log old).ReachableBy (fun _ a => a.Works) s ∧
      s.stream = some stream ∧ 0 < stream.written ∧ s.pending = flushLogCalls flush_log ∧
      s.kernel stream.name < fileSize s.files stream.name ∧
      stream.name ∈ s.files.map (·.name) := by
  let now := RollFileFlush.secondOfDay false
  let opened := fopen old [] now 0
  let s₁ : State :=
    { LogDisk.start old with
      flush := some (.fileFlush ⟨[], some opened.2⟩)
      files := opened.1 }
  have hs₁ : (system flush_log old).ReachableBy (fun _ a => a.Works) s₁ := by
    refine ⟨LogDisk.start old, [.start (.fileFlush [] now true)], rfl, ?_, rfl⟩
    exact ⟨trivial, fun _ _ => trivial⟩
  let s₂ := s₁.write flush_log (.fileFlush ⟨[], some opened.2⟩) oneByte ⟨now, true, 1⟩
  have hstep : (system flush_log old).step s₁ (.flush oneByte ⟨now, true, 1⟩ true) = some s₂ := rfl
  have hthere : opened.2.name ∈ opened.1.map (·.name) := (map_name_fopen old [] now 0).1
  have hwritten : opened.2.written = 0 := RollFileFlush.fopen_written _ _ _ _
  have htaken : opened.2.fwrite oneByte.data.length 1 = 1 := by
    rw [Stream.fwrite, hwritten]
    rfl
  have hfiles : s₂.files = appendTo opened.2.name oneByte.data opened.1 := by
    show appendTo opened.2.name (oneByte.data.take (opened.2.fwrite oneByte.data.length 1)) _ = _
    rw [htaken]
    rfl
  have hworks : Action.Works (.flush oneByte ⟨now, true, 1⟩ true) := trivial
  refine ⟨s₂, { opened.2 with written := opened.2.written + 1 }, hs₁.step hworks hstep, ?_, ?_,
    rfl, ?_, ?_⟩
  · show some { opened.2 with
      written := opened.2.written + opened.2.fwrite oneByte.data.length 1 } = _
    rw [htaken]
  · exact Nat.succ_pos _
  · show fileSize old opened.2.name < fileSize s₂.files opened.2.name
    rw [hfiles, fileSize, fileSize, contentOf_fwrite oneByte.data hthere
      (contentOf_fopen old [] now 0), if_pos rfl, List.length_append]
    exact Nat.lt_add_of_pos_right (by decide)
  · show opened.2.name ∈ s₂.files.map (·.name)
    rw [hfiles, map_name_appendTo]
    exact hthere

/-- After the calls of another `flush_log` than 2, the disk does not have the byte. -/
theorem exists_unsynced (hne : flush_log ≠ 2) (old : List LogFile) :
    ∃ s stream, (system flush_log old).ReachableBy (fun _ a => a.Works) s ∧ Returned s stream ∧
      s.disk stream.name ≠ fileSize s.files stream.name ∧
      stream.name ∈ s.files.map (·.name) := by
  obtain ⟨s, stream, hreach, hsome, hpos, hpending, hlt, hmem⟩ := exists_written flush_log old
  have hdisk := (inv_of_reachable hreach.reachable).disk_le stream.name
  by_cases hone : flush_log = 1
  · -- `fflush` leaves the byte with the system
    subst hone
    have hpending' : s.pending = [.fflush] := hpending
    have hstep : (system 1 old).step s (.call true) =
        some { s.fflush stream.name with pending := [] } := by
      simp only [system, step, hsome, hpending', ↓reduceIte, State.call]
    have hworks : Action.Works (.call true) := rfl
    exact ⟨_, stream, hreach.step hworks hstep, ⟨hsome, hpos, rfl⟩,
      Nat.ne_of_lt (hdisk.trans_lt hlt), hmem⟩
  · -- nothing is called, and the byte is in the buffer
    have hnone := flushLogCalls_eq_nil hone hne
    exact ⟨s, stream, hreach, ⟨hsome, hpos, hpending.trans hnone⟩,
      Nat.ne_of_lt (hdisk.trans_lt hlt), hmem⟩

/-- Once a `Flush` has returned, its file survives the process exactly under the values of
    `flush_log` that the comments in `Flush` give a meaning to. -/
theorem flush_survives_process_iff (flush_log : Nat) (old : List LogFile) :
    (∀ s stream, (system flush_log old).ReachableBy (fun _ a => a.Works) s →
        Returned s stream → KeptPowered (system flush_log old) s stream.name) ↔
      flush_log = 1 ∨ flush_log = 2 := by
  constructor
  · intro hall
    by_contra hnot
    obtain ⟨hone, htwo⟩ := not_or.mp hnot
    obtain ⟨s, stream, hreach, hsome, hpos, hpending, hlt, -⟩ := exists_written flush_log old
    have hnone := flushLogCalls_eq_nil hone htwo
    have hkept := hall s stream hreach ⟨hsome, hpos, hpending.trans hnone⟩
    rw [keptPowered_iff (inv_of_reachable hreach.reachable)] at hkept
    omega
  · intro hcases s stream hreach hreturned
    rw [keptPowered_iff (inv_of_reachable hreach.reachable)]
    apply (called_of_reachableBy hreach).flushed hcases
    rw [hreturned.pending_eq]
    exact List.not_mem_nil

/-- Under `flush_log == 2`, and under no other value, a `Flush` that has returned leaves just
    the entry of its file to be lost in a power cut. -/
theorem flush_survives_power_cut_iff (flush_log : Nat) (old : List LogFile) :
    (∀ s stream, (system flush_log old).ReachableBy (fun _ a => a.Works) s →
        Returned s stream →
        (Kept (system flush_log old) s stream.name ↔ s.linked stream.name = true)) ↔
      flush_log = 2 := by
  constructor
  · intro hall
    by_contra hne
    obtain ⟨s, stream, hreach, hreturned, hdisk, hmem⟩ := exists_unsynced hne old
    -- the entry gets to the disk
    have hstep : (system flush_log old).step s (.link stream.name) =
        some { s with linked := Function.update s.linked stream.name true } :=
      if_pos (List.mem_map.mp hmem)
    have hworks : Action.Works (.link stream.name) := trivial
    have hreach' := hreach.step hworks hstep
    have hreturned' : Returned { s with linked := Function.update s.linked stream.name true }
        stream := ⟨hreturned.stream_eq, hreturned.written_pos, hreturned.pending_eq⟩
    have hinv := inv_of_reachable hreach'.reachable
    have hkept := (hall _ stream hreach' hreturned').mpr (Function.update_self _ _ _)
    rw [kept_iff hinv] at hkept
    obtain hempty | ⟨-, hall⟩ := hkept
    · exact hreturned'.content_ne_nil hinv hempty
    · exact hdisk hall
  · rintro rfl s stream hreach hreturned
    have hinv := inv_of_reachable hreach.reachable
    have hsynced : s.disk stream.name = fileSize s.files stream.name := by
      apply (called_of_reachableBy hreach).synced rfl _ stream hreturned.stream_eq
        hreturned.written_pos
      rw [hreturned.pending_eq]
      exact List.not_mem_nil
    rw [kept_iff hinv]
    constructor
    · rintro (hempty | ⟨hlinked, -⟩)
      · exact absurd hempty (hreturned.content_ne_nil hinv)
      · exact hlinked
    · exact fun hlinked => .inr ⟨hlinked, hsynced⟩

end LogDisk

end Mylog
