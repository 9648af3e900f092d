import AsyncLogStorage.Spec.LostRecord
import AsyncLogStorage.Spec.TableSerial

/-!
# Calls on threads are calls

A call of `Insert` or `Update` on a thread takes hundreds of small steps. For the others it takes
three: it stores its record, it takes a snapshot of the table, and it writes the storage file.

## Key results

- `DataManager.step_follows`: a small step is none of the three, or one
- `DataManager.threads_refine`: every run of the threads is one of `DataManager.calls`
-/

namespace Storage

/-- What the others see of a phase. -/
def CallPhase.pc : CallPhase → CallPc
  | .called => .called
  | .updating => .called
  | .updated => .updated
  | .reading => .updated
  | .snapshotted arr => .snapshotted arr
  | .returned => .returned

/-- What the others see of a call. -/
def ThreadCall.call (c : ThreadCall) : Call := ⟨c.info, c.phase.pc⟩

/-- The section that a call is in. -/
def ThreadCall.inSection (c : ThreadCall) : Option TableOp :=
  match c.phase with
  | .updating => some c.setter
  | .reading => some (.getAll [])
  | _ => none

@[simp] theorem ThreadCall.apply_setter (c : ThreadCall) (table : Table) :
    c.setter.apply table = table.insert c.info := by
  simp only [setter]
  split <;> rfl

namespace DataManager

/-- The threads are where the calls are, and the table is the one of the map. -/
structure Follows (policy : HashPolicy) (s : Threads) (c : Calls) : Prop where
  table : ∃ t, RwObject.Matches (lockedTable policy) s.locked t ∧ Represents t.shared c.table
  ops : s.locked.ops = s.calls.map ThreadCall.inSection
  fs : s.fs = c.fs
  calls : c.calls = s.calls.map ThreadCall.call

variable {cfg : Config} {lib : JsonCpp} {policy : HashPolicy} {s s' : Threads} {c : Calls}

/-! ## Steps -/

/-- What a small step does. -/
theorem threadStep_cases {a : ThreadAction} (h : threadStep cfg lib policy s a = some s') :
    (∃ i tc op phase locked, s.calls[i]? = some tc ∧ tc.nextSection = some (op, phase) ∧
      (lockedTable policy).step s.locked (.call i op) = some locked ∧
      s' = { s with locked := locked, calls := s.calls.set i { tc with phase := phase } }) ∨
    (∃ i a locked, (a = .lock i ∨ a = .step i) ∧
      (lockedTable policy).step s.locked a = some locked ∧ s' = { s with locked := locked }) ∨
    (∃ i op r tc phase locked, s.locked.threads[i]? = some (.leaving op r) ∧
      s.calls[i]? = some tc ∧ tc.afterSection r = some phase ∧
      (lockedTable policy).step s.locked (.unlock i) = some locked ∧
      s' = { s with locked := locked, calls := s.calls.set i { tc with phase := phase } }) ∨
    ∃ i io info isUpdate arr, s.calls[i]? = some ⟨info, isUpdate, .snapshotted arr⟩ ∧
      (FileUtil.setContent s.fs cfg.storageInfo (storageText lib arr) io).1 = true ∧
      (storageText lib arr).length ≤ io.written ∧
      s' = { s with
        fs := (FileUtil.setContent s.fs cfg.storageInfo (storageText lib arr) io).2
        calls := s.calls.set i ⟨info, isUpdate, .returned⟩ } := by
  cases a with
  | enter i =>
    simp only [threadStep, Option.bind_eq_bind, Option.bind_eq_some_iff] at h
    obtain ⟨tc, htc, ⟨op, phase⟩, hnext, locked, hlocked, h⟩ := h
    exact .inl ⟨i, tc, op, phase, locked, htc, hnext, hlocked, (Option.some.inj h).symm⟩
  | lock i =>
    obtain ⟨locked, hlocked, h⟩ := Option.map_eq_some_iff.mp h
    exact .inr (.inl ⟨i, _, locked, .inl rfl, hlocked, h.symm⟩)
  | step i =>
    obtain ⟨locked, hlocked, h⟩ := Option.map_eq_some_iff.mp h
    exact .inr (.inl ⟨i, _, locked, .inr rfl, hlocked, h.symm⟩)
  | unlock i =>
    simp only [threadStep] at h
    split at h
    · rename_i op r hi
      simp only [Option.bind_eq_bind, Option.bind_eq_some_iff] at h
      obtain ⟨tc, htc, phase, hafter, locked, hlocked, h⟩ := h
      exact .inr (.inr (.inl
        ⟨i, op, r, tc, phase, locked, hi, htc, hafter, hlocked, (Option.some.inj h).symm⟩))
    · cases h
  | write i io =>
    simp only [threadStep] at h
    split at h
    · rename_i info isUpdate arr hi
      obtain ⟨⟨hok, hlen⟩, h⟩ := Option.ite_none_right_eq_some.mp h
      exact .inr (.inr (.inr ⟨i, io, info, isUpdate, arr, hi, hok, hlen, (Option.some.inj h).symm⟩))
    · cases h

/-- A call that goes on in a way that the others do not see. -/
theorem map_call_set {calls : List ThreadCall} {i : Nat} {tc : ThreadCall} {phase : CallPhase}
    (hi : calls[i]? = some tc) (hsame : phase.pc = tc.phase.pc) :
    (calls.set i { tc with phase := phase }).map ThreadCall.call = calls.map ThreadCall.call := by
  have hget : (calls.map ThreadCall.call)[i]? = some tc.call := by simp [hi]
  obtain ⟨hlt, heq⟩ := List.getElem?_eq_some_iff.mp hget
  have hcall : ThreadCall.call { tc with phase := phase } = tc.call := by
    simp [ThreadCall.call, hsame]
  rw [List.map_set, hcall, ← heq, List.set_getElem_self]

/-- A call that comes to its next section. -/
theorem Follows.enter (h : Follows policy s c) {i : Nat} {tc : ThreadCall} {op : TableOp}
    {phase : CallPhase} {locked : RwObject.RwState UnorderedMap TableOp SectionPc TableResult}
    (hi : s.calls[i]? = some tc) (hnext : tc.nextSection = some (op, phase))
    (hlocked : (lockedTable policy).step s.locked (.call i op) = some locked) :
    Follows policy
      { s with locked := locked, calls := s.calls.set i { tc with phase := phase } } c := by
  obtain ⟨t, hmatches, hmap⟩ := h.table
  have hphase : phase.pc = tc.phase.pc ∧
      ThreadCall.inSection { tc with phase := phase } = some op := by
    simp only [ThreadCall.nextSection] at hnext
    split at hnext <;> cases hnext
    · rename_i hcalled
      simp [hcalled, CallPhase.pc, ThreadCall.inSection, ThreadCall.setter]
    · rename_i hupdated
      simp [hupdated, CallPhase.pc, ThreadCall.inSection]
  have hne : ∀ j, RwObject.RwAction.call i op ≠ .unlock j := by
    intro j hj
    cases hj
  constructor
  case table =>
    exact ⟨t, hmatches.stutter (readsOnly_lockedTable policy) hlocked hne, hmap⟩
  case ops =>
    show locked.ops = _
    rw [RwObject.ops_of_step hlocked, List.map_set, hphase.2, h.ops]
    rfl
  case fs => exact h.fs
  case calls =>
    rw [h.calls]
    exact (map_call_set hi hphase.1).symm

/-- A small step within a section. -/
theorem Follows.inside (h : Follows policy s c) {i : Nat} {a : RwObject.RwAction TableOp}
    {locked : RwObject.RwState UnorderedMap TableOp SectionPc TableResult}
    (ha : a = .lock i ∨ a = .step i)
    (hlocked : (lockedTable policy).step s.locked a = some locked) :
    Follows policy { s with locked := locked } c := by
  obtain ⟨t, hmatches, hmap⟩ := h.table
  have hops := RwObject.ops_of_step hlocked
  have hne : ∀ j, a ≠ .unlock j := by
    intro j hj
    obtain rfl | rfl := ha <;> cases hj
  have hsame : locked.ops = s.locked.ops := by
    obtain rfl | rfl := ha <;> exact hops
  exact ⟨⟨t, hmatches.stutter (readsOnly_lockedTable policy) hlocked hne, hmap⟩,
    hsame.trans h.ops, h.fs, h.calls⟩

/-- The end of a section: the record is stored, or the snapshot is taken. -/
theorem Follows.leave (cfg : Config) (lib : JsonCpp) (h : Follows policy s c) {i : Nat}
    {op : TableOp} {r : TableResult} {tc : ThreadCall} {phase : CallPhase}
    {locked : RwObject.RwState UnorderedMap TableOp SectionPc TableResult}
    (hthread : s.locked.threads[i]? = some (.leaving op r)) (hi : s.calls[i]? = some tc)
    (hafter : tc.afterSection r = some phase)
    (hlocked : (lockedTable policy).step s.locked (.unlock i) = some locked) :
    ∃ a c', (DataManager.calls cfg lib).step c a = some c' ∧ Follows policy
      { s with locked := locked, calls := s.calls.set i { tc with phase := phase } } c' := by
  obtain ⟨t, hmatches, hmap⟩ := h.table
  obtain ⟨hends, hunlocked⟩ := hmatches.unlock hthread
  have hlocked' := hlocked
  simp only [RwObject.step, hthread, Option.some.injEq] at hlocked'
  rw [hlocked'] at hunlocked
  -- the section has done what it does alone
  obtain ⟨map', r', hends', hmap', hanswers⟩ := ends_of_represents policy hmap op
  cases hends.unique hends'
  have hop : tc.inSection = some op := by
    have hget : s.locked.ops[i]? = some tc.inSection := by simp [h.ops, hi]
    exact (RwObject.op_eq_of_ops hthread hget).symm
  have hcall : c.calls[i]? = some tc.call := by simp [h.calls, hi]
  have hops : locked.ops =
      (s.calls.set i { tc with phase := phase }).map ThreadCall.inSection := by
    have hnone : ThreadCall.inSection { tc with phase := phase } = none := by
      simp only [ThreadCall.afterSection] at hafter
      split at hafter <;> cases hafter <;> rfl
    rw [RwObject.ops_of_step hlocked, List.map_set, hnone, h.ops]
    rfl
  have hcalls : (c.calls.set i ⟨tc.info, phase.pc⟩) =
      (s.calls.set i { tc with phase := phase }).map ThreadCall.call := by
    rw [h.calls, List.map_set]
    rfl
  simp only [ThreadCall.afterSection] at hafter
  split at hafter <;> cases hafter
  · rename_i hphase
    simp only [ThreadCall.inSection, hphase, Option.some.injEq] at hop
    rw [← hop, ThreadCall.apply_setter] at hmap'
    refine ⟨.update i, { c with
      table := c.table.insert tc.info
      calls := c.calls.set i ⟨tc.info, .updated⟩ }, ?_, ⟨_, hunlocked, hmap'⟩, hops, h.fs, hcalls⟩
    have hcall : c.calls[i]? = some ⟨tc.info, .called⟩ := by
      simpa [ThreadCall.call, hphase, CallPhase.pc] using hcall
    simp only [DataManager.calls, callStep, hcall]
  · rename_i arr hphase
    simp only [ThreadCall.inSection, hphase, Option.some.injEq] at hop
    subst hop
    cases hanswers with
    | getAll _ order =>
      refine ⟨.snapshot i order, { c with
        calls := c.calls.set i ⟨tc.info, .snapshotted (getAll c.table order)⟩ }, ?_,
        ⟨_, hunlocked, hmap'⟩, hops, h.fs, hcalls⟩
      have hcall : c.calls[i]? = some ⟨tc.info, .updated⟩ := by
        simpa [ThreadCall.call, hphase, CallPhase.pc] using hcall
      simp only [DataManager.calls, callStep, hcall]

/-- The write of the storage file. -/
theorem Follows.write (h : Follows policy s c) {i : Nat} {io : WriteOutcome} {info : StorageInfo}
    {isUpdate : Bool} {arr : List StorageInfo}
    (hi : s.calls[i]? = some ⟨info, isUpdate, .snapshotted arr⟩)
    (hok : (FileUtil.setContent s.fs cfg.storageInfo (storageText lib arr) io).1 = true)
    (hlen : (storageText lib arr).length ≤ io.written) :
    ∃ c', (DataManager.calls cfg lib).step c (.write i io) = some c' ∧ Follows policy
      { s with
        fs := (FileUtil.setContent s.fs cfg.storageInfo (storageText lib arr) io).2
        calls := s.calls.set i ⟨info, isUpdate, .returned⟩ } c' := by
  have hcall : c.calls[i]? = some ⟨info, .snapshotted arr⟩ := by
    simp [h.calls, hi, ThreadCall.call, CallPhase.pc]
  rw [h.fs] at hok
  refine ⟨{ c with
    fs := (FileUtil.setContent c.fs cfg.storageInfo (storageText lib arr) io).2
    calls := c.calls.set i ⟨info, .returned⟩ }, ?_, h.table, ?_, by simp [h.fs], ?_⟩
  · simp only [DataManager.calls, callStep, hcall, hok, hlen, and_self, ↓reduceIte]
  · have hget : (s.calls.map ThreadCall.inSection)[i]? = some none := by
      simp [hi, ThreadCall.inSection]
    obtain ⟨hlt, heq⟩ := List.getElem?_eq_some_iff.mp hget
    rw [List.map_set]
    show _ = (s.calls.map ThreadCall.inSection).set i none
    rw [← heq, List.set_getElem_self]
    exact h.ops
  · rw [h.calls, List.map_set]
    rfl

/-- A small step is a step of the calls, or none. -/
theorem step_follows {a : ThreadAction} (h : Follows policy s c)
    (hstep : (threads cfg lib policy).step s a = some s') :
    ∃ as c', (calls cfg lib).run c as = some c' ∧ Follows policy s' c' := by
  obtain ⟨i, tc, op, phase, locked, hi, hnext, hlocked, rfl⟩ | ⟨i, a, locked, ha, hlocked, rfl⟩ |
    ⟨i, op, r, tc, phase, locked, hthread, hi, hafter, hlocked, rfl⟩ |
    ⟨i, io, info, isUpdate, arr, hi, hok, hlen, rfl⟩ := threadStep_cases hstep
  · exact ⟨[], c, rfl, h.enter hi hnext hlocked⟩
  · exact ⟨[], c, rfl, h.inside ha hlocked⟩
  · obtain ⟨a, c', hc', hfollows⟩ := h.leave cfg lib hthread hi hafter hlocked
    exact ⟨[a], c', by simp [hc'], hfollows⟩
  · obtain ⟨c', hc', hfollows⟩ := h.write hi hok hlen
    exact ⟨[.write i io], c', by simp [hc'], hfollows⟩

/-! ## Runs -/

/-- The calls that the threads start with. -/
def Threads.calls (s : Threads) (table : Table) : Calls :=
  ⟨table, s.fs, s.calls.map ThreadCall.call⟩

theorem init_follows {table : Table} (hinit : (threads cfg lib policy).init s)
    (hmap : Represents s.locked.shared table) :
    (calls cfg lib).init (Threads.calls s table) ∧ Follows policy s (Threads.calls s table) := by
  obtain ⟨hne, hcalled, map, hlocked⟩ := hinit
  constructor
  · refine ⟨by simpa [Threads.calls] using hne, ?_⟩
    intro call hmem
    obtain ⟨tc, htc, rfl⟩ := List.mem_map.mp hmem
    simp [ThreadCall.call, hcalled tc htc, CallPhase.pc]
  · rw [hlocked] at hmap
    refine ⟨⟨⟨map, []⟩, ?_, hmap⟩, ?_, rfl, rfl⟩
    · rw [hlocked]
      exact RwObject.start_matches _ map _
    · rw [hlocked, RwObject.ops_start, eq_comm, List.eq_replicate_iff]
      refine ⟨by simp, ?_⟩
      intro op hmem
      obtain ⟨tc, htc, rfl⟩ := List.mem_map.mp hmem
      simp [ThreadCall.inSection, hcalled tc htc]

/-- Every run of the calls on threads is one of the calls that take three steps each: with the
same files and the same phases, and with the table that the map holds while nobody writes. -/
theorem threads_refine {table : Table} {as : List ThreadAction}
    (hinit : (threads cfg lib policy).init s) (hmap : Represents s.locked.shared table)
    (hrun : (threads cfg lib policy).run s as = some s') :
    ∃ bs c, (calls cfg lib).init (Threads.calls s table) ∧
      (calls cfg lib).run (Threads.calls s table) bs = some c ∧ c.fs = s'.fs ∧
      c.calls = s'.calls.map ThreadCall.call ∧
      (s'.locked.writer = false → Represents s'.locked.shared c.table) := by
  obtain ⟨hcalls, hfollows⟩ := init_follows hinit hmap
  obtain ⟨bs, c, hc, hfollows⟩ := Transition.run_simulate (U := calls cfg lib)
    (fun _ _ _ _ h hstep => step_follows h hstep) hfollows hrun
  refine ⟨bs, c, hcalls, hc, hfollows.fs.symm, hfollows.calls, ?_⟩
  intro hwriter
  obtain ⟨t, hmatches, hmap⟩ := hfollows.table
  rw [hmatches.quiet hwriter]
  exact hmap

/-- An `Insert` and an `Update` on two threads, on an empty map. -/
def twoThreads : Threads where
  locked := RwObject.start emptyMap 2
  fs := ∅
  calls := [⟨smallInfo "a" 2, false, .called⟩, ⟨smallInfo "b" 2, true, .called⟩]

/-- Both read the table at the same time, and the first one writes last. -/
def twoSchedule : List ThreadAction :=
  [ThreadAction.enter 0, ThreadAction.enter 1, ThreadAction.lock 0] ++
    List.replicate 7 (ThreadAction.step 0) ++ [ThreadAction.unlock 0, ThreadAction.lock 1] ++
    List.replicate 7 (ThreadAction.step 1) ++
    [ThreadAction.enter 0, ThreadAction.unlock 1, ThreadAction.enter 1, ThreadAction.lock 1,
      ThreadAction.lock 0] ++
    (List.replicate 16 [ThreadAction.step 0, ThreadAction.step 1]).flatten ++
    [ThreadAction.unlock 1, ThreadAction.write 1 smallWrite, ThreadAction.unlock 0,
      ThreadAction.write 0 smallWrite]

set_option maxRecDepth 4000 in
theorem threads_refine_small : ∃ s,
    (threads Config.shipped twoJson frontPolicy).run twoThreads twoSchedule = some s ∧
    ∃ bs c, (calls Config.shipped twoJson).run (Threads.calls twoThreads .empty) bs = some c ∧
      c.fs = s.fs ∧ c.calls = s.calls.map ThreadCall.call := by
  have hcheck : ((threads Config.shipped twoJson frontPolicy).run twoThreads
      twoSchedule).isSome = true := by decide +kernel
  obtain ⟨s, hrun⟩ := Option.isSome_iff_exists.mp hcheck
  have hinit : (threads Config.shipped twoJson frontPolicy).init twoThreads :=
    ⟨by decide, by decide, emptyMap, rfl⟩
  obtain ⟨bs, c, -, hc, hfs, hcalls, -⟩ := threads_refine hinit represents_emptyMap hrun
  exact ⟨s, hrun, bs, c, hc, hfs, hcalls⟩

end DataManager

end Storage
