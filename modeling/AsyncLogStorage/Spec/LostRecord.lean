import AsyncLogStorage.Native.DataManagerCalls
import AsyncLogStorage.Spec.StorageFile
import AsyncLogStorage.Spec.Upload

/-!
# Records lost on disk

A call writes the snapshot it took, whatever became of the table since. What the storage
file holds at the end depends on the order of the writes: it is the table if no stale
snapshot is written last.

## Key results

- `callStep_cases`: what a step can do
- `persisted_iff_allSteps`: in a complete run the storage file ends up with the table
  exactly if every write is of a fresh snapshot or leaves one to come
-/

namespace Storage

namespace DataManager

variable {cfg : Config} {lib : JsonCpp}

/-- The text is one of the table, in some order of its records. -/
def IsTextOf (lib : JsonCpp) (text : Bytes) (table : Table) : Prop :=
  ∃ arr, arr.Perm table.records ∧ text = storageText lib arr

/-- The storage file holds the table. -/
def Persisted (cfg : Config) (lib : JsonCpp) (s : Calls) : Prop :=
  ∃ f, FileUtil.fileAt s.fs cfg.storageInfo = some f ∧ IsTextOf lib f.content s.table

/-- The call has not written yet, and what it is going to write is not stale by now. -/
def WillWriteFresh (lib : JsonCpp) (table : Table) (c : Call) : Prop :=
  match c.pc with
  | .called | .updated => True
  | .snapshotted arr => IsTextOf lib (storageText lib arr) table
  | .returned => False

/-- A call that writes has a fresh snapshot, or another call is still to write one. -/
def WritesFresh (lib : JsonCpp) (s : Calls) : CallAction → Prop
  | .write i _ => ∀ c, s.calls[i]? = some c → WillWriteFresh lib s.table c ∨
      ∃ j d, j ≠ i ∧ s.calls[j]? = some d ∧ WillWriteFresh lib s.table d
  | _ => True

/-! ## Steps -/

/-- What a step does: it stores a record, takes a snapshot of the table as it is, or writes
    a snapshot to the storage file. -/
theorem callStep_cases {s s' : Calls} {a : CallAction} (h : callStep cfg lib s a = some s') :
    (∃ i info, a = .update i ∧ s.calls[i]? = some ⟨info, .called⟩ ∧
      s' = { s with table := s.table.insert info, calls := s.calls.set i ⟨info, .updated⟩ }) ∨
    (∃ i order info, a = .snapshot i order ∧ s.calls[i]? = some ⟨info, .updated⟩ ∧
      s' = { s with calls := s.calls.set i ⟨info, .snapshotted (getAll s.table order)⟩ }) ∨
    (∃ i io info arr, a = .write i io ∧ s.calls[i]? = some ⟨info, .snapshotted arr⟩ ∧
      s'.table = s.table ∧ s'.calls = s.calls.set i ⟨info, .returned⟩ ∧
      ∃ f, FileUtil.fileAt s'.fs cfg.storageInfo = some f ∧ f.content = storageText lib arr) := by
  cases a with
  | update i =>
    simp only [callStep] at h
    split at h
    · rename_i info hpc
      exact .inl ⟨i, info, rfl, hpc, (Option.some.inj h).symm⟩
    · exact nomatch h
  | snapshot i order =>
    simp only [callStep] at h
    split at h
    · rename_i info hpc
      exact .inr (.inl ⟨i, order, info, rfl, hpc, (Option.some.inj h).symm⟩)
    · exact nomatch h
  | write i io =>
    simp only [callStep] at h
    split at h
    · rename_i info arr hpc
      obtain ⟨⟨hok, hlen⟩, hs'⟩ := Option.ite_none_right_eq_some.mp h
      have hfs := setContent_fst.mp hok
      cases hs'
      refine .inr (.inr ⟨i, io, info, arr, rfl, hpc, rfl, rfl, ?_⟩)
      rw [setContent_eq, if_pos hfs, List.take_of_length_le hlen]
      exact ⟨_, FileSystem.fileAt_store _ _ hfs.1, rfl⟩
    · exact nomatch h

/-- The file holds the table, or a call is still to write what the table holds. -/
def Good (cfg : Config) (lib : JsonCpp) (s : Calls) : Prop :=
  Persisted cfg lib s ∨ ∃ (j : Nat) (d : Call), s.calls[j]? = some d ∧ WillWriteFresh lib s.table d

/-- Every step but a write leaves its own call with something fresh to write. -/
theorem step_good_iff {s s' : Calls} {a : CallAction} (hstep : callStep cfg lib s a = some s') :
    Good cfg lib s' ↔ WritesFresh lib s a := by
  obtain ⟨i, info, rfl, hpc, rfl⟩ | ⟨i, order, info, rfl, hpc, rfl⟩ |
    ⟨i, io, info, arr, rfl, hpc, htable, hcalls, f, hf, hcontent⟩ := callStep_cases hstep
  · -- the call stored its record and has its snapshot still to take
    have hlt := (List.getElem?_eq_some_iff.mp hpc).1
    refine iff_of_true (.inr ⟨i, ⟨info, .updated⟩, ?_, trivial⟩) trivial
    exact List.getElem?_set_self hlt
  · -- it took a snapshot, which is of the table as it is
    have hlt := (List.getElem?_eq_some_iff.mp hpc).1
    refine iff_of_true (.inr ⟨i, ⟨info, .snapshotted (getAll s.table order)⟩, ?_, ?_⟩) trivial
    · exact List.getElem?_set_self hlt
    · exact ⟨getAll s.table order, order.perm _, rfl⟩
  · -- it wrote: the file has its snapshot, and it has nothing left to write
    have hlt := (List.getElem?_eq_some_iff.mp hpc).1
    constructor
    · intro hgood c hc
      rw [hpc] at hc
      cases hc
      obtain ⟨g, hg, htext⟩ | ⟨j, d, hd, hfresh⟩ := hgood
      · -- the file holds what was just written
        rw [hf] at hg
        cases hg
        rw [hcontent, htable] at htext
        exact .inl htext
      · rw [hcalls] at hd
        rw [htable] at hfresh
        by_cases hij : i = j
        · -- the call itself has returned
          rw [← hij, List.getElem?_set_self hlt] at hd
          cases hd
          exact hfresh.elim
        · rw [List.getElem?_set_ne hij] at hd
          exact .inr ⟨j, d, Ne.symm hij, hd, hfresh⟩
    · intro hC
      obtain hown | ⟨j, d, hne, hd, hfresh⟩ := hC _ hpc
      · left
        refine ⟨f, hf, ?_⟩
        rw [htable, hcontent]
        exact hown
      · right
        refine ⟨j, d, ?_, ?_⟩
        · rw [hcalls, List.getElem?_set_ne (Ne.symm hne), hd]
        · rw [htable]
          exact hfresh

/-- Once all that is left to write is stale, it stays so. -/
theorem good_of_step_good {s s' : Calls} {a : CallAction}
    (hstep : callStep cfg lib s a = some s') (hgood : Good cfg lib s') : Good cfg lib s := by
  have hC := (step_good_iff hstep).mp hgood
  right
  obtain ⟨i, info, rfl, hpc, -⟩ | ⟨i, order, info, rfl, hpc, -⟩ | ⟨i, io, info, arr, rfl, hpc, -⟩ :=
    callStep_cases hstep
  -- before it stores a record or takes a snapshot, a call is still to write a fresh one
  · exact ⟨i, _, hpc, trivial⟩
  · exact ⟨i, _, hpc, trivial⟩
  · obtain hown | ⟨j, d, -, hd, hfresh⟩ := hC _ hpc
    · exact ⟨i, _, hpc, hown⟩
    · exact ⟨j, d, hd, hfresh⟩

/-! ## Complete runs -/

/-- All calls have returned. -/
def Complete (s : Calls) : Prop := ∀ c ∈ s.calls, c.pc = .returned

theorem good_of_init {s : Calls} (h : (calls cfg lib).init s) : Good cfg lib s := by
  obtain ⟨hne, hcalled⟩ := h
  obtain ⟨c, hc⟩ := List.exists_mem_of_ne_nil _ hne
  obtain ⟨i, hi⟩ := List.getElem?_of_mem hc
  refine .inr ⟨i, c, hi, ?_⟩
  rw [WillWriteFresh, hcalled c hc]
  trivial

/-- With all calls returned nothing is left but the file. -/
theorem good_iff_persisted {s : Calls} (h : Complete s) :
    Good cfg lib s ↔ Persisted cfg lib s := by
  constructor
  · rintro (hpersisted | ⟨j, d, hd, hfresh⟩)
    · exact hpersisted
    · rw [WillWriteFresh, h d (List.mem_of_getElem? hd)] at hfresh
      exact hfresh.elim
  · exact .inl

/-- In a complete run the storage file ends up with the table exactly if every write is of
    a fresh snapshot or leaves one to come. -/
theorem persisted_iff_allSteps {s s' : Calls} {as : List CallAction}
    (hinit : (calls cfg lib).init s) (hrun : (calls cfg lib).run s as = some s')
    (hcomplete : Complete s') :
    Persisted cfg lib s' ↔ (calls cfg lib).AllSteps (WritesFresh lib) s as := by
  rw [← good_iff_persisted hcomplete]
  exact Transition.end_iff_allSteps (fun _ _ _ => good_of_step_good) (fun _ _ _ => step_good_iff)
    (good_of_init hinit) hrun

/-- Calls that are made on an empty table, for records of files of two bytes. -/
def smallCalls (names : List String) : Calls where
  table := .empty
  fs := ∅
  calls := names.map fun name => ⟨smallInfo name 2, .called⟩

def smallWrite : WriteOutcome := { opens := true, written := 1000, time := 100 }

/-- What JsonCpp writes for the first call's record alone and for those of both calls. -/
def twoJson : JsonCpp where
  write := fun value =>
    some (if value.size = 1 then smallText [("a", "2")] else smallText [("b", "2"), ("a", "2")])
  parse := fun _ => (false, .null)
  realToString := fun _ => []

/-- All calls have returned, as a check. -/
private def complete (s : Calls) : Bool :=
  s.calls.all fun c => match c.pc with
    | .returned => true
    | _ => false

private theorem complete_of_check {s : Calls} (h : complete s = true) : Complete s := by
  intro c hc
  have hpc := List.all_eq_true.mp h c hc
  cases hreturned : c.pc with
  | returned => rfl
  | called => rw [hreturned] at hpc; exact nomatch hpc
  | updated => rw [hreturned] at hpc; exact nomatch hpc
  | snapshotted arr => rw [hreturned] at hpc; exact nomatch hpc

private theorem init_small {names : List String} (hne : names ≠ []) :
    (calls Config.shipped twoJson).init (smallCalls names) := by
  constructor
  · simpa [smallCalls] using hne
  · intro c hc
    obtain ⟨name, -, rfl⟩ := List.mem_map.mp hc
    rfl

/-- Both calls have stored their records and taken a snapshot, the first one before the second
    record was there. -/
def bothSnapshots : Calls where
  table := (Table.empty.insert (smallInfo "a" 2)).insert (smallInfo "b" 2)
  fs := ∅
  calls := [
    ⟨smallInfo "a" 2, .snapshotted (getAll (Table.empty.insert (smallInfo "a" 2)) .held)⟩,
    ⟨smallInfo "b" 2, .snapshotted
      (getAll ((Table.empty.insert (smallInfo "a" 2)).insert (smallInfo "b" 2)) .held)⟩]

theorem run_bothSnapshots : (calls Config.shipped twoJson).run (smallCalls ["a", "b"])
    [.update 0, .snapshot 0 .held, .update 1, .snapshot 1 .held] = some bothSnapshots := rfl

set_option maxRecDepth 2048 in
/-- The stale snapshot may be written while the other call is still to write. -/
theorem writesFresh_bothSnapshots :
    (calls Config.shipped twoJson).AllSteps (WritesFresh twoJson) bothSnapshots
      [.write 0 smallWrite, .write 1 smallWrite] := by
  refine ⟨?_, fun s hs => ⟨?_, fun _ _ => trivial⟩⟩
  · intro c _
    exact .inr ⟨1, _, by decide, rfl, _, List.Perm.refl _, rfl⟩
  · have hstep : callStep Config.shipped twoJson bothSnapshots (.write 0 smallWrite) = some s := hs
    obtain ⟨_, _, hwrite, -⟩ | ⟨_, _, _, hwrite, -⟩ | ⟨_, _, _, _, hwrite, -, htable, hcalls, -⟩ :=
      callStep_cases hstep
    · cases hwrite
    · cases hwrite
    · cases hwrite
      intro c hc
      rw [hcalls] at hc
      cases hc
      rw [WillWriteFresh, htable]
      exact .inl ⟨_, List.Perm.refl _, rfl⟩

set_option maxRecDepth 2048 in
theorem persisted_small : ∃ s,
    (calls Config.shipped twoJson).run (smallCalls ["a", "b"])
      ([.update 0, .snapshot 0 .held, .update 1, .snapshot 1 .held] ++
        [.write 0 smallWrite, .write 1 smallWrite]) = some s ∧
    s.table.records.length = 2 ∧ Persisted Config.shipped twoJson s := by
  have hcheck : ((calls Config.shipped twoJson).run bothSnapshots
      [.write 0 smallWrite, .write 1 smallWrite]).any
      (fun s => complete s && decide (s.table.records.length = 2)) = true := by decide
  obtain ⟨s, hwrites, hs⟩ := (Option.any_eq_true _ _).mp hcheck
  simp only [Bool.and_eq_true, decide_eq_true_eq] at hs
  have hrun := (Transition.run_append (calls Config.shipped twoJson) (smallCalls ["a", "b"])
    [.update 0, .snapshot 0 .held, .update 1, .snapshot 1 .held]
    [.write 0 smallWrite, .write 1 smallWrite]).trans
    (by rw [run_bothSnapshots, Option.bind_some, hwrites])
  refine ⟨s, hrun, hs.2, ?_⟩
  apply (persisted_iff_allSteps (init_small (by decide)) hrun (complete_of_check hs.1)).mpr
  rw [Transition.allSteps_append]
  refine ⟨⟨trivial, fun _ _ => ⟨trivial, fun _ _ => ⟨trivial, fun _ _ => ⟨trivial,
    fun _ _ => trivial⟩⟩⟩⟩, fun s₁ h₁ => ?_⟩
  cases run_bothSnapshots.symm.trans h₁
  exact writesFresh_bothSnapshots

/-- The first call writes its snapshot after the second one wrote its own. -/
def lostSchedule : List CallAction :=
  [.update 0, .snapshot 0 .held, .update 1, .snapshot 1 .held, .write 1 smallWrite,
    .write 0 smallWrite]

set_option maxRecDepth 2048 in
theorem lost_small : ¬∀ (cfg : Config) (lib : JsonCpp) (s s' : Calls) (as : List CallAction),
    (calls cfg lib).init s → (calls cfg lib).run s as = some s' → Complete s' →
    Persisted cfg lib s' := by
  have hcheck : ((calls Config.shipped twoJson).run (smallCalls ["a", "b"]) lostSchedule).any
      (fun s => complete s && decide (s.table.records.length = 2) &&
        (FileUtil.fileAt s.fs Config.shipped.storageInfo).any
          fun f => decide (f.content = smallText [("a", "2")])) = true := by decide
  have hdiffer : smallText [("a", "2")] ≠ smallText [("b", "2"), ("a", "2")] := by decide
  intro h
  -- at the end the table has two records and the file the text of one
  obtain ⟨s, hrun, hs⟩ := (Option.any_eq_true _ _).mp hcheck
  simp only [Bool.and_eq_true, decide_eq_true_eq] at hs
  obtain ⟨⟨hcomplete, hlen⟩, hfile⟩ := hs
  obtain ⟨f, hf, arr, hperm, htext⟩ :=
    h _ _ _ _ _ (init_small (by decide)) hrun (complete_of_check hcomplete)
  rw [hf, Option.any_some, decide_eq_true_eq] at hfile
  -- a text of the table is one of two records
  have harr : arr.length = 2 := hperm.length_eq.trans hlen
  have hsize : (root arr).size = 2 := by
    match arr, harr with
    | [_, _], _ => rfl
  have hwrite : twoJson.write (root arr) = some (smallText [("b", "2"), ("a", "2")]) := by
    simp only [twoJson, hsize]
    rfl
  rw [hfile] at htext
  simp only [storageText, JsonUtil.serialize, hwrite] at htext
  exact hdiffer htext

end DataManager

end Storage
