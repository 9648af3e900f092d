import AsyncLogStorage.Native.DataManagerCrash
import AsyncLogStorage.Spec.InitLoad
import AsyncLogStorage.Spec.PersistResult

/-!
# A crash in the middle of an `Insert`

`SetContent` truncates the storage file and then writes the whole table into it. After a
stop in between, `InitLoad` takes what JsonCpp leaves of the torn text for the table, since
nobody looks at the result of `UnSerialize`, and the next `Insert` writes that table over
the file.

## Key results

- `yields_attemptFs_iff`: which table a start makes of the file that was opened
- `crashAtomic_truncated_iff`: a crash just after the truncation loses every record
- `crashAtomic_of_recoverable`: in a run without torn texts, which crashes are atomic, and what
  of the inserted records is still there
-/

namespace Storage

open DataManager

/-- The same records stand under the same urls. -/
def SameRecords (table table' : Table) : Prop := ∀ url, table.lookup url = table'.lookup url

/-- A start on these files comes up with the records of `table`. -/
def Yields (cfg : Config) (lib : JsonCpp) (fs : FileSystem) (table : Table) : Prop :=
  ∃ after, startUp cfg lib fs = some after ∧ SameRecords after table

/-- A start after the crash yields the table before the `Insert` or the table after it. -/
def CrashAtomic (cfg : Config) (lib : JsonCpp) (s : Durable) (a : Attempt) : Prop :=
  Yields cfg lib (attemptFs cfg lib s a) s.table ∨
    Yields cfg lib (attemptFs cfg lib s a) (s.table.insert a.info)

/-- `SetContent` opens the storage file, and so truncates it. -/
def Attempt.Opens (cfg : Config) (fs : FileSystem) (a : Attempt) : Prop :=
  fs.creatable cfg.storageInfo = true ∧ a.io.opens = true

/-- All of the text gets into the file, and a restart loses nothing of any record. -/
def Attempt.WritesWhole (lib : JsonCpp) (table : Table) (a : Attempt) : Prop :=
  (∃ text, lib.write (root (getAll (table.insert a.info) a.order)) = some text ∧
    text.length ≤ a.io.written) ∧
  ∀ e ∈ (table.insert a.info).records, e.Restorable

/-- What the loop takes a value for: nothing, or the records that its elements stand for. -/
def TakenForAll (lib : JsonCpp) (value : Json.Value) (infos : List StorageInfo) : Prop :=
  (value.size = 0 ∧ infos = []) ∨
    ∃ elements, value = .array elements ∧ List.Forall₂ (TakenFor lib) elements infos

/-- What JsonCpp leaves of a text, valid or not, are the records of `table`. -/
def LeavesTable (lib : JsonCpp) (text : Bytes) (table : Table) : Prop :=
  ∃ infos, TakenForAll lib (lib.parse text).2 infos ∧
    SameRecords (infos.foldl Table.insert .empty) table

/-- A start has a record under the url of `info`: `info` itself, or that of a later attempt. -/
def NotErased (cfg : Config) (lib : JsonCpp) (fs : FileSystem) (info : StorageInfo)
    (later : List DurableAction) : Prop :=
  ∃ after, startUp cfg lib fs = some after ∧ ∃ e ∈ info :: later.map fun b => b.attempt.info,
    e.url_ = info.url_ ∧ after.lookup info.url_ = some e

/-- An `Insert` that is completed writes all of its text; of a crash nothing is asked. -/
def Persisting (cfg : Config) (lib : JsonCpp) (s : Durable) : DurableAction → Prop
  | .insert a => a.Opens cfg s.fs ∧ a.WritesWhole lib s.table
  | .crash _ => True

/-- An `Insert` that is completed writes all of its text. A crash comes before the file is
    opened or after the whole text is in it, or it leaves an empty file where the table was
    empty, if JsonCpp leaves nothing of the empty text. -/
def Recoverable (cfg : Config) (lib : JsonCpp) (s : Durable) : DurableAction → Prop
  | .insert a => a.Opens cfg s.fs ∧ a.WritesWhole lib s.table
  | .crash a => ¬a.Opens cfg s.fs ∨ a.WritesWhole lib s.table ∨
    a.io.written = 0 ∧ s.table.records = [] ∧ (lib.parse []).2 = .null

/-- The library, with another value left of one text that does not parse. -/
def JsonCpp.leaving (lib : JsonCpp) (torn : Bytes) (value : Json.Value) : JsonCpp where
  write := lib.write
  parse input := if input = torn then (false, value) else lib.parse input
  realToString := lib.realToString

/-- The storage file holds the table, whose records are of their types. -/
structure Consistent (cfg : Config) (lib : JsonCpp) (s : Durable) : Prop where
  yields : Yields cfg lib s.fs s.table
  typed : ∀ e ∈ s.table.records, e.WellTyped

/-- The record is of its types, and JsonCpp is as documented on the document of the attempt,
    whose text is an `std::string`. -/
structure Attempt.Lawful (lib : JsonCpp) (table : Table) (a : Attempt) : Prop where
  typed : a.info.WellTyped
  faithful : lib.Faithful (root (getAll (table.insert a.info) a.order))
  size : (attemptText lib table a).length ≤ FileUtil.stringMaxSize

section
variable {cfg : Config} {lib : JsonCpp} {s s' : Durable} {table table' : Table} {a : Attempt}

/-! ## Tables with the same records -/

theorem SameRecords.mem_iff (h : SameRecords table table') {e : StorageInfo} :
    e ∈ table.records ↔ e ∈ table'.records := by
  rw [Table.mem_records, Table.mem_records, h]

theorem mem_records_insert {info e : StorageInfo} (h : e ∈ (table.insert info).records) :
    e = info ∨ e ∈ table.records := by
  rw [Table.mem_records] at h
  by_cases heq : e.url_ = info.url_
  · rw [heq, Table.lookup_insert] at h
    exact .inl (Option.some.inj h).symm
  · rw [Table.lookup_insert_ne table heq] at h
    exact .inr (Table.mem_records.mpr h)

theorem typed_insert (htyped : ∀ e ∈ table.records, e.WellTyped) {info : StorageInfo}
    (hinfo : info.WellTyped) : ∀ e ∈ (table.insert info).records, e.WellTyped := by
  intro e he
  obtain rfl | he := mem_records_insert he
  · exact hinfo
  · exact htyped e he

/-! ## A start -/

/-- The loop gives what its value is taken for. -/
theorem loadRecords_eq_some_iff {value : Json.Value} {after : Table} :
    loadRecords lib value (List.range value.size) table = some after ↔
      ∃ infos, TakenForAll lib value infos ∧ infos.foldl Table.insert table = after := by
  by_cases hsize : value.size = 0
  · -- the loop is over at once
    simp only [hsize, List.range_zero, loadRecords, Option.some.injEq, TakenForAll, true_and]
    constructor
    · rintro rfl
      exact ⟨[], .inl rfl, rfl⟩
    · rintro ⟨infos, rfl | ⟨elements, rfl, helements⟩, rfl⟩
      · rfl
      · have hnil : elements = [] := List.eq_nil_of_length_eq_zero hsize
        subst hnil
        cases helements
        rfl
  · cases value with
    | array elements =>
      have harray : ∀ infos, TakenForAll lib (.array elements) infos ↔
          List.Forall₂ (TakenFor lib) elements infos := by
        intro infos
        simp only [TakenForAll, hsize, false_and, false_or, Json.Value.array.injEq,
          exists_eq_left']
      simp only [harray, Json.Value.size, loadRecords_array_eq_some]
    | object members =>
      -- the first index throws
      obtain ⟨n, hn⟩ := Nat.exists_eq_succ_of_ne_zero hsize
      have hthrows : loadRecord lib (.object members) 0 = none := rfl
      simp only [hn, List.range_succ_eq_map, loadRecords, hthrows, Option.bind_eq_bind,
        Option.bind_none, reduceCtorEq, TakenForAll, Nat.succ_ne_zero, false_and, exists_const,
        or_self]
    | null => exact absurd rfl hsize
    | bool b => exact absurd rfl hsize
    | int n => exact absurd rfl hsize
    | real value => exact absurd rfl hsize
    | string str => exact absurd rfl hsize

/-- A start on a storage file that is there runs the loop over what JsonCpp leaves of it. -/
theorem startUp_of_fileAt {fs : FileSystem} {f : File}
    (hfile : FileUtil.fileAt fs cfg.storageInfo = some f)
    (hsize : f.content.length ≤ FileUtil.stringMaxSize) :
    startUp cfg lib fs = loadRecords lib (lib.parse f.content).2
      (List.range (lib.parse f.content).2.size) .empty := by
  have hfind : (fs.find cfg.storageInfo).isSome = true := by
    rw [FileSystem.find_eq_file.mpr (FileSystem.fileAt_eq_some.mp hfile), Option.isSome_some]
  have hcontent : storageContent cfg fs wholeLoad = some (true, f.content) :=
    getContent_of_fileAt [] hfile hsize rfl hsize
  rw [startUp, initLoad_of_content rfl hfind hcontent, Option.map_map]
  exact Option.map_id'

/-! ## One attempt -/

/-- An attempt that does not open the file leaves it. -/
theorem attemptFs_of_not_opens (h : ¬a.Opens cfg s.fs) : attemptFs cfg lib s a = s.fs :=
  setContent_of_not_open s.fs a.io h

/-- One that opens it leaves the bytes of its text that got to the disk. -/
theorem fileAt_attemptFs (lib : JsonCpp) (h : a.Opens cfg s.fs) :
    ∃ f, FileUtil.fileAt (attemptFs cfg lib s a) cfg.storageInfo = some f ∧
      f.content = (attemptText lib s.table a).take a.io.written :=
  ⟨_, fileAt_setContent s.fs a.io h.1 h.2, rfl⟩

/-- Of a file that was opened, a start makes what JsonCpp leaves of the text that is in it. -/
theorem yields_attemptFs_iff (hopens : a.Opens cfg s.fs) (hlawful : a.Lawful lib s.table) :
    Yields cfg lib (attemptFs cfg lib s a) table ↔
      LeavesTable lib ((attemptText lib s.table a).take a.io.written) table := by
  obtain ⟨f, hfile, hcontent⟩ := fileAt_attemptFs lib hopens
  have hsize : f.content.length ≤ FileUtil.stringMaxSize := by
    rw [hcontent]
    exact (List.length_take_le' _ _).trans hlawful.size
  unfold Yields LeavesTable
  simp only [startUp_of_fileAt hfile hsize, ← hcontent, loadRecords_eq_some_iff]
  constructor
  · rintro ⟨after, ⟨infos, htaken, rfl⟩, hsame⟩
    exact ⟨infos, htaken, hsame⟩
  · rintro ⟨infos, htaken, hsame⟩
    exact ⟨_, ⟨infos, htaken, rfl⟩, hsame⟩

/-- The whole text of a table that loses nothing gives the table back. -/
theorem yields_of_writesWhole (hs : Consistent cfg lib s) (hlawful : a.Lawful lib s.table)
    (hopens : a.Opens cfg s.fs) (hwhole : a.WritesWhole lib s.table) :
    Yields cfg lib (attemptFs cfg lib s a) (s.table.insert a.info) := by
  obtain ⟨⟨text, hwrite, hwritten⟩, hrestorable⟩ := hwhole
  have htext : attemptText lib s.table a = text := by
    simp only [attemptText, storageText, JsonUtil.serialize, hwrite]
  have hsize : text.length ≤ FileUtil.stringMaxSize := by
    rw [← htext]
    exact hlawful.size
  let io : RestartIo := { order := a.order, write := a.io, load := wholeLoad }
  have hsucceeds : io.Succeeds cfg lib s.fs (s.table.insert a.info) text :=
    ⟨hwrite, hlawful.faithful.parse_write text hwrite, hsize, hopens.1, hopens.2, hwritten, rfl,
      rfl, rfl, hsize⟩
  obtain ⟨ok, after, hrestart, hsame⟩ :=
    (restart_restores_iff (typed_insert hs.typed hlawful.typed) hsucceeds).mpr hrestorable
  refine ⟨after, ?_, hsame⟩
  show (restart cfg lib s.fs (s.table.insert a.info) io).map Prod.snd = some after
  rw [hrestart, Option.map_some]

/-- After a crash when the file is truncated and nothing is written yet, the table is empty. -/
theorem startUp_truncated (hopens : a.Opens cfg s.fs) (hwritten : a.io.written = 0)
    (hnil : (lib.parse []).2 = .null) :
    startUp cfg lib (attemptFs cfg lib s a) = some .empty := by
  obtain ⟨f, hfile, hcontent⟩ := fileAt_attemptFs lib hopens
  rw [hwritten, List.take_zero] at hcontent
  have hsize : f.content.length ≤ FileUtil.stringMaxSize := by
    rw [hcontent]
    exact Nat.zero_le _
  rw [startUp_of_fileAt hfile hsize, hcontent, hnil]
  rfl

/-- Such a crash loses every record. -/
theorem crashAtomic_truncated_iff (hopens : a.Opens cfg s.fs) (hwritten : a.io.written = 0)
    (hnil : (lib.parse []).2 = .null) :
    CrashAtomic cfg lib s a ↔ s.table.records = [] := by
  have hyields : ∀ table, Yields cfg lib (attemptFs cfg lib s a) table ↔
      SameRecords .empty table := by
    intro table
    simp only [Yields, startUp_truncated hopens hwritten hnil, Option.some.injEq, exists_eq_left']
  have hafter : ¬SameRecords .empty (s.table.insert a.info) := by
    intro h
    have hlookup := h a.info.url_
    rw [Table.lookup_insert, Table.lookup_empty] at hlookup
    cases hlookup
  simp only [CrashAtomic, hyields, hafter, or_false]
  constructor
  · intro h
    apply List.eq_nil_iff_forall_not_mem.mpr
    intro e he
    have hempty : e ∈ Table.empty.records := h.mem_iff.mpr he
    cases hempty
  · intro hnone url
    rw [Table.lookup_empty]
    cases hlookup : s.table.lookup url with
    | none => rfl
    | some e =>
      have hmem : e ∈ s.table.records := by
        rw [Table.mem_records, Table.lookup_url hlookup, hlookup]
      rw [hnone] at hmem
      cases hmem

/-- Which crashes are atomic if the storage file holds the table. -/
theorem crashAtomic_of_consistent (hs : Consistent cfg lib s) (hlawful : a.Lawful lib s.table)
    (hrec : Recoverable cfg lib s (.crash a)) : CrashAtomic cfg lib s a := by
  by_cases hopens : a.Opens cfg s.fs
  · obtain hnot | hwhole | ⟨hwritten, hempty, hnil⟩ := hrec
    · exact absurd hopens hnot
    · exact .inr (yields_of_writesWhole hs hlawful hopens hwhole)
    · exact (crashAtomic_truncated_iff hopens hwritten hnil).mpr hempty
  · -- the file still holds the table before
    left
    rw [attemptFs_of_not_opens hopens]
    exact hs.yields

/-- The documentation says nothing of what is left of a torn text. -/
theorem lawful_leaving (hlawful : a.Lawful lib s.table)
    (htorn : a.io.written < (attemptText lib s.table a).length) (value : Json.Value) :
    a.Lawful (lib.leaving ((attemptText lib s.table a).take a.io.written) value) s.table := by
  constructor
  case typed => exact hlawful.typed
  case size => exact hlawful.size
  case faithful =>
    constructor
    case parse_write =>
      intro text hwrite
      have htext : attemptText lib s.table a = text := by
        have hwrite : lib.write (root (getAll (s.table.insert a.info) a.order)) = some text :=
          hwrite
        simp only [attemptText, storageText, JsonUtil.serialize, hwrite]
      -- the text itself is not torn
      have hne : text ≠ (attemptText lib s.table a).take a.io.written := by
        intro heq
        have hlength := congrArg List.length heq
        rw [List.length_take, ← htext] at hlength
        omega
      show (if text = _ then _ else lib.parse text) = _
      rw [if_neg hne]
      exact hlawful.faithful.parse_write text hwrite
    case parse_prefix =>
      intro text head hwrite hhead hne
      show (if head = _ then _ else lib.parse head).1 = false
      split
      · rfl
      · exact hlawful.faithful.parse_prefix text head hwrite hhead hne
    case parse_nil =>
      show (if [] = _ then _ else lib.parse []).1 = false
      split
      · rfl
      · exact hlawful.faithful.parse_nil

/-- So with some library that is as documented a torn text loses the table. -/
theorem not_crashAtomic_leaving (hopens : a.Opens cfg s.fs) (hlawful : a.Lawful lib s.table)
    (htorn : a.io.written < (attemptText lib s.table a).length) :
    ¬CrashAtomic cfg (lib.leaving ((attemptText lib s.table a).take a.io.written)
      (.object [([], .null)])) s a := by
  let torn := (attemptText lib s.table a).take a.io.written
  let lib' := lib.leaving torn (.object [([], .null)])
  have hlawful' : a.Lawful lib' s.table := lawful_leaving hlawful htorn _
  have hleft : (lib'.parse torn).2 = .object [([], .null)] := by
    show (if torn = torn then _ else lib.parse torn).2 = _
    rw [if_pos rfl]
  -- the start asks an object for its first element
  have hnone : ∀ table, ¬Yields cfg lib' (attemptFs cfg lib' s a) table := by
    intro table hyields
    obtain ⟨infos, htaken, -⟩ := (yields_attemptFs_iff hopens hlawful').mp hyields
    have htaken : TakenForAll lib' (lib'.parse torn).2 infos := htaken
    rw [hleft] at htaken
    obtain ⟨hsize, -⟩ | ⟨elements, harray, -⟩ := htaken
    · cases hsize
    · cases harray
  rintro (h | h)
  · exact hnone _ h
  · exact hnone _ h

/-! ## Runs -/

/-- A recoverable step leaves the file with the table, which is the one before or has the
    record of the attempt as well. -/
theorem consistent_step {b : DurableAction} (hs : Consistent cfg lib s)
    (hlawful : b.attempt.Lawful lib s.table) (hrec : Recoverable cfg lib s b)
    (hstep : durableStep cfg lib s b = some s') :
    Consistent cfg lib s' ∧ (SameRecords s'.table s.table ∨
      SameRecords s'.table (s.table.insert b.attempt.info)) := by
  have htyped := typed_insert hs.typed hlawful.typed
  cases b with
  | insert a =>
    cases hstep
    exact ⟨⟨yields_of_writesWhole hs hlawful hrec.1 hrec.2, htyped⟩, .inr fun _ => rfl⟩
  | crash a =>
    obtain ⟨loaded, hstart, rfl⟩ := Option.map_eq_some_iff.mp hstep
    have hyields : Yields cfg lib (attemptFs cfg lib s a) loaded := ⟨loaded, hstart, fun _ => rfl⟩
    -- the start gives one table only, so it is what atomicity says
    have hsame : SameRecords loaded s.table ∨ SameRecords loaded (s.table.insert a.info) := by
      obtain ⟨after, hafter, hsame⟩ | ⟨after, hafter, hsame⟩ :=
        crashAtomic_of_consistent hs hlawful hrec
      · cases hstart.symm.trans hafter
        exact .inl hsame
      · cases hstart.symm.trans hafter
        exact .inr hsame
    refine ⟨⟨hyields, fun e he => ?_⟩, hsame⟩
    obtain hsame | hsame := hsame
    · exact hs.typed e (hsame.mem_iff.mp he)
    · exact htyped e (hsame.mem_iff.mp he)

/-- The file holds the table all along a run of recoverable steps. -/
theorem consistent_run {as : List DurableAction} (hs : Consistent cfg lib s)
    (hlawful : (durable cfg lib).AllSteps (fun s b => b.attempt.Lawful lib s.table) s as)
    (hrec : (durable cfg lib).AllSteps (Recoverable cfg lib) s as)
    (hrun : (durable cfg lib).run s as = some s') : Consistent cfg lib s' := by
  refine Transition.run_invariant (I := Consistent cfg lib) ?_ hs
    ((Transition.allSteps_and _).mpr ⟨hlawful, hrec⟩) hrun
  intro s b s' hs hb hstep
  exact (consistent_step hs hb.1 hb.2 hstep).1

/-- Along a run, a url that led to one of `infos` leads to one of them or to the record of a
    later attempt. -/
theorem lookup_run {as : List DurableAction} {url : Bytes} {infos : List StorageInfo}
    (hs : Consistent cfg lib s)
    (hlawful : (durable cfg lib).AllSteps (fun s b => b.attempt.Lawful lib s.table) s as)
    (hrec : (durable cfg lib).AllSteps (Recoverable cfg lib) s as)
    (hrun : (durable cfg lib).run s as = some s')
    (hlookup : ∃ e ∈ infos, e.url_ = url ∧ s.table.lookup url = some e) :
    ∃ e ∈ infos ++ as.map (fun b => b.attempt.info), e.url_ = url ∧
      s'.table.lookup url = some e := by
  induction as generalizing s infos with
  | nil =>
    cases hrun
    simpa only [List.map_nil, List.append_nil] using hlookup
  | cons x as ih =>
    obtain ⟨s₁, hstep, hrun⟩ := (Transition.run_cons_eq_some _).mp hrun
    obtain ⟨hs₁, htable⟩ := consistent_step hs hlawful.1 hrec.1 hstep
    have hnext : ∃ e ∈ infos ++ [x.attempt.info], e.url_ = url ∧
        s₁.table.lookup url = some e := by
      obtain ⟨e, he, hurl, he'⟩ := hlookup
      have hold : e ∈ infos ++ [x.attempt.info] := List.mem_append_left _ he
      obtain hsame | hsame := htable
      · exact ⟨e, hold, hurl, by rw [hsame, he']⟩
      · -- the new record takes the url over, or leaves it
        by_cases heq : url = x.attempt.info.url_
        · refine ⟨_, List.mem_append_right _ (List.mem_singleton_self _), heq.symm, ?_⟩
          rw [hsame, heq, Table.lookup_insert]
        · exact ⟨e, hold, hurl, by rw [hsame, Table.lookup_insert_ne _ heq, he']⟩
    have hrest := ih hs₁ (hlawful.2 s₁ hstep) (hrec.2 s₁ hstep) hrun hnext
    rwa [List.append_assoc, List.singleton_append] at hrest

/-- What the table holds at some point of a run, a start at its end does not miss. -/
theorem notErased_run {as : List DurableAction} {info : StorageInfo} (hs : Consistent cfg lib s)
    (hlawful : (durable cfg lib).AllSteps (fun s b => b.attempt.Lawful lib s.table) s as)
    (hrec : (durable cfg lib).AllSteps (Recoverable cfg lib) s as)
    (hrun : (durable cfg lib).run s as = some s')
    (hlookup : s.table.lookup info.url_ = some info) : NotErased cfg lib s'.fs info as := by
  obtain ⟨after, hstart, hsame⟩ := (consistent_run hs hlawful hrec hrun).yields
  refine ⟨after, hstart, ?_⟩
  rw [hsame]
  have hfirst : ∃ e ∈ [info], e.url_ = info.url_ ∧ s.table.lookup info.url_ = some e :=
    ⟨info, List.mem_singleton_self info, rfl, hlookup⟩
  exact lookup_run hs hlawful hrec hrun hfirst

/-- At the end of a run of recoverable steps a crash is atomic if it is recoverable, too; one
    that tears its text is not, with some library that is as documented, and one that leaves an
    empty file only if the table was empty. What was in the storage file at first or was inserted
    by an `Insert` that was completed has not been erased. -/
theorem crashAtomic_of_recoverable {as : List DurableAction} (hs : Consistent cfg lib s)
    (hlawful : (durable cfg lib).AllSteps (fun s b => b.attempt.Lawful lib s.table) s as)
    (hrec : (durable cfg lib).AllSteps (Recoverable cfg lib) s as)
    (hrun : (durable cfg lib).run s as = some s') :
    (∀ a : Attempt, a.Lawful lib s'.table →
      (Recoverable cfg lib s' (.crash a) → CrashAtomic cfg lib s' a) ∧
      (a.Opens cfg s'.fs → a.io.written < (attemptText lib s'.table a).length →
        ∃ value, a.Lawful (lib.leaving ((attemptText lib s'.table a).take a.io.written) value)
            s'.table ∧
          ¬CrashAtomic cfg
            (lib.leaving ((attemptText lib s'.table a).take a.io.written) value) s' a) ∧
      (a.Opens cfg s'.fs → a.io.written = 0 → (lib.parse []).2 = .null →
        (CrashAtomic cfg lib s' a ↔ s'.table.records = []))) ∧
    (∀ info ∈ s.table.records, NotErased cfg lib s'.fs info as) ∧
    ∀ as₁ a as₂, as = as₁ ++ .insert a :: as₂ → NotErased cfg lib s'.fs a.info as₂ := by
  have hs' := consistent_run hs hlawful hrec hrun
  refine ⟨fun a ha => ⟨crashAtomic_of_consistent hs' ha, fun hopens htorn => ?_, ?_⟩,
    fun info hinfo => ?_, ?_⟩
  · exact ⟨_, lawful_leaving ha htorn _, not_crashAtomic_leaving hopens ha htorn⟩
  · exact crashAtomic_truncated_iff
  · exact notErased_run hs hlawful hrec hrun (Table.mem_records.mp hinfo)
  rintro as₁ a as₂ rfl
  -- the table has the record when the `Insert` is through
  rw [Transition.run_append, Option.bind_eq_some_iff] at hrun
  obtain ⟨s₁, hrun₁, hrun⟩ := hrun
  obtain ⟨s₂, hstep, hrun₂⟩ := (Transition.run_cons_eq_some _).mp hrun
  obtain ⟨hlawful₁, hlawful⟩ := (Transition.allSteps_append _).mp hlawful
  obtain ⟨hrec₁, hrec⟩ := (Transition.allSteps_append _).mp hrec
  have hs₁ := consistent_run hs hlawful₁ hrec₁ hrun₁
  have hs₂ := consistent_step hs₁ (hlawful s₁ hrun₁).1 (hrec s₁ hrun₁).1 hstep
  have hlookup : s₂.table.lookup a.info.url_ = some a.info := by
    cases hstep
    exact Table.lookup_insert s₁.table a.info
  exact notErased_run hs₂.1 ((hlawful s₁ hrun₁).2 s₂ hstep) ((hrec s₁ hrun₁).2 s₂ hstep) hrun₂
    hlookup

end

/-- A library that knows these texts and their documents. -/
def JsonCpp.ofTexts (write : Json.Value → Option Bytes) (texts : List (Bytes × Json.Value)) :
    JsonCpp where
  write := write
  parse := fun input =>
    match texts.lookup input with
    | some value => (true, value)
    | none => (false, .null)
  realToString := fun _ => []

/-- It is as documented on a document whose text no other text is the beginning of. -/
theorem JsonCpp.ofTexts_faithful {write : Json.Value → Option Bytes}
    {texts : List (Bytes × Json.Value)} {value : Json.Value} {text : Bytes}
    (hwrite : write value = some text) (hlookup : texts.lookup text = some value)
    (hwhole : ∀ known ∈ texts, known.1 <+: text → known.1 = text)
    (hnil : texts.lookup [] = none) : (JsonCpp.ofTexts write texts).Faithful value := by
  constructor
  · intro text' htext'
    cases hwrite.symm.trans htext'
    simp only [ofTexts, hlookup]
  · intro text' head htext' hhead hne
    cases hwrite.symm.trans htext'
    simp only [ofTexts]
    cases hfind : texts.lookup head with
    | none => rfl
    | some other =>
      obtain ⟨before, after, rfl, -⟩ := List.lookup_eq_some_iff.mp hfind
      have hmem : (head, other) ∈ before ++ (head, other) :: after :=
        List.mem_append_right _ List.mem_cons_self
      exact absurd (hwhole _ hmem hhead) hne
  · simp only [ofTexts, hnil]

/-- The text of a table that holds the record of `a`, that of `b` or both. -/
def crashWrite (value : Json.Value) : Option Bytes :=
  if value.size = 2 then
    some (smallText [("b", "2"), ("a", "2")])
  else
    match (value.element 0).bind (·.member (Bytes.ofString "url_")) with
    | some (.string url) =>
      some (smallText [(if url = Bytes.ofString "/download/a" then "a" else "b", "2")])
    | _ => none

/-- The texts and the documents of these tables. -/
def crashTexts : List (Bytes × Json.Value) := [
  (smallText [("a", "2")], root [smallInfo "a" 2]),
  (smallText [("b", "2")], root [smallInfo "b" 2]),
  (smallText [("b", "2"), ("a", "2")], root [smallInfo "b" 2, smallInfo "a" 2])]

def crashJson : JsonCpp := .ofTexts crashWrite crashTexts

/-- The record of a small file, of which `written` bytes of text get into the storage file. -/
def smallAttempt (name : String) (written : Nat) : Attempt where
  info := smallInfo name 2
  order := .held
  io := { opens := true, written, time := 100 }

theorem smallAttempt_lawful {table : Table} {name : String} {written : Nat} (text : Bytes)
    (hwrite : crashWrite (root (getAll (table.insert (smallInfo name 2)) .held)) = some text)
    (hlookup : crashTexts.lookup text =
      some (root (getAll (table.insert (smallInfo name 2)) .held)))
    (hwhole : ∀ known ∈ crashTexts, known.1 <+: text → known.1 = text)
    (hlen : text.length ≤ 1000) : (smallAttempt name written).Lawful crashJson table := by
  have hmax : 1000 ≤ FileUtil.stringMaxSize :=
    Nat.le_trans (by decide) FileUtil.le_stringMaxSize
  have htext : attemptText crashJson table (smallAttempt name written) = text := by
    have hwrite : crashJson.write (root (getAll (table.insert (smallAttempt name written).info)
        (smallAttempt name written).order)) = some text := hwrite
    simp only [attemptText, storageText, JsonUtil.serialize, hwrite]
  constructor
  · constructor
    · show -9223372036854775808 ≤ (100 : Int) ∧ (100 : Int) ≤ 9223372036854775807
      omega
    · show -9223372036854775808 ≤ (100 : Int) ∧ (100 : Int) ≤ 9223372036854775807
      omega
    · show 2 < SizeT.modulus
      decide
  · exact JsonCpp.ofTexts_faithful hwrite hlookup hwhole rfl
  · rw [htext]
    exact hlen.trans hmax

/-- The server before its first `Insert`. -/
def emptyDurable : Durable where
  table := .empty
  fs := ∅

theorem emptyDurable_consistent : Consistent Config.shipped crashJson emptyDurable := by
  constructor
  · exact ⟨.empty, rfl, fun _ => rfl⟩
  · intro e he
    cases he

set_option maxRecDepth 4096 in
theorem lawful_first (written : Nat) : (smallAttempt "a" written).Lawful crashJson .empty :=
  smallAttempt_lawful (smallText [("a", "2")]) rfl rfl (by decide) (by decide)

set_option maxRecDepth 4096 in
theorem lawful_second (written : Nat) :
    (smallAttempt "b" written).Lawful crashJson (Table.empty.insert (smallInfo "a" 2)) :=
  smallAttempt_lawful (smallText [("b", "2"), ("a", "2")]) rfl rfl (by decide) (by decide)

set_option maxRecDepth 4096 in
theorem lawful_again (written : Nat) : (smallAttempt "b" written).Lawful crashJson .empty :=
  smallAttempt_lawful (smallText [("b", "2")]) rfl rfl (by decide) (by decide)

/-- A small record is restorable if its strings hold no NUL, so the whole text of a table of
    such records loses nothing. -/
theorem smallAttempt_writesWhole {table : Table} {name : String} {written : Nat} (text : Bytes)
    (hwrite : crashWrite (root (getAll (table.insert (smallInfo name 2)) .held)) = some text)
    (hlen : text.length ≤ written) (hfree : (smallInfo name 2).NulFree)
    (htable : ∀ e ∈ table.records, e.Restorable) :
    (smallAttempt name written).WritesWhole crashJson table := by
  refine ⟨⟨text, hwrite, hlen⟩, fun e he => ?_⟩
  obtain rfl | he := mem_records_insert he
  · have htime : Json.Value.InIntRange 100 := by decide
    have hsize : Json.Value.InIntRange (toInt64 2) := by decide
    exact ⟨htime, htime, hsize, hfree⟩
  · exact htable e he

theorem restorable_empty : ∀ e ∈ Table.empty.records, e.Restorable := by
  intro e he
  cases he

set_option maxRecDepth 4096 in
theorem writesWhole_first : (smallAttempt "a" 1000).WritesWhole crashJson .empty :=
  smallAttempt_writesWhole (smallText [("a", "2")]) rfl (by decide)
    ⟨by decide, by decide⟩ restorable_empty

set_option maxRecDepth 4096 in
theorem writesWhole_second : (smallAttempt "b" 1000).WritesWhole crashJson
    (Table.empty.insert (smallInfo "a" 2)) :=
  smallAttempt_writesWhole (smallText [("b", "2"), ("a", "2")]) rfl (by decide)
    ⟨by decide, by decide⟩ writesWhole_first.2

set_option maxRecDepth 4096 in
theorem writesWhole_again : (smallAttempt "b" 1000).WritesWhole crashJson .empty :=
  smallAttempt_writesWhole (smallText [("b", "2")]) rfl (by decide)
    ⟨by decide, by decide⟩ restorable_empty

/-- The server after its first `Insert`. -/
def afterFirst : Durable where
  table := Table.empty.insert (smallInfo "a" 2)
  fs := attemptFs Config.shipped crashJson emptyDurable (smallAttempt "a" 1000)

/-- The server after the crash of its second `Insert`, and the start. -/
def afterCrash : Durable where
  table := .empty
  fs := attemptFs Config.shipped crashJson afterFirst (smallAttempt "b" 0)

theorem opens_first (name : String) (written : Nat) :
    (smallAttempt name written).Opens Config.shipped emptyDurable.fs := by
  have hcreatable : emptyDurable.fs.creatable Config.shipped.storageInfo = true := by decide
  exact ⟨hcreatable, rfl⟩

set_option maxRecDepth 4096 in
theorem opens_second (name : String) (written : Nat) :
    (smallAttempt name written).Opens Config.shipped afterFirst.fs := by
  have hcreatable : afterFirst.fs.creatable Config.shipped.storageInfo = true := by decide
  exact ⟨hcreatable, rfl⟩

set_option maxRecDepth 4096 in
theorem opens_again (name : String) (written : Nat) :
    (smallAttempt name written).Opens Config.shipped afterCrash.fs := by
  have hcreatable : afterCrash.fs.creatable Config.shipped.storageInfo = true := by decide
  exact ⟨hcreatable, rfl⟩

theorem crashAtomic_small :
    CrashAtomic Config.shipped crashJson afterFirst (smallAttempt "b" 1000) ∧
      NotErased Config.shipped crashJson afterFirst.fs (smallInfo "a" 2) [] := by
  have hrun : (durable Config.shipped crashJson).run emptyDurable
      [.insert (smallAttempt "a" 1000)] = some afterFirst := rfl
  have hlawful : (durable Config.shipped crashJson).AllSteps
      (fun s b => b.attempt.Lawful crashJson s.table) emptyDurable
      [.insert (smallAttempt "a" 1000)] := ⟨lawful_first 1000, fun _ _ => trivial⟩
  have hrec : (durable Config.shipped crashJson).AllSteps (Recoverable Config.shipped crashJson)
      emptyDurable [.insert (smallAttempt "a" 1000)] :=
    ⟨⟨opens_first "a" 1000, writesWhole_first⟩, fun _ _ => trivial⟩
  obtain ⟨hatomic, -, hkept⟩ := crashAtomic_of_recoverable emptyDurable_consistent hlawful hrec hrun
  constructor
  · exact (hatomic _ (lawful_second 1000)).1 (.inr (.inl writesWhole_second))
  · exact hkept [] _ [] rfl

/-- The server when it has made the second `Insert` again. -/
def afterAgain : Durable where
  table := Table.empty.insert (smallInfo "b" 2)
  fs := attemptFs Config.shipped crashJson afterCrash (smallAttempt "b" 1000)

def crashRun : List DurableAction :=
  [.insert (smallAttempt "a" 1000), .crash (smallAttempt "b" 0), .insert (smallAttempt "b" 1000)]

theorem startUp_afterCrash : startUp Config.shipped crashJson afterCrash.fs = some .empty :=
  startUp_truncated (opens_second "b" 0) rfl rfl

theorem step_afterCrash :
    durableStep Config.shipped crashJson afterFirst (.crash (smallAttempt "b" 0)) =
      some afterCrash := by
  have hstart : startUp Config.shipped crashJson (attemptFs Config.shipped crashJson afterFirst
      (smallAttempt "b" 0)) = some .empty := startUp_afterCrash
  simp only [durableStep, hstart, Option.map_some]
  rfl

theorem run_crashRun :
    (durable Config.shipped crashJson).run emptyDurable crashRun = some afterAgain := by
  show (durableStep Config.shipped crashJson afterFirst (.crash (smallAttempt "b" 0))).bind
    ((durable Config.shipped crashJson).run · [.insert (smallAttempt "b" 1000)]) = some afterAgain
  rw [step_afterCrash]
  rfl

/-- Every attempt is lawful, and the two that are completed persist. -/
theorem allSteps_crashRun : (durable Config.shipped crashJson).AllSteps
    (fun s b => b.attempt.Lawful crashJson s.table ∧ Persisting Config.shipped crashJson s b)
    emptyDurable crashRun := by
  refine ⟨⟨lawful_first 1000, opens_first "a" 1000, writesWhole_first⟩, fun s₁ h₁ => ?_⟩
  cases h₁
  refine ⟨⟨lawful_second 0, trivial⟩, fun s₂ h₂ => ?_⟩
  cases step_afterCrash.symm.trans h₂
  exact ⟨⟨lawful_again 1000, opens_again "b" 1000, writesWhole_again⟩, fun _ _ => trivial⟩

/-- The file holds the second record only. -/
theorem yields_afterAgain :
    Yields Config.shipped crashJson afterAgain.fs afterAgain.table := by
  have hcrash : Consistent Config.shipped crashJson afterCrash :=
    ⟨⟨.empty, startUp_afterCrash, fun _ => rfl⟩, emptyDurable_consistent.typed⟩
  exact yields_of_writesWhole hcrash (lawful_again 1000) (opens_again "b" 1000) writesWhole_again

/-- The second `Insert` is stopped when it has truncated the file, so the restart finds no
    record, and when it is made again it erases the first record for good. -/
theorem crash_loses_table :
    (¬∀ (cfg : Config) (lib : JsonCpp) (s s' : Durable) (as : List DurableAction),
      Consistent cfg lib s →
      (durable cfg lib).AllSteps (fun s b => b.attempt.Lawful lib s.table) s as →
      (durable cfg lib).AllSteps (Persisting cfg lib) s as →
      (durable cfg lib).run s as = some s' →
      ∀ a : Attempt, a.Lawful lib s'.table → CrashAtomic cfg lib s' a) ∧
    ¬∀ (cfg : Config) (lib : JsonCpp) (s s' : Durable) (as : List DurableAction),
      Consistent cfg lib s →
      (durable cfg lib).AllSteps (fun s b => b.attempt.Lawful lib s.table) s as →
      (durable cfg lib).AllSteps (Persisting cfg lib) s as →
      (durable cfg lib).run s as = some s' →
      ∀ as₁ a as₂, as = as₁ ++ .insert a :: as₂ → NotErased cfg lib s'.fs a.info as₂ := by
  constructor
  · intro h
    have hatomic := h Config.shipped crashJson emptyDurable afterFirst
      [.insert (smallAttempt "a" 1000)] emptyDurable_consistent
      ⟨lawful_first 1000, fun _ _ => trivial⟩
      ⟨⟨opens_first "a" 1000, writesWhole_first⟩, fun _ _ => trivial⟩ rfl
      (smallAttempt "b" 0) (lawful_second 0)
    rw [crashAtomic_truncated_iff (opens_second "b" 0) rfl rfl] at hatomic
    cases hatomic
  · intro h
    obtain ⟨hlawful, hpersisting⟩ := (Transition.allSteps_and _).mp allSteps_crashRun
    obtain ⟨after, hafter, e, -, -, he⟩ := h Config.shipped crashJson emptyDurable afterAgain
      crashRun emptyDurable_consistent hlawful hpersisting run_crashRun [] (smallAttempt "a" 1000)
      _ rfl
    -- a start gives one table only
    obtain ⟨after', hafter', hsame⟩ := yields_afterAgain
    cases hafter.symm.trans hafter'
    have hnone : afterAgain.table.lookup (smallInfo "a" 2).url_ = none := by decide
    have he : after.lookup (smallInfo "a" 2).url_ = some e := he
    rw [hsame, hnone] at he
    cases he

end Storage
