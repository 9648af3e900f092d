import AsyncLogStorage.Native.DataManagerThreads
import AsyncLogStorage.Spec.StorageFile

/-!
# The table under its lock is a table

The threads that call `Insert`, `Update`, `GetOneByURL`, `GetOneByStoragePath` and `GetAll` at
the same time see one `Table`: the calls that have given `rwlock_` back, in that order, return
what they return one after the other, and the map holds what they then leave in it.

## Key results

- `DataManager.readsOnly_lockedTable`: `GetOneByURL` uses `operator[]` under the read lock, and
  inserts nothing
- `DataManager.ends_of_represents`: what a section does alone, on the table
- `DataManager.table_serial`: every execution of the calls is a serial one
-/

namespace Storage

/-- The map holds the records of the table under their urls. -/
structure Represents (map : UnorderedMap) (table : Table) : Prop where
  nodup : (map.nodes.map Prod.fst).Nodup
  mem_iff : ∀ key info, (key, info) ∈ map.nodes ↔ table.lookup key = some info

/-- The table after a member function. -/
def TableOp.apply (table : Table) : TableOp → Table
  | .insert info => table.insert info
  | .update info => table.insert info
  | _ => table

/-- The results that a member function may have on a table. An iteration has some order. -/
inductive TableOp.Answers (table : Table) : TableOp → TableResult → Prop where
  | insert (info : StorageInfo) : Answers table (.insert info) .updated
  | update (info : StorageInfo) : Answers table (.update info) .updated
  | getOneByURL (key : Bytes) (info : StorageInfo) :
    Answers table (.getOneByURL key info)
      (.one (DataManager.getOneByURL table key info).1 (DataManager.getOneByURL table key info).2)
  | getOneByStoragePath (storagePath : Bytes) (info : StorageInfo) (order : HashOrder) :
    Answers table (.getOneByStoragePath storagePath info)
      (.one (DataManager.getOneByStoragePath table order storagePath info).1
        (DataManager.getOneByStoragePath table order storagePath info).2)
  | getAll (arry : List StorageInfo) (order : HashOrder) :
    Answers table (.getAll arry) (.all (arry ++ DataManager.getAll table order))

/-- The table after the calls of a log. -/
def tableAfter (table : Table) (log : List (Nat × TableOp × TableResult)) : Table :=
  log.foldl (fun table call => call.2.1.apply table) table

/-- Every call of the log has a result that it may have on the table the calls before it leave. -/
def Serial (table : Table) (log : List (Nat × TableOp × TableResult)) : Prop :=
  ∀ before i op r after, log = before ++ (i, op, r) :: after →
    op.Answers (tableAfter table before) r

variable {map : UnorderedMap} {table : Table} {key : Bytes} {op : TableOp}

/-! ## Logs -/

theorem tableAfter_snoc (table : Table) (log : List (Nat × TableOp × TableResult))
    (call : Nat × TableOp × TableResult) :
    tableAfter table (log ++ [call]) = call.2.1.apply (tableAfter table log) := by
  simp [tableAfter]

/-- A call that returns after those of a serial log. -/
theorem Serial.snoc {log : List (Nat × TableOp × TableResult)} (h : Serial table log) (i : Nat)
    {r : TableResult} (hr : op.Answers (tableAfter table log) r) :
    Serial table (log ++ [(i, op, r)]) := by
  intro before j op' r' after heq
  obtain rfl | ⟨after, last, rfl⟩ := List.eq_nil_or_concat after
  · obtain ⟨rfl, hcall⟩ := List.append_inj' heq rfl
    cases hcall
    exact hr
  · have hfront : log = before ++ (j, op', r') :: after := by
      rw [List.concat_eq_append, ← List.cons_append, ← List.append_assoc] at heq
      exact (List.append_inj' heq rfl).1
    exact h before j op' r' after hfront

/-! ## The copy of a record -/

/-- The copy of all members is the record. -/
theorem StorageInfo.foldl_assign_all (info e : StorageInfo) :
    Member.all.foldl (·.assign e) info = e := rfl

/-! ## The map -/

theorem Represents.find_eq (h : Represents map table) (key : Bytes) :
    map.find key = table.lookup key := by
  cases hlookup : table.lookup key with
  | none =>
    simp only [UnorderedMap.find, Option.map_eq_none_iff, List.find?_eq_none]
    rintro ⟨key', info⟩ hmem heq
    have hkey : key' = key := by simpa using heq
    rw [h.mem_iff, hkey, hlookup] at hmem
    cases hmem
  | some info =>
    have hmem := (h.mem_iff key info).mpr hlookup
    obtain ⟨node, hfind⟩ : ∃ node, map.nodes.find? (·.1 == key) = some node := by
      rw [← Option.isSome_iff_exists, List.find?_isSome]
      exact ⟨(key, info), hmem, by simp⟩
    have hkey : node.1 = key := by simpa using List.find?_some hfind
    have hnode := (h.mem_iff node.1 node.2).mp (List.mem_of_find?_eq_some hfind)
    rw [hkey, hlookup] at hnode
    simp [UnorderedMap.find, hfind, ← hnode]

@[simp] theorem UnorderedMap.keys_modify (map : UnorderedMap) (key : Bytes)
    (f : StorageInfo → StorageInfo) :
    (map.modify key f).nodes.map Prod.fst = map.nodes.map Prod.fst := by
  simp only [modify, List.map_map]
  apply List.map_congr_left
  intro node _
  by_cases hkey : node.1 = key <;> simp [hkey]

/-- Two writes to one element are one. -/
theorem UnorderedMap.modify_modify (map : UnorderedMap) (key : Bytes)
    (f g : StorageInfo → StorageInfo) :
    (map.modify key f).modify key g = map.modify key (g ∘ f) := by
  simp only [modify, List.map_map, UnorderedMap.mk.injEq, and_true]
  apply List.map_congr_left
  intro node _
  by_cases hkey : node.1 = key <;> simp [hkey]

theorem UnorderedMap.modify_id (map : UnorderedMap) (key : Bytes) : map.modify key id = map := by
  obtain ⟨nodes, bucketCount⟩ := map
  simp only [modify, UnorderedMap.mk.injEq, and_true]
  apply List.map_id'' 
  intro node
  by_cases hkey : node.1 = key
  · simp [← hkey]
  · simp [hkey]

/-- `operator[]` leaves the elements of the other keys, and the key is then there once. -/
theorem Represents.index (policy : HashPolicy) (h : Represents map table) (key : Bytes) :
    ((map.index policy key).nodes.map Prod.fst).Nodup ∧
      key ∈ (map.index policy key).nodes.map Prod.fst ∧
      ∀ key' info, key' ≠ key →
        ((key', info) ∈ (map.index policy key).nodes ↔ table.lookup key' = some info) := by
  simp only [UnorderedMap.index, h.find_eq]
  cases hlookup : table.lookup key with
  | some info =>
    exact ⟨h.nodup, List.mem_map.mpr ⟨(key, info), (h.mem_iff key info).mpr hlookup, rfl⟩,
      fun key' info _ => h.mem_iff key' info⟩
  | none =>
    have hperm := policy.perm map key
    have hnew : key ∉ map.nodes.map Prod.fst := by
      intro hmem
      obtain ⟨node, hnode, hkey⟩ := List.mem_map.mp hmem
      have hnode := (h.mem_iff node.1 node.2).mp hnode
      rw [hkey, hlookup] at hnode
      cases hnode
    simp only [Option.isSome_none, Bool.false_eq_true, ↓reduceIte]
    refine ⟨?_, ?_, ?_⟩
    · rw [(hperm.map Prod.fst).nodup_iff, List.map_cons, List.nodup_cons]
      exact ⟨hnew, h.nodup⟩
    · rw [(hperm.map Prod.fst).mem_iff, List.map_cons]
      exact List.mem_cons_self
    · intro key' info hne
      rw [hperm.mem_iff, List.mem_cons, ← h.mem_iff]
      simp [hne]

/-- What `table_[info.url_] = info` leaves in the map. -/
theorem Represents.assign (policy : HashPolicy) (h : Represents map table) (info : StorageInfo) :
    Represents ((map.index policy info.url_).modify info.url_ fun _ => info)
      (table.insert info) := by
  obtain ⟨hnodup, hmem, hother⟩ := h.index policy info.url_
  constructor
  · rw [UnorderedMap.keys_modify]
    exact hnodup
  · intro key e
    simp only [UnorderedMap.modify, List.mem_map]
    by_cases hkey : key = info.url_
    · rw [hkey, Table.lookup_insert]
      constructor
      · rintro ⟨node, hnode, heq⟩
        by_cases hnodekey : node.1 = info.url_ <;> simp [hnodekey] at heq
        · rw [heq]
        · simp [heq] at hnodekey
      · intro he
        obtain ⟨node, hnode, hnodekey⟩ := List.mem_map.mp hmem
        exact ⟨node, hnode, by simp [hnodekey, Option.some.inj he]⟩
    · rw [Table.lookup_insert_ne table hkey, ← hother key e hkey]
      constructor
      · rintro ⟨node, hnode, heq⟩
        by_cases hnodekey : node.1 = info.url_ <;> simp [hnodekey] at heq
        · exact absurd heq.1.symm hkey
        · rw [← heq]
          exact hnode
      · intro hnode
        exact ⟨(key, e), hnode, by simp [hkey]⟩

/-- The records in the order of an iteration over the map. -/
theorem Represents.order (h : Represents map table) :
    ∃ order : HashOrder, order.apply table.records = map.nodes.map Prod.snd := by
  have hkeys : (map.nodes.map Prod.snd).map StorageInfo.url_ = map.nodes.map Prod.fst := by
    rw [List.map_map]
    apply List.map_congr_left
    intro node hmem
    exact Table.lookup_url ((h.mem_iff node.1 node.2).mp hmem)
  have hperm : (map.nodes.map Prod.snd).Perm table.records := by
    rw [List.perm_ext_iff_of_nodup (.of_map _ (hkeys ▸ h.nodup)) (.of_map _ table.nodup_urls)]
    intro info
    rw [Table.mem_records, ← h.mem_iff]
    constructor
    · intro hmem
      obtain ⟨node, hnode, rfl⟩ := List.mem_map.mp hmem
      rwa [Table.lookup_url ((h.mem_iff node.1 node.2).mp hnode)]
    · intro hmem
      exact List.mem_map.mpr ⟨_, hmem, rfl⟩
  refine ⟨⟨fun records => if records = table.records then map.nodes.map Prod.snd else records, ?_⟩,
    by simp⟩
  intro records
  split
  · rename_i heq
    rw [heq]
    exact hperm
  · exact .refl _

/-! ## The sections -/

namespace DataManager

/-- What `GetOneByURL` goes by when it uses `operator[]`. -/
def Found (op : TableOp) (pc : SectionPc) (map : UnorderedMap) : Prop :=
  match op, pc with
  | .getOneByURL key _, .found => (map.find key).isSome = true
  | _, _ => True

/-- The loops leave the map as it is. -/
theorem scanNext_eq_inl {arry : List StorageInfo} {atEnd : List StorageInfo → TableResult}
    {body : Nat → StorageInfo → List StorageInfo → SectionPc ⊕ TableResult} {pc pc' : SectionPc}
    {map' : UnorderedMap} (h : scanNext arry atEnd body pc map = .inl (pc', map')) :
    map' = map := by
  cases pc with
  | start =>
    cases h
    rfl
  | element i arry =>
    simp only [scanNext] at h
    split at h
    · cases h
      rfl
    · cases h
  | copy i left e arry =>
    cases left with
    | nil =>
      simp only [scanNext] at h
      cases hbody : body i e arry with
      | inl pc'' =>
        rw [hbody] at h
        cases h
        rfl
      | inr r =>
        rw [hbody] at h
        cases h
    | cons member left =>
      cases h
      rfl
  | _ => cases h

/-- `GetOneByURL` uses `operator[]` only where it does not insert, as the key is there. -/
theorem getOneByURLNext_eq_inl {policy : HashPolicy} {info : StorageInfo} {pc pc' : SectionPc}
    {map' : UnorderedMap} (hfound : Found (.getOneByURL key info) pc map)
    (h : getOneByURLNext policy key info pc map = .inl (pc', map')) :
    map' = map ∧ Found (.getOneByURL key info) pc' map := by
  cases pc with
  | start =>
    simp only [getOneByURLNext] at h
    split at h
    · rename_i hfind
      cases h
      exact ⟨rfl, hfind⟩
    · cases h
  | found =>
    have hindex : map.index policy key = map := by
      simp only [Found] at hfound
      simp only [UnorderedMap.index, hfound, ↓reduceIte]
    simp only [getOneByURLNext, hindex] at h
    cases h
    exact ⟨rfl, trivial⟩
  | load left info =>
    cases left with
    | nil => cases h
    | cons member left =>
      cases h
      exact ⟨rfl, trivial⟩
  | _ => cases h

/-- The sections under the read lock leave the map as it is. -/
theorem readsOnly_lockedTable (policy : HashPolicy) : (lockedTable policy).ReadsOnly := by
  apply RwObject.readsOnly_of_invariant Found
  · intro op map
    cases op <;> trivial
  · intro op pc map pc' map' hmode hfound hnext
    cases op with
    | insert info => cases hmode
    | update info => cases hmode
    | getOneByURL key info => exact getOneByURLNext_eq_inl hfound hnext
    | getOneByStoragePath storagePath info => exact ⟨scanNext_eq_inl hnext, trivial⟩
    | getAll arry => exact ⟨scanNext_eq_inl hnext, trivial⟩

/-! ## A section alone -/

variable {policy : HashPolicy}

/-- The members that an assignment to `table_[info.url_]` has left. -/
theorem ends_assign {info : StorageInfo}
    (hop : (lockedTable policy).next op = assignNext policy info) (left : List Member)
    (map : UnorderedMap) : (lockedTable policy).Ends op (.assign left) map
      (map.modify info.url_ fun value => left.foldl (·.assign info) value, .updated) := by
  induction left generalizing map with
  | nil =>
    rw [show (fun value => [].foldl (·.assign info) value) = (id : StorageInfo → StorageInfo)
      from rfl, UnorderedMap.modify_id]
    exact .here (by rw [hop]; rfl)
  | cons member left ih =>
    have hrest := ih (map.modify info.url_ (·.assign info member))
    rw [UnorderedMap.modify_modify] at hrest
    exact .next (by rw [hop]; rfl) hrest

/-- `table_[info.url_] = info` as a whole. -/
theorem ends_update {info : StorageInfo}
    (hop : (lockedTable policy).next op = assignNext policy info) (map : UnorderedMap) :
    (lockedTable policy).Ends op .start map
      ((map.index policy info.url_).modify info.url_ fun _ => info, .updated) := by
  have hall := ends_assign hop Member.all (map.index policy info.url_)
  simp only [StorageInfo.foldl_assign_all] at hall
  exact .next (by rw [hop]; rfl) hall

/-- The members that `*info = table_[key]` has left. -/
theorem ends_load (left : List Member) (info info' : StorageInfo) :
    (lockedTable policy).Ends (.getOneByURL key info) (.load left info') map
      (map, .one true (left.foldl (·.assign (map.value key)) info')) := by
  induction left generalizing info' with
  | nil => exact .here rfl
  | cons member left ih => exact .next rfl (ih _)

theorem ends_getOneByURL (h : Represents map table) (key : Bytes) (info : StorageInfo) :
    (lockedTable policy).Ends (.getOneByURL key info) .start map
      (map, .one (getOneByURL table key info).1 (getOneByURL table key info).2) := by
  have hfind := h.find_eq key
  cases hlookup : table.lookup key with
  | none =>
    rw [hlookup] at hfind
    have hend : (lockedTable policy).next (.getOneByURL key info) .start map =
        .inr (.one false info) := by
      simp [lockedTable, sectionNext, getOneByURLNext, hfind]
    simpa [getOneByURL, hlookup] using RwObject.Ends.here hend
  | some e =>
    rw [hlookup] at hfind
    have hstart : (lockedTable policy).next (.getOneByURL key info) .start map =
        .inl (.found, map) := by
      simp [lockedTable, sectionNext, getOneByURLNext, hfind]
    have hfound : (lockedTable policy).next (.getOneByURL key info) .found map =
        .inl (.load Member.all info, map) := by
      simp [lockedTable, sectionNext, getOneByURLNext, UnorderedMap.index, hfind]
    have hload : (lockedTable policy).Ends (.getOneByURL key info) (.load Member.all info) map _ :=
      ends_load Member.all info info
    rw [StorageInfo.foldl_assign_all, UnorderedMap.value, hfind] at hload
    simpa [getOneByURL, hlookup] using (hload.next hfound).next hstart

/-- The members of node `i` that a loop has left to copy. -/
theorem ends_copy {i : Nat} {arry : List StorageInfo} {out : UnorderedMap × TableResult}
    (hop : ∀ member left e, (lockedTable policy).next op (.copy i (member :: left) e arry) map =
      .inl (.copy i left (e.assign (map.second i) member) arry, map)) {left : List Member}
    {e : StorageInfo} (h : (lockedTable policy).Ends op
      (.copy i [] (left.foldl (·.assign (map.second i)) e) arry) map out) :
    (lockedTable policy).Ends op (.copy i left e arry) map out := by
  induction left generalizing e with
  | nil => exact h
  | cons member left ih => exact .next (hop member left e) (ih h)

/-- A loop that is at node `i` has copied it when it comes to its body. -/
theorem ends_element {i : Nat} {arry : List StorageInfo} {out : UnorderedMap × TableResult}
    (hop : ∀ member left e, (lockedTable policy).next op (.copy i (member :: left) e arry) map =
      .inl (.copy i left (e.assign (map.second i) member) arry, map))
    (hnext : (lockedTable policy).next op (.element i arry) map =
      .inl (.copy i Member.all .zero arry, map))
    (h : (lockedTable policy).Ends op (.copy i [] (map.second i) arry) map out) :
    (lockedTable policy).Ends op (.element i arry) map out :=
  .next hnext (ends_copy hop h)

theorem second_eq {i : Nat} (hi : i < map.nodes.length) : map.second i = map.nodes[i].2 := by
  simp [UnorderedMap.second, hi]

/-- The records from node `i` on. -/
theorem map_drop_eq {i : Nat} (hi : i < map.nodes.length) :
    (map.nodes.drop i).map Prod.snd = map.second i :: (map.nodes.drop (i + 1)).map Prod.snd := by
  rw [List.drop_eq_getElem_cons hi, List.map_cons, second_eq hi]

/-- `GetAll` from node `i` on. -/
theorem ends_getAll_element (arry : List StorageInfo) (i : Nat) (taken : List StorageInfo) :
    (lockedTable policy).Ends (.getAll arry) (.element i taken) map
      (map, .all (taken ++ (map.nodes.drop i).map Prod.snd)) := by
  induction hk : map.nodes.length - i generalizing i taken with
  | zero =>
    have hend : (lockedTable policy).next (.getAll arry) (.element i taken) map =
        .inr (.all taken) := by
      simp [lockedTable, sectionNext, getAllNext, scanNext, show ¬i < map.nodes.length by omega]
    simpa [List.drop_eq_nil_iff.mpr (show map.nodes.length ≤ i by omega)] using
      RwObject.Ends.here hend
  | succ k ih =>
    have hi : i < map.nodes.length := by omega
    have hrest := ih (i + 1) (taken ++ [map.second i]) (by omega)
    rw [List.append_assoc, List.singleton_append, ← map_drop_eq hi] at hrest
    apply ends_element
    · intro member left e
      rfl
    · simp [lockedTable, sectionNext, getAllNext, scanNext, hi]
    · exact .next rfl hrest

/-- `GetOneByStoragePath` from node `i` on. -/
theorem ends_getOneByStoragePath_element (storagePath : Bytes) (info : StorageInfo) (i : Nat) :
    (lockedTable policy).Ends (.getOneByStoragePath storagePath info) (.element i []) map
      (map, .one
        (((map.nodes.drop i).map Prod.snd).find? (·.storage_path_ == storagePath)).isSome
        ((((map.nodes.drop i).map Prod.snd).find?
          (·.storage_path_ == storagePath)).getD info)) := by
  induction hk : map.nodes.length - i generalizing i with
  | zero =>
    have hend : (lockedTable policy).next (.getOneByStoragePath storagePath info)
        (.element i []) map = .inr (.one false info) := by
      simp [lockedTable, sectionNext, getOneByStoragePathNext, scanNext,
        show ¬i < map.nodes.length by omega]
    simpa [List.drop_eq_nil_iff.mpr (show map.nodes.length ≤ i by omega)] using
      RwObject.Ends.here hend
  | succ k ih =>
    have hi : i < map.nodes.length := by omega
    have hrest := ih (i + 1) (by omega)
    rw [map_drop_eq hi]
    apply ends_element
    · intro member left e
      rfl
    · simp [lockedTable, sectionNext, getOneByStoragePathNext, scanNext, hi]
    · cases hpath : (map.second i).storage_path_ == storagePath with
      | true =>
        have hend : (lockedTable policy).next (.getOneByStoragePath storagePath info)
            (.copy i [] (map.second i) []) map = .inr (.one true (map.second i)) := by
          simp [lockedTable, sectionNext, getOneByStoragePathNext, scanNext, hpath]
        simpa [hpath] using RwObject.Ends.here hend
      | false =>
        have hnext : (lockedTable policy).next (.getOneByStoragePath storagePath info)
            (.copy i [] (map.second i) []) map = .inl (.element (i + 1) [], map) := by
          simp [lockedTable, sectionNext, getOneByStoragePathNext, scanNext, hpath]
        rw [List.find?_cons_of_neg (by simp [hpath])]
        exact .next hnext hrest

/-- What a section does alone: it comes to its end, its result is one that the member function
may have on the table, and the map represents the table after it. -/
theorem ends_of_represents (policy : HashPolicy) (h : Represents map table) (op : TableOp) :
    ∃ map' r, (lockedTable policy).Ends op .start map (map', r) ∧
      Represents map' (op.apply table) ∧ op.Answers table r := by
  cases op with
  | insert info => exact ⟨_, _, ends_update rfl map, h.assign policy info, .insert info⟩
  | update info => exact ⟨_, _, ends_update rfl map, h.assign policy info, .update info⟩
  | getOneByURL key info => exact ⟨_, _, ends_getOneByURL h key info, h, .getOneByURL key info⟩
  | getOneByStoragePath storagePath info =>
    obtain ⟨order, horder⟩ := h.order
    have hends : (lockedTable policy).Ends _ (.element 0 []) map _ :=
      ends_getOneByStoragePath_element storagePath info 0
    refine ⟨_, _, .next rfl hends, h, ?_⟩
    have hanswers : TableOp.Answers table _ _ := .getOneByStoragePath storagePath info order
    simp only [getOneByStoragePath, horder] at hanswers
    simp only [List.drop_zero]
    cases hfind : (map.nodes.map Prod.snd).find? (·.storage_path_ == storagePath) with
    | none => simpa [hfind] using hanswers
    | some e => simpa [hfind] using hanswers
  | getAll arry =>
    obtain ⟨order, horder⟩ := h.order
    have hends : (lockedTable policy).Ends _ (.element 0 arry) map _ :=
      ends_getAll_element arry 0 arry
    refine ⟨_, _, .next rfl hends, h, ?_⟩
    have hanswers : TableOp.Answers table _ _ := .getAll arry order
    rw [getAll, horder] at hanswers
    simpa using hanswers

/-! ## The calls one after the other -/

/-- One operation of the atomic object. -/
theorem atomic_step {t t' : RwObject.AtomicState UnorderedMap TableOp TableResult}
    {a : RwObject.AtomicAction TableOp} {map₀ : UnorderedMap}
    (hmap : Represents t.shared (tableAfter table t.log)) (hserial : Serial table t.log)
    (hstep : ((lockedTable policy).atomic map₀).step t a = some t') :
    Represents t'.shared (tableAfter table t'.log) ∧ Serial table t'.log := by
  obtain ⟨⟨map', r⟩, hperform, rfl⟩ := Option.map_eq_some_iff.mp hstep
  obtain ⟨map'', r', hends, hmap', hanswers⟩ := ends_of_represents policy hmap a.op
  -- what it did is what it does alone
  cases hends.unique ⟨a.fuel, hperform⟩
  refine ⟨?_, hserial.snoc a.i hanswers⟩
  rw [tableAfter_snoc]
  exact hmap'

theorem atomic_serial {t : RwObject.AtomicState UnorderedMap TableOp TableResult}
    (hmap : Represents map table) (h : ((lockedTable policy).atomic map).Reachable t) :
    Represents t.shared (tableAfter table t.log) ∧ Serial table t.log := by
  apply h.invariant (I := fun t => Represents t.shared (tableAfter table t.log) ∧
    Serial table t.log)
  · rintro t rfl
    refine ⟨hmap, ?_⟩
    intro before i op r after heq
    cases before <;> cases heq
  · intro t a t' h hstep
    exact atomic_step h.1 h.2 hstep

/-- Every execution of the member functions by any number of threads is a serial one in the
order of the unlocks. The map holds the table of that order while nobody writes, and while a
member function is under way some thread can go on. -/
theorem table_serial (policy : HashPolicy) {map : UnorderedMap} {table : Table}
    {s : RwObject.RwState UnorderedMap TableOp SectionPc TableResult} (hmap : Represents map table)
    (h : ((lockedTable policy).system map).Reachable s) :
    Serial table s.log ∧
      (s.writer = false → Represents s.shared (tableAfter table s.log)) ∧
      ∀ (i : Nat) pc, s.threads[i]? = some pc → pc ≠ .idle →
        ∃ j, ∃ a ∈ [RwObject.RwAction.lock j, .step j, .unlock j],
          ∃ s', (lockedTable policy).step s a = some s' := by
  obtain ⟨t, ht, hmatches⟩ := RwObject.reachable_atomic (readsOnly_lockedTable policy) h
  obtain ⟨hshared, hserial⟩ := atomic_serial hmap ht
  rw [← hmatches.log_eq] at hshared hserial
  refine ⟨hserial, ?_, ?_⟩
  · intro hwriter
    rw [hmatches.quiet hwriter]
    exact hshared
  · intro i pc hi hpc
    exact RwObject.exists_step hmatches.locked hi hpc

/-! ## A run -/

/-- A standard library that puts the new node in front. -/
def frontPolicy : HashPolicy where
  emplace map key := { map with nodes := (key, .zero) :: map.nodes }
  perm := fun _ _ => .refl _

def emptyMap : UnorderedMap := ⟨[], 1⟩

open RwObject in
/-- Two threads look for a record while a third waits to insert it, and again when the third is
in the middle of its assignment. -/
def fiveCalls (a : StorageInfo) : List (RwAction TableOp) :=
  [RwAction.call 0 (.getOneByURL a.url_ .zero), RwAction.call 1 (.getAll []),
    RwAction.call 2 (.insert a), RwAction.lock 0, RwAction.lock 1, RwAction.step 0] ++
  List.replicate 2 (RwAction.step 1) ++ [RwAction.unlock 0, RwAction.unlock 1, RwAction.lock 2] ++
  List.replicate 3 (RwAction.step 2) ++
  [RwAction.call 0 (.getOneByURL a.url_ .zero), RwAction.call 1 (.getAll [])] ++
  List.replicate 4 (RwAction.step 2) ++ [RwAction.unlock 2, RwAction.lock 0, RwAction.lock 1] ++
  List.replicate 8 (RwAction.step 0) ++ List.replicate 9 (RwAction.step 1) ++
  [RwAction.unlock 1, RwAction.unlock 0]

def afterFive (a : StorageInfo) : RwObject.RwState UnorderedMap TableOp SectionPc TableResult where
  shared := ⟨[(a.url_, a)], 1⟩
  readers := 0
  writer := false
  threads := [.idle, .idle, .idle]
  log := [(0, .getOneByURL a.url_ .zero, .one false .zero), (1, .getAll [], .all []),
    (2, .insert a, .updated), (1, .getAll [], .all [a]),
    (0, .getOneByURL a.url_ .zero, .one true a)]

set_option maxRecDepth 4000 in
theorem run_five : ((lockedTable frontPolicy).system emptyMap).run (RwObject.start emptyMap 3)
    (fiveCalls (smallInfo "a" 2)) = some (afterFive (smallInfo "a" 2)) := by
  decide +kernel

theorem reachable_five :
    ((lockedTable frontPolicy).system emptyMap).Reachable (afterFive (smallInfo "a" 2)) :=
  ⟨_, fiveCalls (smallInfo "a" 2), ⟨3, rfl⟩, run_five⟩

theorem represents_emptyMap : Represents emptyMap Table.empty where
  nodup := by simp [emptyMap]
  mem_iff := by simp [emptyMap]

theorem table_serial_small :
    Serial Table.empty (afterFive (smallInfo "a" 2)).log ∧
      Represents (afterFive (smallInfo "a" 2)).shared
        (tableAfter Table.empty (afterFive (smallInfo "a" 2)).log) := by
  have h := table_serial frontPolicy represents_emptyMap reachable_five
  exact ⟨h.1, h.2.1 rfl⟩

end DataManager

end Storage
