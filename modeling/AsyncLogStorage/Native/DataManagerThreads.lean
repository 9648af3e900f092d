import AsyncLogStorage.ForStd.RwLock
import AsyncLogStorage.Native.DataManagerCalls

/-!
# The table of `DataManager` under its lock

`table_` as an `std::unordered_map`, and the sections of `Insert`, `Update`, `GetOneByURL`,
`GetOneByStoragePath` and `GetAll` between the lock of `rwlock_` and its unlock, in small steps:
a `find`, an `operator[]`, the copy of one member of a `StorageInfo`, an advance of an iterator.

Then whole calls of `Insert` and `Update`: a section for the record, the section of `GetAll`, and
the write of the storage file with no lock held.
-/

namespace Storage

/-- A value-initialized `StorageInfo`. -/
def StorageInfo.zero : StorageInfo where
  mtime_ := 0
  atime_ := 0
  fsize_ := 0
  storage_path_ := []
  url_ := []

/-- The members of a `StorageInfo`. -/
inductive Member where
  | mtime_
  | atime_
  | fsize_
  | storage_path_
  | url_
deriving DecidableEq, Repr

/-- The order in which an assignment copies the members. -/
def Member.all : List Member := [mtime_, atime_, fsize_, storage_path_, url_]

/-- The assignment of one member of `e`. -/
def StorageInfo.assign (info e : StorageInfo) : Member → StorageInfo
  | .mtime_ => { info with mtime_ := e.mtime_ }
  | .atime_ => { info with atime_ := e.atime_ }
  | .fsize_ => { info with fsize_ := e.fsize_ }
  | .storage_path_ => { info with storage_path_ := e.storage_path_ }
  | .url_ => { info with url_ := e.url_ }

/-- An `std::unordered_map`: its nodes in the order of an iteration, and its buckets. -/
structure UnorderedMap where
  nodes : List (Bytes × StorageInfo)
  bucketCount : Nat
deriving DecidableEq, Repr

/-- How a standard library puts a new node into a map, where a rehash may move the others. -/
structure HashPolicy where
  emplace : UnorderedMap → Bytes → UnorderedMap
  perm : ∀ map key, (emplace map key).nodes.Perm ((key, StorageInfo.zero) :: map.nodes)

namespace UnorderedMap

def find (map : UnorderedMap) (key : Bytes) : Option StorageInfo :=
  (map.nodes.find? (·.1 == key)).map Prod.snd

/-- `operator[]`: the map after it. -/
def index (policy : HashPolicy) (map : UnorderedMap) (key : Bytes) : UnorderedMap :=
  if (map.find key).isSome then map else policy.emplace map key

/-- A write through the reference that `operator[]` has given. -/
def modify (map : UnorderedMap) (key : Bytes) (f : StorageInfo → StorageInfo) : UnorderedMap :=
  { map with nodes := map.nodes.map fun node => if node.1 == key then (key, f node.2) else node }

/-- A read through the reference. -/
def value (map : UnorderedMap) (key : Bytes) : StorageInfo := (map.find key).getD StorageInfo.zero

/-- A read through the iterator that is at node `i`. -/
def second (map : UnorderedMap) (i : Nat) : StorageInfo :=
  (map.nodes[i]?.map Prod.snd).getD StorageInfo.zero

end UnorderedMap

/-- The member functions, up to the unlock. `info` and `arry` are what the argument points to. -/
inductive TableOp where
  | insert (info : StorageInfo)
  | update (info : StorageInfo)
  | getOneByURL (key : Bytes) (info : StorageInfo)
  | getOneByStoragePath (storagePath : Bytes) (info : StorageInfo)
  | getAll (arry : List StorageInfo)
deriving DecidableEq, Repr

inductive TableResult where
  | updated
  /-- The result, and what `*info` then holds. -/
  | one (found : Bool) (info : StorageInfo)
  /-- What `*arry` then holds. -/
  | all (arry : List StorageInfo)
deriving DecidableEq, Repr

/-- Where a section stands. -/
inductive SectionPc where
  | start
  /-- In `table_[info.url_] = info`. -/
  | assign (left : List Member)
  /-- `find` has found the key. -/
  | found
  /-- In `*info = table_[key]`. -/
  | load (left : List Member) (info : StorageInfo)
  /-- The iterator of the loop is at node `i`, or at the end. -/
  | element (i : Nat) (arry : List StorageInfo)
  /-- The copy of node `i` into `e`. -/
  | copy (i : Nat) (left : List Member) (e : StorageInfo) (arry : List StorageInfo)
deriving DecidableEq, Repr

namespace DataManager

/-- `table_[info.url_] = info`. -/
def assignNext (policy : HashPolicy) (info : StorageInfo) (pc : SectionPc) (map : UnorderedMap) :
    (SectionPc × UnorderedMap) ⊕ TableResult :=
  match pc with
  | .start => .inl (.assign Member.all, map.index policy info.url_)
  | .assign (member :: left) =>
    .inl (.assign left, map.modify info.url_ (·.assign info member))
  | _ => .inr .updated

def getOneByURLNext (policy : HashPolicy) (key : Bytes) (info : StorageInfo) (pc : SectionPc)
    (map : UnorderedMap) : (SectionPc × UnorderedMap) ⊕ TableResult :=
  match pc with
  | .start => if (map.find key).isSome then .inl (.found, map) else .inr (.one false info)
  -- `operator[]` would insert, under a lock that is for reading
  | .found => .inl (.load Member.all info, map.index policy key)
  | .load (member :: left) info => .inl (.load left (info.assign (map.value key) member), map)
  | .load [] info => .inr (.one true info)
  | _ => .inr (.one false info)

/-- `for (auto e : table_)`, with the body that follows the copy into `e`. -/
def scanNext (arry : List StorageInfo) (atEnd : List StorageInfo → TableResult)
    (body : Nat → StorageInfo → List StorageInfo → SectionPc ⊕ TableResult) (pc : SectionPc)
    (map : UnorderedMap) : (SectionPc × UnorderedMap) ⊕ TableResult :=
  match pc with
  | .start => .inl (.element 0 arry, map)
  | .element i arry =>
    if i < map.nodes.length then .inl (.copy i Member.all StorageInfo.zero arry, map)
    else .inr (atEnd arry)
  | .copy i (member :: left) e arry =>
    .inl (.copy i left (e.assign (map.second i) member) arry, map)
  | .copy i [] e arry => (body i e arry).map (fun pc => (pc, map)) id
  | _ => .inr (atEnd arry)

def getOneByStoragePathNext (storagePath : Bytes) (info : StorageInfo) :
    SectionPc → UnorderedMap → (SectionPc × UnorderedMap) ⊕ TableResult :=
  scanNext [] (fun _ => .one false info) fun i e arry =>
    if e.storage_path_ == storagePath then .inr (.one true e) else .inl (.element (i + 1) arry)

def getAllNext (arry : List StorageInfo) :
    SectionPc → UnorderedMap → (SectionPc × UnorderedMap) ⊕ TableResult :=
  scanNext arry .all fun i e arry => .inl (.element (i + 1) (arry ++ [e]))

def sectionNext (policy : HashPolicy) :
    TableOp → SectionPc → UnorderedMap → (SectionPc × UnorderedMap) ⊕ TableResult
  | .insert info => assignNext policy info
  | .update info => assignNext policy info
  | .getOneByURL key info => getOneByURLNext policy key info
  | .getOneByStoragePath storagePath info => getOneByStoragePathNext storagePath info
  | .getAll arry => getAllNext arry

/-- `table_` under `rwlock_`. -/
def lockedTable (policy : HashPolicy) : RwObject UnorderedMap TableOp SectionPc TableResult where
  mode
    | .insert _ | .update _ => .write
    | _ => .read
  enter _ := .start
  next := sectionNext policy

end DataManager

/-- Where a call of `Insert` or `Update` stands. -/
inductive CallPhase where
  | called
  /-- In the section that stores the record. -/
  | updating
  | updated
  /-- In the section of `GetAll`. -/
  | reading
  | snapshotted (arr : List StorageInfo)
  | returned
deriving DecidableEq, Repr

structure ThreadCall where
  info : StorageInfo
  isUpdate : Bool
  phase : CallPhase
deriving DecidableEq, Repr

/-- The section that stores the record. -/
def ThreadCall.setter (c : ThreadCall) : TableOp :=
  if c.isUpdate then .update c.info else .insert c.info

/-- The section that a call comes to, and where it then stands. -/
def ThreadCall.nextSection (c : ThreadCall) : Option (TableOp × CallPhase) :=
  match c.phase with
  | .called => some (c.setter, .updating)
  | .updated => some (.getAll [], .reading)
  | _ => none

/-- Where a call stands after its section, from what the section has returned. -/
def ThreadCall.afterSection (c : ThreadCall) (r : TableResult) : Option CallPhase :=
  match c.phase, r with
  | .updating, _ => some .updated
  | .reading, .all arr => some (.snapshotted arr)
  | _, _ => none

/-- The table under its lock, the files, and a call on each thread. -/
structure Threads where
  locked : RwObject.RwState UnorderedMap TableOp SectionPc TableResult
  fs : FileSystem
  calls : List ThreadCall

namespace DataManager

inductive ThreadAction where
  /-- The call comes to its next section. -/
  | enter (i : Nat)
  | lock (i : Nat)
  | step (i : Nat)
  | unlock (i : Nat)
  | write (i : Nat) (io : WriteOutcome)

def threadStep (cfg : Config) (lib : JsonCpp) (policy : HashPolicy) (s : Threads) :
    ThreadAction → Option Threads
  | .enter i => do
    let c ← s.calls[i]?
    let (op, phase) ← c.nextSection
    let locked ← (lockedTable policy).step s.locked (.call i op)
    return { s with locked := locked, calls := s.calls.set i { c with phase := phase } }
  | .lock i => ((lockedTable policy).step s.locked (.lock i)).map fun locked =>
    { s with locked := locked }
  | .step i => ((lockedTable policy).step s.locked (.step i)).map fun locked =>
    { s with locked := locked }
  | .unlock i =>
    match s.locked.threads[i]? with
    | some (.leaving _ r) => do
      let c ← s.calls[i]?
      let phase ← c.afterSection r
      let locked ← (lockedTable policy).step s.locked (.unlock i)
      return { s with locked := locked, calls := s.calls.set i { c with phase := phase } }
    | _ => none
  | .write i io =>
    match s.calls[i]? with
    | some ⟨info, isUpdate, .snapshotted arr⟩ =>
      let body := storageText lib arr
      let (ok, fs) := FileUtil.setContent s.fs cfg.storageInfo body io
      if ok ∧ body.length ≤ io.written then
        some { s with fs := fs, calls := s.calls.set i ⟨info, isUpdate, .returned⟩ }
      else none
    | _ => none

/-- Any number of calls that are just made, at least one, each on its thread, on any map and
files. -/
def threads (cfg : Config) (lib : JsonCpp) (policy : HashPolicy) :
    Transition Threads ThreadAction where
  init s := s.calls ≠ [] ∧ (∀ c ∈ s.calls, c.phase = .called) ∧
    ∃ map, s.locked = RwObject.start map s.calls.length
  step := threadStep cfg lib policy

end DataManager

end Storage
