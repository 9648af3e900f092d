import AsyncLogStorage.ForStd.Transition
import AsyncLogStorage.Native.DataManager

/-!
# Concurrent calls of `Insert` and `Update`

With `need_persist_` set both calls take the same three steps: they store their record
in the table under the write lock, take a snapshot under the read lock in `GetAll`, and
write the text of that snapshot to the storage file with no lock held. Between the steps
any other call may take one of its own.
-/

namespace Storage

/-- Where a call stands. -/
inductive CallPc where
  | called
  | updated
  /-- `GetAll` has filled `arr`. -/
  | snapshotted (arr : List StorageInfo)
  | returned

structure Call where
  info : StorageInfo
  pc : CallPc

/-- The table, the files and the calls that are under way. -/
structure Calls where
  table : Table
  fs : FileSystem
  calls : List Call

namespace DataManager

inductive CallAction where
  | update (i : Nat)
  | snapshot (i : Nat) (order : HashOrder)
  | write (i : Nat) (io : WriteOutcome)

/-- The step of call `i` from the program counter it has. A write succeeds, with all of its
    bytes, or it is not enabled. -/
def callStep (cfg : Config) (lib : JsonCpp) (s : Calls) : CallAction → Option Calls
  | .update i => match s.calls[i]? with
    | some ⟨info, .called⟩ =>
      some { s with table := s.table.insert info, calls := s.calls.set i ⟨info, .updated⟩ }
    | _ => none
  | .snapshot i order => match s.calls[i]? with
    | some ⟨info, .updated⟩ =>
      some { s with calls := s.calls.set i ⟨info, .snapshotted (getAll s.table order)⟩ }
    | _ => none
  | .write i io => match s.calls[i]? with
    | some ⟨info, .snapshotted arr⟩ =>
      let body := storageText lib arr
      let (ok, fs) := FileUtil.setContent s.fs cfg.storageInfo body io
      if ok ∧ body.length ≤ io.written then
        some { s with fs := fs, calls := s.calls.set i ⟨info, .returned⟩ }
      else none
    | _ => none

/-- Any number of calls that are just made, at least one, on any table and files. -/
def calls (cfg : Config) (lib : JsonCpp) : Transition Calls CallAction where
  init s := s.calls ≠ [] ∧ ∀ c ∈ s.calls, c.pc = .called
  step := callStep cfg lib

end DataManager

end Storage
