import AsyncLogStorage.ForStd.Transition
import AsyncLogStorage.Native.DataManager

/-!
# Inserts, crashes and restarts

The server inserts one record after the other, with `need_persist_` set. It may stop in
the middle of an `Insert`, before `SetContent` has opened the storage file or when the
file is truncated and some of the bytes are written; the table is lost then, and the
constructor of `DataManager` runs again over what is in the file.
-/

namespace Storage

/-- The table in memory and the files. -/
structure Durable where
  table : Table
  fs : FileSystem

/-- An `Insert`, with the order in which it iterates over the table and what its write meets. -/
structure Attempt where
  info : StorageInfo
  order : HashOrder
  io : WriteOutcome

namespace DataManager

/-- The storage file can be read to its end. -/
def wholeLoad : LoadOutcome where
  existsThrows := false
  sizeOk := true
  read := { opens := true, delivered := FileUtil.stringMaxSize }

/-- The constructor: `InitLoad` on an empty table, whose result is not looked at. -/
def startUp (cfg : Config) (lib : JsonCpp) (fs : FileSystem) : Option Table :=
  (initLoad cfg lib fs .empty wholeLoad).map Prod.snd

/-- The text that an `Insert` writes. -/
def attemptText (lib : JsonCpp) (table : Table) (a : Attempt) : Bytes :=
  storageText lib (getAll (table.insert a.info) a.order)

/-- The files when an `Insert` is through, or stops after `a.io.written` bytes. -/
def attemptFs (cfg : Config) (lib : JsonCpp) (s : Durable) (a : Attempt) : FileSystem :=
  (insert cfg lib s.fs s.table a.info true a.order a.io).2.2

inductive DurableAction where
  /-- The `Insert` is completed, whatever became of its write. -/
  | insert (a : Attempt)
  /-- The server stops in the `Insert` and starts again. -/
  | crash (a : Attempt)

def DurableAction.attempt : DurableAction → Attempt
  | .insert a | .crash a => a

/-- A start that ends in an exception is not enabled: the server does not come up. -/
def durableStep (cfg : Config) (lib : JsonCpp) (s : Durable) : DurableAction → Option Durable
  | .insert a => some ⟨s.table.insert a.info, attemptFs cfg lib s a⟩
  | .crash a =>
    (startUp cfg lib (attemptFs cfg lib s a)).map fun table => ⟨table, attemptFs cfg lib s a⟩

def durable (cfg : Config) (lib : JsonCpp) : Transition Durable DurableAction where
  init _ := True
  step := durableStep cfg lib

end DataManager

end Storage
