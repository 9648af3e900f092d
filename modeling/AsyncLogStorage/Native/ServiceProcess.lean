import AsyncLogStorage.ForStd.Transition
import AsyncLogStorage.Native.Service

/-!
# The process of the service

`main` constructs the `DataManager`, which loads the storage file, and then the service handles
one request after the other. An exception or a failed assertion ends the process, and so may
anything else between two requests; the files stay, the table is lost, and the process can be
started again.
-/

namespace Storage

open Service

/-- The files, and the table of the process if it runs. -/
structure Process where
  fs : FileSystem
  table : Option Table

/-- What happens to a process. -/
inductive Life where
  | request (e : Event)
  /-- It ends, if it runs, and starts again; `InitLoad` meets `io`. -/
  | restart (io : DataManager.LoadOutcome)

namespace Process

/-- What a request leaves of a running process. -/
def after (out : Outcome) : Process :=
  match out.exit with
  | .returned => ⟨out.server.fs, some out.server.table⟩
  | _ => ⟨out.server.fs, none⟩

/-- A request reaches a running process only; an exception of `InitLoad` leaves none. -/
def step (cfg : Config) (z : Zstd) (lib : JsonCpp) (p : Process) : Life → Option Process
  | .request e => p.table.map fun table => after (handle cfg z lib ⟨p.fs, table⟩ e)
  | .restart io => some ⟨p.fs, (DataManager.initLoad cfg lib p.fs .empty io).map Prod.snd⟩

/-- The name and the content of an upload that is answered with `200`. -/
def acknowledged (cfg : Config) (z : Zstd) (lib : JsonCpp) (p : Process) :
    Life → Option (Bytes × Bytes)
  | .request (.upload io req) =>
    match p.table, uploadTarget cfg io req with
    | some table, .ok t =>
      if (upload cfg z lib io ⟨p.fs, table⟩ req).replies.any (·.code == 200) then
        some (t.fileName, t.content)
      else none
    | _, _ => none
  | _ => none

end Process

end Storage
