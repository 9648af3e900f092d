import AsyncLogStorage.ForStd.Bytes
import AsyncLogStorage.ForStd.List
import AsyncLogStorage.ForStd.Path
import AsyncLogStorage.ForStd.SizeT
import Mathlib.Data.List.AList

/-!
# Files and `FileUtil`

The part of a POSIX file system that the server sees: regular files and directories
at lexically normalised places. System calls read a path up to its first NUL.
Whether a call succeeds where the file system allows it (permissions, space, missing
directories on the way) is an outcome that comes with the call.

`FileUtil` is from `Util.hpp`. Exceptions are `none`.
-/

namespace Storage

open Path (Place)

structure File where
  content : Bytes
  mtime : Int
  atime : Int
deriving DecidableEq, Repr

inductive Node where
  | file (f : File)
  | directory
deriving DecidableEq, Repr

/-- The nodes that exist, by their place. -/
abbrev FileSystem := AList fun _ : Place Bytes => Node

/-! ## Paths and system calls -/

/-- The place a system call goes to for a path. -/
def resolve (path : Bytes) : Place Bytes := Path.normalise path.cstr

/-- A path that can name a regular file: it does not end in a slash, `.` or `..`. -/
def namesFile (path : Bytes) : Bool :=
  match (Path.components path.cstr).getLast? with
  | some (.down _) => true
  | _ => false

/-- `place` lies below `dir`. -/
def isBelow (place dir : Place Bytes) : Bool :=
  place.rooted == dir.rooted && place.ups == dir.ups &&
    dir.names.isPrefixOf place.names && decide (dir.names.length < place.names.length)

/-- A place is a directory if it is one, if anything lies below it, or if it is the start
    of the path or above it. -/
def FileSystem.isDirectory (fs : FileSystem) (place : Place Bytes) : Bool :=
  place.names.isEmpty || fs.lookup place == some .directory || fs.keys.any (isBelow · place)

/-- The places above `place`, from the top down to `place` itself. -/
def withAncestors (place : Place Bytes) : List (Place Bytes) :=
  (List.range place.names.length).map fun n => { place with names := place.names.take (n + 1) }

def Node.isFile : Node → Bool
  | .file _ => true
  | .directory => false

/-- Some place of the list holds a regular file. -/
def FileSystem.anyFile (fs : FileSystem) (places : List (Place Bytes)) : Bool :=
  places.any fun place => (fs.lookup place).any Node.isFile

/-- The node that a path leads to. -/
def FileSystem.find (fs : FileSystem) (path : Bytes) : Option Node :=
  if path.cstr = [] then none
  else if fs.isDirectory (resolve path) then some .directory
  else match fs.lookup (resolve path) with
    | some (.file f) => if namesFile path then some (.file f) else none
    | _ => none

/-- Whether `open` with `O_CREAT | O_TRUNC` can succeed: the path names no directory and
    nothing below a regular file. -/
def FileSystem.creatable (fs : FileSystem) (path : Bytes) : Bool :=
  namesFile path && !fs.isDirectory (resolve path) &&
    !fs.anyFile (withAncestors (resolve path)).dropLast

/-- The contents of a regular file after a write at the given time. Creating a file sets
    both its times, writing it sets the first. -/
def FileSystem.store (fs : FileSystem) (place : Place Bytes) (content : Bytes) (time : Int) :
    FileSystem :=
  let atime := match fs.lookup place with
    | some (.file f) => f.atime
    | _ => time
  fs.insert place (.file { content := content, mtime := time, atime := atime })

/-- `fs::create_directories`: the directories on the way to `place` that do not exist yet.
    It throws where a regular file is in the way. -/
def FileSystem.mkdirs (fs : FileSystem) (place : Place Bytes) : Option FileSystem :=
  if fs.anyFile (withAncestors place) then none
  else some ((withAncestors place).foldl (fun fs dir =>
    if fs.isDirectory dir then fs else fs.insert dir .directory) fs)

/-- `remove`: a file, or a directory that is empty. -/
def FileSystem.remove (fs : FileSystem) (path : Bytes) : FileSystem :=
  match fs.find path with
  | some (.file _) => fs.erase (resolve path)
  | some .directory =>
    if fs.keys.any (isBelow · (resolve path)) then fs else fs.erase (resolve path)
  | none => fs

/-! ## FileUtil -/

/-- What a `SetContent` meets: whether the file opens, how many bytes get to the disk
    and at which time. -/
structure WriteOutcome where
  opens : Bool
  written : Nat
  time : Int
deriving DecidableEq, Repr

/-- What a `GetPosLen` meets: whether the file opens and how many bytes `read` gets. -/
structure ReadOutcome where
  opens : Bool
  delivered : Nat
deriving DecidableEq, Repr

namespace FileUtil

/-- `std::string::max_size()` of one version of libstdc++; memory is taken never to run out below
    it. Of its value the bounds below are all that is used. -/
def stringMaxSize : Nat := 9223372036854775806

theorem stringMaxSize_lt : stringMaxSize < 9223372036854775808 := by decide

/-- A string has room for what `stat` reports of a directory. -/
theorem le_stringMaxSize : 4096 ≤ stringMaxSize := by decide

/-- `Exists`, where `fs::exists` may throw. -/
def fileExists (fs : FileSystem) (path : Bytes) (throws : Bool) : Option Bool :=
  if throws then none else some (fs.find path).isSome

/-- The bytes of the file that a path names. A directory has none. -/
def fileAt (fs : FileSystem) (path : Bytes) : Option File :=
  match fs.find path with
  | some (.file f) => some f
  | _ => none

/-- `FileSize`: `stat` may fail, and it does where there is nothing. A directory has the
    size of its block. -/
def fileSize (fs : FileSystem) (path : Bytes) (statOk : Bool) : Int :=
  match fs.find path with
  | some (.file f) => if statOk then f.content.length else -1
  | some .directory => if statOk then 4096 else -1
  | none => -1

/-- `LastAccessTime`. The times of a directory are not kept, and nobody asks for them. -/
def lastAccessTime (fs : FileSystem) (path : Bytes) (statOk : Bool) : Int :=
  match fileAt fs path with
  | some f => if statOk then f.atime else -1
  | none => -1

/-- `LastModifyTime`. -/
def lastModifyTime (fs : FileSystem) (path : Bytes) (statOk : Bool) : Int :=
  match fileAt fs path with
  | some f => if statOk then f.mtime else -1
  | none => -1

/-- The bytes after the last slash. -/
def fileName (path : Bytes) : Bytes := (path.splitOn 47).getLast?.getD []

/-- A value of `int64_t` where `size_t` is expected. -/
def toSizeT (n : Int) : Nat := (n % SizeT.modulus).toNat

/-- `GetPosLen`: whether it succeeded, and what `*content` then holds. A directory opens
    for reading, but nothing can be read from it. -/
def getPosLen (fs : FileSystem) (path : Bytes) (content : Bytes) (pos len : Nat) (statOk : Bool)
    (io : ReadOutcome) : Option (Bool × Bytes) :=
  if toSizeT (fileSize fs path statOk) < SizeT.add pos len then some (false, content)
  else match fs.find path with
    | none => some (false, content)
    | some node =>
      -- `content->resize(len)` throws above `max_size`
      if !io.opens then some (false, content)
      else if stringMaxSize < len then none
      else
        let data := match node with
          | .file f => ((f.content.drop pos).take len).take io.delivered
          | .directory => []
        some (data.length == len, (content.resize len 0).overwrite 0 data)

/-- `GetContent`. -/
def getContent (fs : FileSystem) (path : Bytes) (content : Bytes) (statOk : Bool)
    (io : ReadOutcome) : Option (Bool × Bytes) :=
  getPosLen fs path content 0 (toSizeT (fileSize fs path statOk)) statOk io

/-- `SetContent`: the file is truncated as it opens. A write that fails is logged, and
    the result is `true` all the same. -/
def setContent (fs : FileSystem) (path content : Bytes) (io : WriteOutcome) :
    Bool × FileSystem :=
  if fs.creatable path && io.opens then
    (true, fs.store (resolve path) (content.take io.written) io.time)
  else
    (false, fs)

/-- `CreateDirectory`, where `fs::exists` and `fs::create_directories` may throw. The second
    does so for an empty path. -/
def createDirectory (fs : FileSystem) (path : Bytes) (throws : Bool) : Option FileSystem :=
  if throws then none
  else if (fs.find path).isSome then some fs
  else if path.cstr = [] then none
  else fs.mkdirs (resolve path)

end FileUtil

end Storage
