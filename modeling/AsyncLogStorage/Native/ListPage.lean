import AsyncLogStorage.ForStd.LocalTime
import AsyncLogStorage.ForStd.RegexReplace
import AsyncLogStorage.Native.Service

/-!
# The list page

`formatSize`, `TimetoStr`, `generateModernFileList` and `ListShow` of `Service.hpp`, and
`GenHandler`, which chooses between the three handlers.

The local time of a `time_t` depends on the time zone of the server, so it is a parameter.
`ctime` is taken to print it, as it does up to the largest year that `struct tm` holds.
-/

namespace Storage

/-! ## Sizes and times -/

/-- The quotient, rounded to the nearest integer, and to the even one of two. -/
def roundDiv (n d : Nat) : Nat :=
  if d < 2 * (n % d) ∨ (2 * (n % d) = d ∧ n / d % 2 = 1) then n / d + 1 else n / d

/-- The `double` that a `uint64_t` is converted to. It has 53 bits, and is an integer. -/
def toDouble (n : Nat) : Nat :=
  let ulp := 2 ^ (n.log2 + 1 - 53)
  roundDiv n ulp * ulp

/-- The loop of `formatSize`: what `unit_index` comes to, with `left` turns to go at most. -/
def unitIndex (size unit_index : Nat) : Nat → Nat
  | 0 => unit_index
  | left + 1 =>
    if 1024 ≤ size / 1024 ^ unit_index then unitIndex size (unit_index + 1) left else unit_index

/-- The name of a unit. -/
def unitName (unit_index : Nat) : Bytes :=
  Bytes.ofString
    (match unit_index with
    | 0 => "B"
    | 1 => "KB"
    | 2 => "MB"
    | _ => "GB")

/-- `formatSize`, with two digits after the point. -/
def formatSize (bytes : Nat) : Bytes :=
  let size := toDouble bytes
  let unit_index := unitIndex size 0 3
  let hundredths := roundDiv (size * 100) (1024 ^ unit_index)
  Bytes.ofString (toString (hundredths / 100)) ++ Bytes.ofString "." ++
    LocalTime.twoDigits (hundredths % 100) ++ Bytes.ofString " " ++ unitName unit_index

/-- The time zone of the server. -/
structure TimeZone where
  localtime : Int → LocalTime
  /-- `tm_wday`. -/
  wday : Int → Fin 7

/-- A zone in which it is always the start of 1 January 1970, a Thursday. -/
instance : Inhabited TimeZone := ⟨{ localtime := fun _ => .cut 70 0 1 0 0 0, wday := fun _ => 4 }⟩

/-- `TimetoStr`. -/
def timetoStr (zone : TimeZone) (t : Int) : Bytes := (zone.localtime t).ctime (zone.wday t)

/-! ## The list -/

/-- What a file adds to the list. -/
def fileItem (zone : TimeZone) (file : StorageInfo) : Bytes :=
  let filename := FileUtil.fileName file.storage_path_
  let storage_type := Service.listedStorageType file
  Bytes.ofString "<div class='file-item'>" ++ Bytes.ofString "<div class='file-info'>" ++
    Bytes.ofString "<span>📄" ++ filename ++ Bytes.ofString "</span>" ++
    Bytes.ofString "<span class='file-type'>" ++
    Bytes.ofString (if storage_type = Bytes.ofString "deep" then "深度存储" else "普通存储") ++
    Bytes.ofString "</span>" ++
    Bytes.ofString "<span>" ++ formatSize file.fsize_ ++ Bytes.ofString "</span>" ++
    Bytes.ofString "<span>" ++ timetoStr zone file.mtime_ ++ Bytes.ofString "</span>" ++
    Bytes.ofString "</div>" ++
    Bytes.ofString "<button onclick=\"window.location='" ++ file.url_ ++
    Bytes.ofString "'\">⬇️ 下载</button>" ++
    Bytes.ofString "</div>"

def generateModernFileList (zone : TimeZone) (files : List StorageInfo) : Bytes :=
  Bytes.ofString "<div class='file-list'><h3>已上传文件</h3>" ++ files.flatMap (fileItem zone) ++
    Bytes.ofString "</div>"

/-! ## The page -/

/-- What the server reads of its settings, and the contents of `index.html`. -/
structure PageSettings where
  serverIp : Bytes
  serverPort : Int
  templateContent : Bytes
  zone : TimeZone

def fileListMark : Bytes := Bytes.ofString "\x7b\x7bFILE_LIST\x7d\x7d"

def backendUrlMark : Bytes := Bytes.ofString "\x7b\x7bBACKEND_URL\x7d\x7d"

/-- The address that the page is to use. -/
def backendUrl (serverIp : Bytes) (serverPort : Int) : Bytes :=
  Bytes.ofString "http://" ++ serverIp ++ Bytes.ofString ":" ++
    Bytes.ofString (toString serverPort)

/-- The page that `ListShow` makes of the template for some files. -/
def listPage (settings : PageSettings) (files : List StorageInfo) : Bytes :=
  let templateContent := Bytes.regexReplace fileListMark
    (generateModernFileList settings.zone files) settings.templateContent
  Bytes.regexReplace backendUrlMark (backendUrl settings.serverIp settings.serverPort)
    templateContent

namespace Service

/-- `ListShow`. -/
def listShow (settings : PageSettings) (order : HashOrder) (s : Server) : Outcome where
  server := s
  replies :=
    [{ plainReply 200 with body := listPage settings (DataManager.getAll s.table order) }]
  exit := .returned
  opened := none

/-! ## GenHandler -/

/-- What `GenHandler` logs of a decoded path, which `vasprintf` copies up to a NUL. -/
def genHandlerInfo (path : Bytes) : Bytes := Bytes.ofString "get req, uri: " ++ Bytes.cstr path

/-- What the handlers meet, of which one is chosen. -/
structure GenIo where
  upload : UploadIo
  download : DownloadIo
  order : HashOrder

/-- `GenHandler`. -/
def genHandler (cfg : Config) (z : Zstd) (lib : JsonCpp) (settings : PageSettings) (io : GenIo)
    (s : Server) (req : Request) : Outcome :=
  match urlDecode req.path with
  | none => { server := s, replies := [], exit := .aborted, opened := none }
  | some path =>
    match route path with
    | .download => download cfg z io.download s req
    | .upload => upload cfg z lib io.upload s req
    | .listShow => listShow settings io.order s
    | .notFound =>
      { server := s, replies := [reply 404 "Not Found"], exit := .returned, opened := none }

end Service

end Storage
