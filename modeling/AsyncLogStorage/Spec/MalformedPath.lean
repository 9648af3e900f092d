import AsyncLogStorage.Native.ListPage
import AsyncLogStorage.Spec.Download
import AsyncLogStorage.Spec.UrlDecode

/-!
# Malformed request paths

`UrlDecode` is not told that a path is malformed: it ends the process, or makes some byte of what
follows the `%`. So `GenHandler` cannot answer such a request with an error.

## Key results

- `handlesPath_iff`: the paths that are handled as they should be are those that are not malformed
-/

namespace Storage

namespace Service

/-- No assertion fails in the two calls of `UrlDecode`, and a malformed path is not decoded but
    answered with an error status. -/
def HandlesPath (cfg : Config) (z : Zstd) (lib : JsonCpp) (settings : PageSettings) (io : GenIo)
    (s : Server) (req : Request) : Prop :=
  (genHandler cfg z lib settings io s req).exit ≠ .aborted ∧
    (download cfg z io.download s req).exit ≠ .aborted ∧
    (Malformed req.path → urlDecode req.path = none ∧
      ∃ r ∈ (genHandler cfg z lib settings io s req).replies, 400 ≤ r.code)

variable {cfg : Config} {z : Zstd} {lib : JsonCpp} {settings : PageSettings} {s : Server}
  {req : Request}

theorem upload_exit_ne_aborted (io : UploadIo) : (upload cfg z lib io s req).exit ≠ .aborted := by
  have hrejected : ∀ (s : Server) (rejection : Rejection),
      (rejection.outcome s).exit ≠ .aborted := by
    intro s rejection
    cases rejection <;> simp [Rejection.outcome]
  have hrecorded : ∀ fs table t, (recordUpload cfg lib fs table t io).exit ≠ .aborted := by
    intro fs table t
    simp only [recordUpload]
    split <;> simp
  unfold upload
  split
  · exact hrejected s _
  · split
    · exact hrejected s .threw
    · split
      · exact hrejected _ .threw
      · split
        · simp
        · exact hrecorded _ _ _

/-- `Download` fails an assertion only where its path is not decoded. -/
theorem download_exit_ne_aborted {path : Bytes} (hpath : urlDecode req.path = some path)
    (io : DownloadIo) : (download cfg z io s req).exit ≠ .aborted := by
  have hsend : ∀ fs table info downloadPath,
      (sendDownload fs table info downloadPath req io).exit ≠ .aborted := by
    intro fs table info downloadPath
    simp only [sendDownload]
    split
    · simp
    · split <;> simp
  unfold download
  simp only [hpath]
  split
  · simp
  · split
    · simp
    · exact hsend _ _ _ _

/-- So does `GenHandler`. -/
theorem genHandler_exit_ne_aborted {path : Bytes} (hpath : urlDecode req.path = some path)
    (io : GenIo) : (genHandler cfg z lib settings io s req).exit ≠ .aborted := by
  unfold genHandler
  simp only [hpath]
  split
  · exact download_exit_ne_aborted hpath io.download
  · exact upload_exit_ne_aborted io.upload
  · simp [listShow]
  · simp

theorem genHandler_exit_of_none (hpath : urlDecode req.path = none) (io : GenIo) :
    (genHandler cfg z lib settings io s req).exit = .aborted := by
  simp only [genHandler, hpath]

/-- A request path is handled as it should be exactly where it is not malformed. -/
theorem handlesPath_iff (cfg : Config) (z : Zstd) (lib : JsonCpp) (settings : PageSettings)
    (io : GenIo) (s : Server) (req : Request) :
    HandlesPath cfg z lib settings io s req ↔ ¬Malformed req.path := by
  constructor
  · rintro ⟨hgen, -, hreject⟩ hmalformed
    -- what is not decoded fails an assertion
    exact hgen (genHandler_exit_of_none (hreject hmalformed).1 io)
  · intro hwell
    obtain ⟨path, hencodes⟩ := not_malformed_iff.mp hwell
    have hpath := urlDecode_of_encodes hencodes
    exact ⟨genHandler_exit_ne_aborted hpath io, download_exit_ne_aborted hpath io.download,
      fun hmalformed => absurd hmalformed hwell⟩

/-- The settings of a server at `127.0.0.1` with an empty template. -/
def emptyPage : PageSettings where
  serverIp := Bytes.ofString "127.0.0.1"
  serverPort := 8081
  templateContent := []
  zone := default

/-- `GET /%zz`, say. -/
def pathRequest (path : String) : Request where
  path := Bytes.ofString path
  body := none
  fileName := none
  storageType := none
  ifRange := none

def smallGenIo : GenIo where
  upload := smallIo 2
  download := wholeDownload
  order := .held

/-- `/%` fails an assertion, and `/%zz` is decoded to `/S`. -/
theorem genHandler_malformed :
    (genHandler Config.shipped storedZstd silentJson emptyPage smallGenIo ⟨∅, .empty⟩
      (pathRequest "/%")).exit = .aborted ∧
    urlDecode (pathRequest "/%zz").path = some (Bytes.ofString "/S") ∧
    ¬∀ req, HandlesPath Config.shipped storedZstd silentJson emptyPage smallGenIo ⟨∅, .empty⟩
      req := by
  have habort : (genHandler Config.shipped storedZstd silentJson emptyPage smallGenIo ⟨∅, .empty⟩
      (pathRequest "/%")).exit = .aborted := genHandler_exit_of_none (by decide) smallGenIo
  exact ⟨habort, by decide, fun h => (h (pathRequest "/%")).1 habort⟩

end Service

end Storage
