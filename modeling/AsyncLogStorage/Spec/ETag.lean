import AsyncLogStorage.ForStd.Transition
import AsyncLogStorage.Spec.DownloadFaithful

/-!
# ETags and replaced files

The ETag of a file is made of its name, its size and the field `mtime_` of its record, into
which `NewStorageInfo` puts the time of the last access. Writing a file that exists sets the
time of its modification only, so replacing it by one of the same size leaves the ETag, unless
it was read in between and the access was noted.

## Key results

- `getETag_inj`: what an ETag determines
- `download_of_etag`: the reply that carries an ETag
- `run_leaves`: no request but an upload of the name touches its record
- `etag_tracks_iff`: when the ETag of a replaced file is a new one
-/

namespace Storage

open Service

/-! ## Histories -/

/-- Reading a file changes its `st_atime` at most. -/
def FileSystem.noteRead (fs : FileSystem) (path : Bytes) (time : Int) : FileSystem :=
  match FileUtil.fileAt fs path with
  | some f => fs.insert (resolve path) (.file { f with atime := time })
  | none => fs

inductive HistoryEvent where
  | request (e : Event)
  /-- The file at the path is read, by a handler or by somebody else, and the time noted. -/
  | read (path : Bytes) (time : Int)

/-- Requests one after the other, and the reads of files that they and others make. A request
    that ends in an exception or a failed assertion ends the server. -/
def history (cfg : Config) (z : Zstd) (lib : JsonCpp) : Transition Server HistoryEvent where
  init _ := True
  step s
    | .request e =>
      let out := handle cfg z lib s e
      match out.exit with
      | .returned => some out.server
      | _ => none
    | .read path time => some { s with fs := s.fs.noteRead path time }

/-- The event is no accepted upload of a file of that name. -/
def Leaves (cfg : Config) (z : Zstd) (name : Bytes) (s : Server) : HistoryEvent → Prop
  | .request (.upload io req) => ∀ t fs, Accepted cfg z io s req t fs →
      FileUtil.fileName t.path ≠ name
  | _ => True

/-- An upload that is accepted. -/
structure AcceptedUpload (cfg : Config) (z : Zstd) where
  server : Server
  io : UploadIo
  req : Request
  target : UploadTarget
  made : FileSystem
  accepted : Accepted cfg z io server req target made

namespace AcceptedUpload

variable {cfg : Config} {z : Zstd} (u : AcceptedUpload cfg z)

/-- The name under which the file is downloaded. -/
def name : Bytes := FileUtil.fileName u.target.path

/-- The second in which the file is written. -/
def second : Int := u.io.store.time

/-- The size of the file that is written. -/
def size : Nat := ((storedBytes z u.target).take u.io.store.written).length

/-- The `st_atime` that `stat` finds after the write: that of the file before it, or the second
    of the write if there was no file. -/
def statAtime : Int :=
  if u.io.stat.accessOk then u.server.fs.atimeAfter (resolve u.target.path) u.second else -1

/-- The `st_size` that `stat` finds. -/
def statSize : Int := if u.io.stat.sizeOk then u.size else -1

def after (lib : JsonCpp) : Server := (upload cfg z lib u.io u.server u.req).server

end AcceptedUpload

/-- A download of the name whose reply carries an ETag. -/
structure Report (cfg : Config) (z : Zstd) (name : Bytes) where
  server : Server
  io : DownloadIo
  req : Request
  etag : Bytes
  path : urlDecode req.path = some (cfg.downloadPrefix ++ name)
  reported : downloadETag cfg z io server req = some etag

/-- A history in which a file is uploaded, downloaded, uploaded again under the same name and
    downloaded again. Anything may happen between the first download and the second upload, and
    anything but an upload of the name between an upload and its download. -/
structure Replacement (cfg : Config) (z : Zstd) (lib : JsonCpp) where
  earlier : AcceptedUpload cfg z
  earlierReport : Report cfg z earlier.name
  later : AcceptedUpload cfg z
  laterReport : Report cfg z earlier.name
  sameName : later.name = earlier.name
  toEarlier : List HistoryEvent
  earlierLeft :
    (history cfg z lib).AllSteps (Leaves cfg z earlier.name) (earlier.after lib) toEarlier
  earlierRun : (history cfg z lib).run (earlier.after lib) toEarlier = some earlierReport.server
  between : List HistoryEvent
  betweenRun : (history cfg z lib).run earlierReport.server between = some later.server
  toLater : List HistoryEvent
  laterLeft : (history cfg z lib).AllSteps (Leaves cfg z earlier.name) (later.after lib) toLater
  laterRun : (history cfg z lib).run (later.after lib) toLater = some laterReport.server

namespace Replacement

variable {cfg : Config} {z : Zstd} {lib : JsonCpp} (h : Replacement cfg z lib)

/-- The two uploads wrote the file in different seconds or with different sizes. -/
def Modified : Prop :=
  h.earlier.second ≠ h.later.second ∨ h.earlier.size ≠ h.later.size

/-- The later request with the earlier ETag as `If-Range`. -/
def resumed : Request := { h.laterReport.req with ifRange := some h.earlierReport.etag }

/-- The later ETag is another one, and the earlier one is not accepted as `If-Range`. -/
def NewETag : Prop :=
  h.laterReport.etag ≠ h.earlierReport.etag ∧
    ∀ r ∈ (download cfg z h.laterReport.io h.laterReport.server h.resumed).replies, r.code ≠ 206

end Replacement

/-! ## What an ETag says -/

/-- An ETag without a NUL in its name is sent whole. -/
theorem cstr_getETag {info : StorageInfo} (h : 0 ∉ FileUtil.fileName info.storage_path_) :
    (getETag info).cstr = getETag info := by
  rw [Bytes.cstr_eq_self]
  intro hmem
  simp only [getETag, List.mem_append] at hmem
  obtain (((hmem | hmem) | hmem) | hmem) | hmem := hmem
  · exact h hmem
  · exact absurd hmem (by decide)
  · exact absurd (Bytes.isDigit_of_mem_nat hmem).1 (by decide)
  · exact absurd hmem (by decide)
  · exact Bytes.nul_not_mem_int _ hmem

/-- Of any other one only the start of its name is sent. -/
theorem cstr_getETag_of_mem {info : StorageInfo} (h : 0 ∈ FileUtil.fileName info.storage_path_) :
    (getETag info).cstr = (FileUtil.fileName info.storage_path_).cstr := by
  simp only [getETag, List.append_assoc]
  exact Bytes.cstr_append_of_mem _ h

/-- For files of one name the ETag determines the size and the field `mtime_`. -/
theorem getETag_inj {info info' : StorageInfo}
    (hname : FileUtil.fileName info.storage_path_ = FileUtil.fileName info'.storage_path_) :
    getETag info = getETag info' ↔ info.fsize_ = info'.fsize_ ∧ info.mtime_ = info'.mtime_ := by
  have hminus : Bytes.ofString "-" = [45] := by decide
  simp only [getETag, hname, hminus, List.append_assoc, List.append_cancel_left_eq,
    List.nil_append, List.cons_append, List.cons.injEq, true_and]
  rw [List.append_cons_inj_left (Bytes.minus_not_mem_nat _) (Bytes.minus_not_mem_nat _),
    Bytes.ofString_nat_inj, Bytes.ofString_int_inj]

section
variable {cfg : Config} {z : Zstd} {lib : JsonCpp} {io : DownloadIo} {s : Server} {req : Request}
  {etag url : Bytes}

theorem downloadETag_eq_some : downloadETag cfg z io s req = some etag ↔
    ∃ url fs target node, urlDecode req.path = some url ∧
      prepareDownload cfg z s.fs (downloadInfo io s url) io = (fs, some target) ∧
      io.existsThrows = false ∧ fs.find target = some node ∧ io.opens = true ∧
      etag = (getETag (downloadInfo io s url)).cstr := by
  unfold downloadETag
  cases hpath : urlDecode req.path with
  | none => simp
  | some url =>
    simp only
    rw [← downloadInfo]
    constructor
    · intro h
      split at h
      · cases h
      · rename_i fs target hprepare
        obtain ⟨hsent, hetag⟩ := Option.ite_none_right_eq_some.mp h
        simp only [Bool.and_eq_true, Bool.not_eq_true'] at hsent
        obtain ⟨⟨hexists, hfind⟩, hopens⟩ := hsent
        obtain ⟨node, hnode⟩ := Option.isSome_iff_exists.mp hfind
        exact ⟨url, fs, target, node, rfl, hprepare, hexists, hnode, hopens,
          (Option.some.inj hetag).symm⟩
    · rintro ⟨url', fs, target, node, hurl, hprepare, hexists, hnode, hopens, rfl⟩
      cases hurl
      simp [hprepare, hexists, hnode, hopens]

/-- The reply that carries an ETag sends the file, with 206 if `If-Range` is the whole ETag. -/
theorem download_of_etag (hpath : urlDecode req.path = some url)
    (h : downloadETag cfg z io s req = some etag) :
    ∃ r, (download cfg z io s req).replies = [r] ∧ (r.code = 206 ↔
      req.ifRange = some (getETag (downloadInfo io s url))) := by
  obtain ⟨url', fs, target, node, hpath', hprepare, hexists, hfind, hopens, -⟩ :=
    downloadETag_eq_some.mp h
  rw [hpath] at hpath'
  cases hpath'
  rw [download_eq_sendDownload hpath hprepare hexists]
  simp only [sendDownload, hfind, hopens, Bool.not_true, Bool.false_eq_true, ↓reduceIte,
    List.cons.injEq, and_true, exists_eq_left']
  split
  · rename_i hrange
    simpa [reply] using hrange
  · rename_i hrange
    simpa [reply] using hrange

/-! ## Histories of one name -/

/-- What leaves the name leaves its record. -/
theorem step_leaves {s' : Server} {name : Bytes} {e : HistoryEvent}
    (hleaves : Leaves cfg z name s e) (hstep : (history cfg z lib).step s e = some s') :
    s'.table.lookup (cfg.downloadPrefix ++ name) = s.table.lookup (cfg.downloadPrefix ++ name) := by
  cases e with
  | read path time =>
    cases hstep
    rfl
  | request e =>
    simp only [history] at hstep
    split at hstep
    · rename_i hreturned
      cases hstep
      cases e with
      | download io req =>
        show (download cfg z io s req).server.table.lookup _ = _
        rw [(download_effect hreturned).1]
      | upload io req =>
        show (upload cfg z lib io s req).server.table.lookup _ = _
        by_cases haccept : ∃ t fs, Accepted cfg z io s req t fs
        · -- the record that is inserted stands under another url
          obtain ⟨t, fs, haccept⟩ := haccept
          rw [upload_of_accepted haccept]
          apply Table.lookup_insert_ne
          intro heq
          exact hleaves t fs haccept (List.append_cancel_left heq).symm
        · obtain ⟨-, hthrew⟩ | ⟨-, hsame, -⟩ :=
            upload_of_not_accepted lib fun t fs h => haccept ⟨t, fs, h⟩
          · have hreturned : (upload cfg z lib io s req).exit = .returned := hreturned
            rw [hthrew] at hreturned
            cases hreturned
          · rw [hsame]
    · cases hstep

theorem run_leaves {s' : Server} {name : Bytes} {es : List HistoryEvent}
    (hleaves : (history cfg z lib).AllSteps (Leaves cfg z name) s es)
    (hrun : (history cfg z lib).run s es = some s') :
    s'.table.lookup (cfg.downloadPrefix ++ name) = s.table.lookup (cfg.downloadPrefix ++ name) := by
  apply Transition.run_invariant (I := fun s' => s'.table.lookup (cfg.downloadPrefix ++ name) =
    s.table.lookup (cfg.downloadPrefix ++ name)) _ rfl hleaves hrun
  intro s₁ e s₂ hs hleaves hstep
  rw [step_leaves hleaves hstep, hs]

end

namespace AcceptedUpload

variable {cfg : Config} {z : Zstd}

/-- The record that an accepted upload leaves under its name. -/
def info (u : AcceptedUpload cfg z) : StorageInfo :=
  .recorded cfg u.target.path (storedFile z u.server.fs u.target u.io.store) u.io.stat

theorem lookup_after (u : AcceptedUpload cfg z) (lib : JsonCpp) :
    (u.after lib).table.lookup (cfg.downloadPrefix ++ u.name) = some u.info := by
  rw [after, upload_of_accepted u.accepted]
  exact Table.lookup_insert u.server.table u.info

/-- A download after an accepted upload reports the ETag of its record. -/
theorem etag_eq {lib : JsonCpp} (u : AcceptedUpload cfg z) {name : Bytes} (hname : u.name = name)
    (r : Report cfg z name) {es : List HistoryEvent}
    (hleaves : (history cfg z lib).AllSteps (Leaves cfg z name) (u.after lib) es)
    (hrun : (history cfg z lib).run (u.after lib) es = some r.server) :
    downloadInfo r.io r.server (cfg.downloadPrefix ++ name) = u.info ∧
      r.etag = (getETag u.info).cstr := by
  subst hname
  have hinfo : downloadInfo r.io r.server (cfg.downloadPrefix ++ u.name) = u.info := by
    apply downloadInfo_of_lookup
    rw [run_leaves hleaves hrun, u.lookup_after lib]
  obtain ⟨url, -, -, -, hpath, -, -, -, -, hetag⟩ := downloadETag_eq_some.mp r.reported
  rw [r.path] at hpath
  cases hpath
  rw [hinfo] at hetag
  exact ⟨hinfo, hetag⟩

/-- What the record says is what `stat` finds. -/
theorem getETag_info_inj (hz : z.Correct) {u v : AcceptedUpload cfg z} (hname : u.name = v.name) :
    getETag u.info = getETag v.info ↔ u.statSize = v.statSize ∧ u.statAtime = v.statAtime := by
  -- a size that can be stored is not changed by its type
  have hrange : ∀ w : AcceptedUpload cfg z, -1 ≤ w.statSize ∧ w.statSize < 9223372036854775808 := by
    intro w
    have hsize := storedBytes_length_le hz.compress_le w.accepted.target
    have hlt := FileUtil.stringMaxSize_lt
    unfold statSize size
    rw [List.length_take]
    split <;> omega
  have hu := hrange u
  have hv := hrange v
  have hfile : FileUtil.fileName u.info.storage_path_ = FileUtil.fileName v.info.storage_path_ :=
    hname
  rw [getETag_inj hfile]
  have hfsize : u.info.fsize_ = v.info.fsize_ ↔ u.statSize = v.statSize := by
    show FileUtil.toSizeT u.statSize = FileUtil.toSizeT v.statSize ↔ _
    unfold FileUtil.toSizeT SizeT.modulus
    omega
  rw [hfsize]
  exact Iff.rfl

end AcceptedUpload

/-- The ETag of a replaced file is a new one, and the old one is not accepted, exactly if the
    file was not modified, or its name has no NUL and `stat` finds another size or another time
    of access than before. -/
theorem etag_tracks_iff {cfg : Config} {z : Zstd} {lib : JsonCpp} (hz : z.Correct)
    (h : Replacement cfg z lib) :
    (h.Modified → h.NewETag) ↔
      (h.Modified → 0 ∉ h.earlier.name ∧
        (h.earlier.statSize ≠ h.later.statSize ∨ h.earlier.statAtime ≠ h.later.statAtime)) := by
  obtain ⟨-, hearlier⟩ := h.earlier.etag_eq rfl h.earlierReport h.earlierLeft h.earlierRun
  obtain ⟨hinfo, hlater⟩ := h.later.etag_eq h.sameName h.laterReport h.laterLeft h.laterRun
  have hinj := AcceptedUpload.getETag_info_inj hz h.sameName
  apply imp_congr_right
  intro _
  -- the request for the rest of the file gets the same reply as the later download
  have hpath : urlDecode h.resumed.path = some (cfg.downloadPrefix ++ h.earlier.name) :=
    h.laterReport.path
  have hreported : downloadETag cfg z h.laterReport.io h.laterReport.server h.resumed =
      some h.laterReport.etag := h.laterReport.reported
  obtain ⟨r, hreply, hcode⟩ := download_of_etag hpath hreported
  have hrange : h.resumed.ifRange = some h.earlierReport.etag := rfl
  rw [hinfo, hrange, Option.some.injEq] at hcode
  simp only [Replacement.NewETag, hreply, List.mem_singleton, forall_eq, ne_eq, hcode]
  rw [hearlier, hlater]
  have hname : FileUtil.fileName h.later.info.storage_path_ = h.earlier.name := h.sameName
  by_cases hnul : 0 ∈ h.earlier.name
  · -- both are cut short behind the same name
    rw [cstr_getETag_of_mem (hname ▸ hnul), hname,
      cstr_getETag_of_mem (show 0 ∈ FileUtil.fileName h.earlier.info.storage_path_ from hnul)]
    exact iff_of_false (fun hnew => hnew.1 rfl) fun hnew => hnew.1 hnul
  · rw [cstr_getETag (show 0 ∉ FileUtil.fileName h.later.info.storage_path_ from hname ▸ hnul),
      cstr_getETag (show 0 ∉ FileUtil.fileName h.earlier.info.storage_path_ from hnul),
      eq_comm (a := getETag h.earlier.info), hinj, and_self, not_and_or,
      eq_comm (a := h.later.statSize), eq_comm (a := h.later.statAtime)]
    exact (and_iff_right hnul).symm

/-! ## A small replacement -/

def firstUpload : AcceptedUpload Config.shipped storedZstd where
  server := ⟨∅, .empty⟩
  io := smallIo 2
  req := smallUpload
  target := smallTarget
  made := (FileUtil.createDirectory ∅ smallTarget.dir false).getD ∅
  accepted := ⟨uploadTarget_small 2, rfl, by decide, by decide, rfl⟩

/-- The server after the upload and, it may be, a read that was noted at second 150. -/
def readServer (noted : Bool) : Server :=
  if noted then
    { firstUpload.after silentJson with
      fs := (firstUpload.after silentJson).fs.noteRead smallTarget.path 150 }
  else
    firstUpload.after silentJson

/-- The same two bytes are uploaded again at second 200. -/
def secondUpload (noted : Bool) : AcceptedUpload Config.shipped storedZstd where
  server := readServer noted
  io := { smallIo 2 with store := { opens := true, written := 2, time := 200 } }
  req := smallUpload
  target := smallTarget
  made := (FileUtil.createDirectory (readServer noted).fs smallTarget.dir false).getD ∅
  accepted := by
    cases noted with
    | false => exact ⟨uploadTarget_small 2, rfl, by decide, by decide, rfl⟩
    | true => exact ⟨uploadTarget_small 2, rfl, by decide, by decide, rfl⟩

def smallReplacement (noted : Bool) : Replacement Config.shipped storedZstd silentJson where
  earlier := firstUpload
  earlierReport :=
    { server := firstUpload.after silentJson
      io := wholeDownload
      req := smallDownload
      etag := Bytes.ofString "a-2-100"
      path := by decide
      reported := by decide }
  later := secondUpload noted
  laterReport :=
    { server := (secondUpload noted).after silentJson
      io := wholeDownload
      req := smallDownload
      etag := if noted then Bytes.ofString "a-2-150" else Bytes.ofString "a-2-100"
      path := by decide
      reported := by
        cases noted with
        | false => decide
        | true => decide }
  sameName := rfl
  toEarlier := []
  earlierLeft := trivial
  earlierRun := rfl
  between := if noted then [.read smallTarget.path 150] else []
  betweenRun := by
    cases noted with
    | false => rfl
    | true => rfl
  toLater := []
  laterLeft := trivial
  laterRun := rfl

/-- Where the read was noted, the ETag is a new one. -/
theorem etag_tracks_small : (smallReplacement true).NewETag :=
  (etag_tracks_iff storedZstd_correct (smallReplacement true)).mpr
    (fun _ => ⟨by decide, .inr (by decide)⟩) (.inl (by decide))

/-- Where it was not, the ETag of the file that was replaced 100 seconds later is the old one. -/
theorem etag_not_tracks :
    ¬∀ (cfg : Config) (z : Zstd) (lib : JsonCpp) (h : Replacement cfg z lib), z.Correct →
      h.Modified → h.NewETag := by
  intro h
  have hnew := h _ _ _ (smallReplacement false) storedZstd_correct (.inl (by decide))
  exact hnew.1 rfl

end Storage
