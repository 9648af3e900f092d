import AsyncLogStorage.Native.DataManagerCrash
import AsyncLogStorage.Native.ServiceProcess
import AsyncLogStorage.Spec.RequestEffects
import AsyncLogStorage.Spec.Restart
import AsyncLogStorage.Spec.RoundTrip

/-!
# The service as a durable store

What clients are told is a map from names to contents: an upload that is answered with `200`
sets the content of its name. As long as the writes of uploads are whole and their records can
be loaded again, that map is what the service serves and lists, over every history of uploads,
downloads, exceptions and restarts.

## Key results

- `Stored`: what the files and the table have of a history
- `step_stored`: every step keeps it
- `download_durable`, `getAll_durable`, `restart_durable`: what clients see of it
-/

namespace Storage

open Path (Place)
open Service

/-! ## Histories -/

/-- The process, and the uploads that it has answered with `200`, the latest first. -/
def histories (z : Zstd) (lib : JsonCpp) : Transition (Process × List (Bytes × Bytes)) Life where
  -- before the first start, with no storage file
  init state := state.1.table = none ∧ state.2 = [] ∧ Openable state.1.fs ∧
    FileUtil.fileAt state.1.fs Config.shipped.storageInfo = none
  step state a := (state.1.step Config.shipped z lib a).map fun p =>
    (p, (state.1.acknowledged Config.shipped z lib a).toList ++ state.2)

/-- Nothing keeps `InitLoad` from reading the storage file to its end. -/
structure DataManager.LoadOutcome.Whole (io : DataManager.LoadOutcome) : Prop where
  exist : io.existsThrows = false
  stat : io.sizeOk = true
  opens : io.read.opens = true
  delivered : FileUtil.stringMaxSize ≤ io.read.delivered

/-- The record that an accepted upload makes. -/
def uploadInfo (z : Zstd) (fs : FileSystem) (io : UploadIo) (t : UploadTarget) : StorageInfo :=
  .recorded Config.shipped t.path (storedFile z fs t io.store) io.stat

/-- JsonCpp writes the document of the table and parses it back, and the storage file takes all
    of the text. -/
structure TakesTable (lib : JsonCpp) (table : Table) (io : UploadIo) (text : Bytes) : Prop where
  write : lib.write (DataManager.root (DataManager.getAll table io.order)) = some text
  parse : lib.parse text = (true, DataManager.root (DataManager.getAll table io.order))
  size : text.length ≤ FileUtil.stringMaxSize
  opens : io.persist.opens = true
  written : text.length ≤ io.persist.written

/-- An upload of a page name, which does not mention `low_storage` where it is packed, writes all
    of its bytes and then a storage file from which its record can be loaded. -/
structure Lasting (z : Zstd) (lib : JsonCpp) (s : Server) (io : UploadIo) (t : UploadTarget) :
    Prop where
  name : PageName t.fileName
  place : t.dir = Config.shipped.lowStorageDir ∨
    t.fileName.contains (Bytes.ofString "low_storage") = false
  stat : io.stat.existsThrows = false
  written : (storedBytes z t).length ≤ io.store.written
  typed : (uploadInfo z s.fs io t).WellTyped
  restorable : (uploadInfo z s.fs io t).Restorable
  persisted : ∃ text, TakesTable lib (s.table.insert (uploadInfo z s.fs io t)) io text

/-- The uploads last and the restarts read the whole storage file; nothing is asked of the
    downloads. -/
def Lasts (z : Zstd) (lib : JsonCpp) (state : Process × List (Bytes × Bytes)) : Life → Prop
  | .request (.upload io req) => ∀ table t, state.1.table = some table →
      uploadTarget Config.shipped io req = .ok t → Lasting z lib ⟨state.1.fs, table⟩ io t
  | .request (.download _ _) => True
  | .restart io => io.Whole

/-! ## The invariant -/

/-- The stored bytes give the content back. -/
def Gives (z : Zstd) (dir stored content : Bytes) : Prop :=
  if dir = Config.shipped.lowStorageDir then stored = content
  else ZstdWrapper.unpack z stored = some content

/-- What the files and the table have of the uploads that were answered with `200`. -/
structure Stored (z : Zstd) (lib : JsonCpp) (s : Server) (log : List (Bytes × Bytes)) : Prop where
  coherent : Coherent s.table
  /-- There is a record for each name that was uploaded, and for no other. -/
  names : ∀ name, (s.table.lookup (Config.shipped.downloadPrefix ++ name)).isSome =
    (log.lookup name).isSome
  /-- The latest content of the name is kept. -/
  held : ∀ name content, log.lookup name = some content → ∃ dir stored, PageDir dir ∧
    PageName name ∧ Held name dir stored s ∧ stored.length ≤ FileUtil.stringMaxSize ∧
    Gives z dir stored content
  openable : Openable s.fs
  records : ∀ e ∈ s.table.records, e.WellTyped ∧ e.Restorable
  /-- The storage file has the table. -/
  loads : ∀ io : DataManager.LoadOutcome, io.Whole →
    ∃ ok after, DataManager.initLoad Config.shipped lib s.fs .empty io = some (ok, after) ∧
      ∀ url, after.lookup url = s.table.lookup url

section
variable {z : Zstd} {lib : JsonCpp} {s : Server} {log : List (Bytes × Bytes)}

/-- A record stands under the url of one name only. -/
theorem Coherent.onlyUrl {table : Table} (h : Coherent table) (name : Bytes) :
    OnlyUrl name table := by
  intro url info hlookup hlast
  obtain ⟨dir, name', hdir, hname', hpath, hurl⟩ := h url info hlookup
  rw [hpath, lastName_page hdir hname'] at hlast
  rw [hurl, hlast]

/-- The invariant depends on what the table leads to only. -/
theorem Stored.congr (h : Stored z lib s log) {table : Table}
    (hsame : ∀ url, table.lookup url = s.table.lookup url) :
    Stored z lib ⟨s.fs, table⟩ log := by
  constructor
  · intro url info hlookup
    rw [hsame] at hlookup
    exact h.coherent url info hlookup
  · intro name
    rw [hsame]
    exact h.names name
  · intro name content hcontent
    obtain ⟨dir, stored, hdir, hname, hheld, hrest⟩ := h.held name content hcontent
    refine ⟨dir, stored, hdir, hname, ⟨?_, hheld.file, hheld.openable⟩, hrest⟩
    obtain ⟨info, hlookup, hpath⟩ := hheld.record
    exact ⟨info, by rw [hsame, hlookup], hpath⟩
  · exact h.openable
  · intro e he
    rw [Table.mem_records, hsame] at he
    exact h.records e (Table.mem_records.mpr he)
  · intro io hio
    obtain ⟨ok, after, hload, hafter⟩ := h.loads io hio
    exact ⟨ok, after, hload, fun url => (hafter url).trans (hsame url).symm⟩

/-- Steps that leave the table, the storage file and what is held keep the invariant. -/
theorem Stored.frame (h : Stored z lib s log) {fs : FileSystem} (hopenable : Openable fs)
    (hheld : ∀ name dir stored, PageName name → PageDir dir → Held name dir stored s →
      Held name dir stored ⟨fs, s.table⟩)
    (hstorage : FileUtil.fileAt fs Config.shipped.storageInfo =
      FileUtil.fileAt s.fs Config.shipped.storageInfo) :
    Stored z lib ⟨fs, s.table⟩ log := by
  refine ⟨h.coherent, h.names, ?_, hopenable, h.records, ?_⟩
  · intro name content hcontent
    obtain ⟨dir, stored, hdir, hname, hkept, hrest⟩ := h.held name content hcontent
    exact ⟨dir, stored, hdir, hname, hheld name dir stored hname hdir hkept, hrest⟩
  · intro io hio
    have hfind : fs.find Config.shipped.storageInfo = s.fs.find Config.shipped.storageInfo := by
      rw [find_of_creatable hopenable.storage, hstorage, ← find_of_creatable h.openable.storage]
    rw [initLoad_congr hfind]
    exact h.loads io hio

/-! ## One step -/

/-- A download, however it ends. -/
theorem Stored.download (h : Stored z lib s log) (io : DownloadIo) (req : Request) :
    Stored z lib (Service.download Config.shipped z io s req).server log := by
  obtain hsame | ⟨io', hreturned, hserver⟩ := download_returned Config.shipped z io s req
  · rwa [hsame]
  · have htable := (download_effect hreturned).1
    have hframe := h.frame (h.openable.download h.coherent hreturned)
      (fun name dir stored hname hdir hheld => by
        have hkept := held_download (h.coherent.onlyUrl name) hname hdir hheld hreturned
        rw [← htable]
        exact hkept)
      (fileAt_storage_download h.coherent hreturned)
    rw [← hserver]
    rwa [← htable] at hframe

/-- An upload that was not accepted, however it ends. -/
theorem Stored.rejected (h : Stored z lib s log) {io : UploadIo} {req : Request}
    (hstat : io.stat.existsThrows = false)
    (hnot : ∀ t fs, ¬Accepted Config.shipped z io s req t fs) :
    Stored z lib (Service.upload Config.shipped z lib io s req).server log := by
  obtain ⟨-, htable, hfs⟩ := upload_files_of_not_accepted lib hstat hnot
  have hserver : (Service.upload Config.shipped z lib io s req).server =
      ⟨(Service.upload Config.shipped z lib io s req).server.fs, s.table⟩ := by
    rw [← htable]
  rw [hserver]
  obtain hsame | ⟨t, htarget, hmade⟩ := hfs
  · rwa [hsame]
  · have hdir' := pageDir_of_target htarget
    apply h.frame (h.openable.createDirectory hdir' hmade)
    · intro name dir stored hname hdir hheld
      obtain ⟨f, hf, hcontent⟩ := hheld.file
      exact ⟨hheld.record, ⟨f, (keeps_createDirectory hdir hname hdir' hmade).file f hf, hcontent⟩,
        (keeps_createDirectory (.inl rfl) hname hdir' hmade).openable hheld.openable⟩
    · exact fileAt_createDirectory hmade

/-- What an upload that lasts stores gives its content back. -/
theorem gives_of_accepted (hz : z.Correct) {io : UploadIo} {req : Request} {t : UploadTarget}
    {fs : FileSystem} (haccept : Accepted Config.shipped z io s req t fs)
    (hplace : t.dir = Config.shipped.lowStorageDir ∨
      t.fileName.contains (Bytes.ofString "low_storage") = false) :
    Gives z t.dir (storedBytes z t) t.content := by
  have hdir := pageDir_of_target haccept.target
  obtain ⟨-, -, hsize, -⟩ := uploadTarget_ok.mp haccept.target
  rw [storedBytes_page hdir]
  by_cases hlow : t.dir = Config.shipped.lowStorageDir
  · simp only [Gives, hlow, true_or, ↓reduceIte]
  · have hmention := hplace.resolve_left hlow
    have hneither : ¬(t.dir = Config.shipped.lowStorageDir ∨
        t.fileName.contains (Bytes.ofString "low_storage") = true) := by
      simp [hlow, hmention]
    -- the open succeeded, so there was a frame to write
    have hpacked : ZstdWrapper.pack z t.content ≠ [] := by
      obtain ⟨hfound | hpacked, -⟩ := storeUpload_fst.mp haccept.store
      · exact absurd ((contains_lowStorage hdir).mp hfound) hneither
      · exact hpacked
    rw [if_neg hneither, Gives, if_neg hlow]
    exact ZstdWrapper.unpack_pack hz hsize hpacked

/-- The storage file that an accepted upload writes has its table. -/
theorem loads_of_accepted (h : Stored z lib s log) {io : UploadIo} {req : Request}
    {t : UploadTarget} {fs : FileSystem} (haccept : Accepted Config.shipped z io s req t fs)
    (hlasts : Lasting z lib s io t)
    (hrecords : ∀ e ∈ (s.table.insert (uploadInfo z s.fs io t)).records,
      e.WellTyped ∧ e.Restorable) {load : DataManager.LoadOutcome} (hload : load.Whole) :
    ∃ ok after, DataManager.initLoad Config.shipped lib
        (upload Config.shipped z lib io s req).server.fs .empty load = some (ok, after) ∧
      ∀ url, after.lookup url =
        (upload Config.shipped z lib io s req).server.table.lookup url := by
  obtain ⟨text, htext⟩ := hlasts.persisted
  have hdir := pageDir_of_target haccept.target
  have hopenable : Openable (writtenFs z fs t io.store) :=
    (h.openable.createDirectory hdir haccept.directory).store hdir hlasts.name _ _
  have hsucceeds : RestartIo.Succeeds Config.shipped lib (writtenFs z fs t io.store)
      (s.table.insert (uploadInfo z s.fs io t))
      { order := io.order, write := io.persist, load := load } text :=
    ⟨htext.write, htext.parse, htext.size, hopenable.storage, htext.opens, htext.written,
      hload.exist, hload.stat, hload.opens, htext.size.trans hload.delivered⟩
  rw [upload_of_accepted haccept]
  exact (restart_restores_iff (fun e he => (hrecords e he).1) hsucceeds).mpr
    fun e he => (hrecords e he).2

/-- An accepted upload that lasts. -/
theorem Stored.accepted (h : Stored z lib s log) (hz : z.Correct) {io : UploadIo} {req : Request}
    {t : UploadTarget} {fs : FileSystem} (haccept : Accepted Config.shipped z io s req t fs)
    (hlasts : Lasting z lib s io t) :
    Stored z lib (Service.upload Config.shipped z lib io s req).server
      ((t.fileName, t.content) :: log) := by
  have hdir := pageDir_of_target haccept.target
  have htable : (Service.upload Config.shipped z lib io s req).server.table =
      s.table.insert (uploadInfo z s.fs io t) := by
    rw [upload_of_accepted haccept]
    rfl
  have hurl : (uploadInfo z s.fs io t).url_ = Config.shipped.downloadPrefix ++ t.fileName := by
    show _ ++ FileUtil.fileName (t.dir ++ t.fileName) = _
    rw [fileName_page hdir hlasts.name]
  have htarget : ∀ t', uploadTarget Config.shipped io req = .ok t' → t' = t := by
    intro t' htarget'
    rw [haccept.target] at htarget'
    cases htarget'
    rfl
  have hreturned : (Service.upload Config.shipped z lib io s req).exit = .returned := by
    rw [upload_of_accepted haccept]
  have hstep : (service z lib).step s (.upload io req) =
      some (Service.upload Config.shipped z lib io s req).server :=
    service_step.mpr ⟨hreturned, rfl⟩
  have hrecords : ∀ e ∈ (s.table.insert (uploadInfo z s.fs io t)).records,
      e.WellTyped ∧ e.Restorable := by
    intro e he
    rw [Table.mem_records] at he
    by_cases heq : e.url_ = (uploadInfo z s.fs io t).url_
    · rw [heq, Table.lookup_insert] at he
      cases he
      exact ⟨hlasts.typed, hlasts.restorable⟩
    · rw [Table.lookup_insert_ne s.table heq] at he
      exact h.records e (Table.mem_records.mpr he)
  refine ⟨?_, ?_, ?_, h.openable.upload lib hlasts.name haccept, ?_, ?_⟩
  · apply step_coherent h.coherent _ hstep
    intro t' htarget'
    rw [htarget t' htarget']
    exact ⟨hlasts.name.slash, hlasts.name.nul⟩
  · intro name
    rw [htable, List.lookup_cons]
    by_cases heq : name = t.fileName
    · rw [heq, ← hurl, Table.lookup_insert, beq_self_eq_true]
      rfl
    · have hother : Config.shipped.downloadPrefix ++ name ≠ (uploadInfo z s.fs io t).url_ := by
        rw [hurl]
        exact fun hsame => heq (List.append_cancel_left hsame)
      rw [Table.lookup_insert_ne s.table hother, beq_false_of_ne heq]
      exact h.names name
  · intro name content hcontent
    rw [List.lookup_cons] at hcontent
    by_cases heq : name = t.fileName
    · -- the upload itself
      subst heq
      rw [beq_self_eq_true] at hcontent
      cases hcontent
      have hsize := storedBytes_length_le hz.compress_le haccept.target
      exact ⟨t.dir, storedBytes z t, hdir, hlasts.name,
        held_of_upload hlasts.name (h.openable.page _ hlasts.name) haccept hlasts.written, hsize,
        gives_of_accepted hz haccept hlasts.place⟩
    · -- the others are spared
      rw [beq_false_of_ne heq] at hcontent
      obtain ⟨dir, stored, hdir', hname, hheld, hrest⟩ := h.held name content hcontent
      have hspares : Spares name dir (.upload io req) := by
        apply spares_of_page hdir' hname
        · intro t' htarget'
          rw [htarget t' htarget']
          exact hlasts.name
        · rintro ⟨t', htarget', hsame⟩
          rw [htarget t' htarget'] at hsame
          exact heq hsame.symm
      exact ⟨dir, stored, hdir', hname,
        step_held hname hdir' (h.coherent.onlyUrl name) hheld hspares hstep, hrest⟩
  · rw [htable]
    exact hrecords
  · intro load hload
    exact loads_of_accepted h haccept hlasts hrecords hload

/-- An upload that lasts if it gets as far, however it ends. -/
theorem Stored.upload (h : Stored z lib s log) (hz : z.Correct) {io : UploadIo} {req : Request}
    (hlasts : ∀ t, uploadTarget Config.shipped io req = .ok t → Lasting z lib s io t) :
    Stored z lib (Service.upload Config.shipped z lib io s req).server
      ((Process.acknowledged Config.shipped z lib ⟨s.fs, some s.table⟩
        (.request (.upload io req))).toList ++ log) := by
  cases htarget : uploadTarget Config.shipped io req with
  | error rejection =>
    have hserver : (Service.upload Config.shipped z lib io s req).server = s := by
      simp only [Service.upload, htarget]
      cases rejection <;> rfl
    rw [hserver]
    simp only [Process.acknowledged, htarget]
    exact h
  | ok t =>
    have hlasts := hlasts t htarget
    simp only [Process.acknowledged, htarget]
    by_cases haccept : ∃ fs, Accepted Config.shipped z io s req t fs
    · obtain ⟨fs, haccept⟩ := haccept
      have hreply : (Service.upload Config.shipped z lib io s req).replies.any
          (·.code == 200) = true := by
        rw [upload_of_accepted haccept]
        rfl
      rw [if_pos hreply]
      exact h.accepted hz haccept hlasts
    · have hnot : ∀ t' fs, ¬Accepted Config.shipped z io s req t' fs := by
        intro t' fs haccept'
        have hsame := haccept'.target
        rw [htarget] at hsame
        cases hsame
        exact haccept ⟨fs, haccept'⟩
      have hreplies := (upload_files_of_not_accepted lib hlasts.stat hnot).1
      have hreply : ¬(Service.upload Config.shipped z lib io s req).replies.any
          (·.code == 200) = true := by
        simpa using hreplies
      rw [if_neg hreply]
      exact h.rejected hlasts.stat hnot

end

/-! ## Runs -/

/-- The files, with the table of the process or the one that it had, have the history. -/
def Intact (z : Zstd) (lib : JsonCpp) (state : Process × List (Bytes × Bytes)) : Prop :=
  ∃ table, Stored z lib ⟨state.1.fs, table⟩ state.2 ∧
    (state.1.table = none ∨ state.1.table = some table)

theorem Process.after_cases (out : Outcome) : (after out).fs = out.server.fs ∧
    ((after out).table = none ∨ (after out).table = some out.server.table) := by
  unfold after
  cases out.exit with
  | returned => exact ⟨rfl, .inr rfl⟩
  | threw => exact ⟨rfl, .inl rfl⟩
  | aborted => exact ⟨rfl, .inl rfl⟩

section
variable {z : Zstd} {lib : JsonCpp} {state state' : Process × List (Bytes × Bytes)}

/-- Every step that lasts keeps the history, be it one that ends the process. -/
theorem step_stored (hz : z.Correct) {a : Life} (h : Intact z lib state)
    (hlasts : Lasts z lib state a) (hstep : (histories z lib).step state a = some state') :
    Intact z lib state' := by
  obtain ⟨⟨fs, running⟩, log⟩ := state
  obtain ⟨table, hstored, hrunning⟩ := h
  obtain ⟨p, hp, rfl⟩ := Option.map_eq_some_iff.mp hstep
  cases a with
  | restart io =>
    obtain ⟨ok, after, hload, hsame⟩ := hstored.loads io hlasts
    simp only [Process.step, hload, Option.map_some, Option.some.injEq] at hp
    subst hp
    exact ⟨after, hstored.congr hsame, .inr rfl⟩
  | request e =>
    obtain ⟨given, hgiven, rfl⟩ := Option.map_eq_some_iff.mp hp
    cases hgiven
    -- the process runs, so the table is its own
    obtain hnone | hsome := hrunning
    · cases hnone
    cases hsome
    obtain ⟨hfs, htable⟩ := Process.after_cases (handle Config.shipped z lib ⟨fs, table⟩ e)
    refine ⟨(handle Config.shipped z lib ⟨fs, table⟩ e).server.table, ?_, htable⟩
    rw [hfs]
    cases e with
    | upload io req => exact hstored.upload hz fun t htarget => hlasts table t rfl htarget
    | download io req => exact hstored.download io req

theorem reachable_stored (hz : z.Correct)
    (hreach : (histories z lib).ReachableBy (Lasts z lib) state) : Intact z lib state := by
  apply hreach.invariant (I := Intact z lib)
  · rintro ⟨⟨fs, running⟩, log⟩ ⟨hrunning, hlog, hopenable, habsent⟩
    subst hlog
    refine ⟨.empty, ?_, .inl hrunning⟩
    have hfind : fs.find Config.shipped.storageInfo = none := by
      rw [find_of_creatable hopenable.storage, habsent]
      rfl
    refine ⟨coherent_empty, fun name => by simp, by simp, hopenable, ?_, ?_⟩
    · intro e he
      rw [Table.mem_records, Table.lookup_empty] at he
      cases he
    · intro io hio
      refine ⟨true, .empty, ?_, fun _ => rfl⟩
      simp only [DataManager.initLoad, FileUtil.fileExists, hio.exist, Bool.false_eq_true,
        ↓reduceIte, hfind, Option.isSome_none]
  · intro state a state' h hlasts hstep
    exact step_stored hz h hlasts hstep

end

/-! ## A small history -/

theorem openable_empty : Openable ∅ := by
  have hempty : ∀ path : Bytes, namesFile path = true → (resolve path).names ≠ [] →
      FileSystem.creatable ∅ path = true := by
    intro path hname hnames
    refine FileSystem.creatable_iff.mpr ⟨hname, ?_, ?_⟩
    · rw [← Bool.not_eq_true, FileSystem.isDirectory_iff]
      rintro (hnil | hdir | ⟨k, hk, -⟩)
      · exact hnames hnil
      · cases hdir
      · cases hk
    · exact List.any_eq_false.mpr fun k _ hfile => by cases hfile
  constructor
  · intro name hname
    have hlow : PageDir Config.shipped.lowStorageDir := .inl rfl
    obtain ⟨d, -, hd⟩ := names_page hlow hname
    apply hempty
    · rw [namesFile_append name hlow.slash hlow.nul, namesFile, Bytes.cstr_eq_self.mpr hname.nul,
        hname.components]
      rfl
    · rw [hd]
      exact List.cons_ne_nil _ _
  · exact hempty _ (by decide) (by decide)

theorem wholeLoad_whole : DataManager.LoadOutcome.Whole DataManager.wholeLoad :=
  ⟨rfl, rfl, rfl, Nat.le_refl _⟩

/-- The process starts, the file `a` is uploaded, and the process starts again. -/
def smallLife : List Life :=
  [.restart DataManager.wholeLoad, .request (.upload (smallIo 2) smallUpload),
    .restart DataManager.wholeLoad]

set_option maxRecDepth 2048 in
theorem lasting_small :
    Lasting storedZstd (smallJson 2 "2") ⟨∅, .empty⟩ (smallIo 2) smallTarget := by
  have hlen : (smallText [("a", "2")]).length ≤ 1000 := by decide
  have hmax : 1000 ≤ FileUtil.stringMaxSize :=
    Nat.le_trans (by decide) FileUtil.le_stringMaxSize
  have hinfo : uploadInfo storedZstd ∅ (smallIo 2) smallTarget = smallInfo "a" 2 := by decide
  refine ⟨⟨by decide, by decide, by decide, by decide, by decide⟩, .inl rfl, rfl, by decide, ?_, ?_,
    smallText [("a", "2")], ?_⟩
  · rw [hinfo]
    exact ⟨by decide, by decide, by decide⟩
  · rw [hinfo]
    exact ⟨by decide, by decide, by decide, by decide, by decide⟩
  · rw [hinfo]
    refine ⟨rfl, ?_, hlen.trans hmax, rfl, hlen⟩
    simp only [smallJson, JsonCpp.single, beq_self_eq_true]
    rfl

/-- The process runs after that history, with the one upload. -/
theorem reachable_small : ∃ p table, (histories storedZstd (smallJson 2 "2")).ReachableBy
    (Lasts storedZstd (smallJson 2 "2")) (p, [(smallTarget.fileName, smallTarget.content)]) ∧
    p.table = some table := by
  have hinit : (histories storedZstd (smallJson 2 "2")).init (⟨∅, none⟩, []) :=
    ⟨rfl, rfl, openable_empty, rfl⟩
  have hstart : (histories storedZstd (smallJson 2 "2")).step (⟨∅, none⟩, [])
      (.restart DataManager.wholeLoad) = some (⟨∅, some .empty⟩, []) := rfl
  have hsteps : (histories storedZstd (smallJson 2 "2")).AllSteps
      (Lasts storedZstd (smallJson 2 "2")) (⟨∅, none⟩, []) smallLife := by
    refine ⟨wholeLoad_whole, fun state₁ h₁ => ⟨?_, fun _ _ => ⟨wholeLoad_whole, ?_⟩⟩⟩
    · rw [hstart] at h₁
      cases h₁
      intro table t htable htarget
      rw [uploadTarget_small] at htarget
      cases htarget
      cases htable
      exact lasting_small
    · intro _ _
      trivial
  have hrun : ((histories storedZstd (smallJson 2 "2")).run (⟨∅, none⟩, []) smallLife).map
      (fun state => (state.2, state.1.table.isSome)) =
      some ([(smallTarget.fileName, smallTarget.content)], true) := by decide +kernel
  obtain ⟨⟨p, log⟩, hrun, hstate⟩ := Option.map_eq_some_iff.mp hrun
  obtain ⟨hlog, htable⟩ := Prod.mk.inj hstate
  obtain ⟨table, htable⟩ := Option.isSome_iff_exists.mp htable
  refine ⟨p, table, ⟨_, smallLife, hinit, hsteps, ?_⟩, htable⟩
  rw [hrun, ← hlog]

/-! ## What clients see -/

section
variable {z : Zstd} {s : Server} {req : Request} {io : DownloadIo} {url : Bytes}

/-- Nothing is read of the empty path. -/
theorem unCompress_empty (fs : FileSystem) (target : Bytes) (statOk : Bool) (read : ReadOutcome)
    (write : WriteOutcome) :
    FileUtil.unCompress z fs [] target statOk read write = some (false, fs) := by
  have hfind : fs.find [] = none := rfl
  have hlt : ¬FileUtil.toSizeT (-1) < SizeT.add 0 (FileUtil.toSizeT (-1)) := by decide
  simp only [FileUtil.unCompress, FileUtil.getContent, FileUtil.getPosLen, FileUtil.fileSize,
    hfind, hlt, ↓reduceIte]

/-- The low directory, where there is something, is a directory. -/
theorem find_lowStorageDir {fs : FileSystem}
    (h : (fs.find Config.shipped.lowStorageDir).isSome = true) :
    fs.find Config.shipped.lowStorageDir = some .directory := by
  obtain ⟨node, hnode⟩ := Option.isSome_iff_exists.mp h
  cases node with
  | directory => exact hnode
  | file f =>
    have hname := (FileSystem.find_eq_file.mp hnode).1
    exact absurd hname (by decide)

/-- A url without a record is answered with an empty body: the low directory is sent. -/
theorem download_of_missing (hopenable : Openable s.fs) (hpath : urlDecode req.path = some url)
    (hmissing : s.table.lookup url = none) (hrange : req.ifRange = none) (hio : io.Succeeds) :
    (download Config.shipped z io s req).replies = [reply 200 "Success"] := by
  have hinfo : (downloadInfo io s url).storage_path_ = [] := by
    simp only [downloadInfo, DataManager.getOneByURL, hmissing]
  have hname : PageName [97] := ⟨by decide, by decide, by decide, by decide, by decide⟩
  obtain ⟨fs, hmade⟩ := exists_createDirectory_low hname (hopenable.page [97] hname)
  have htransit : transitPath Config.shipped (downloadInfo io s url) =
      Config.shipped.lowStorageDir := by
    rw [transitPath, hinfo]
    exact List.append_nil _
  have hprepare : prepareDownload Config.shipped z s.fs (downloadInfo io s url) io =
      (fs, some Config.shipped.lowStorageDir) := by
    apply prepareDownload_eq_some.mpr
    right
    rw [htransit, hinfo, hio.mkdir]
    exact ⟨by decide, rfl, fs, false, hmade, unCompress_empty _ _ _ _ _⟩
  have hfind := find_lowStorageDir (find_createDirectory hmade)
  rw [download_eq_sendDownload hpath hprepare hio.exist]
  simp [sendDownload, hfind, hio.opens, hrange, reply]

end

section
variable {z : Zstd} {lib : JsonCpp} {p : Process} {table : Table} {log : List (Bytes × Bytes)}

/-- What a download sends of the content that is kept. -/
theorem Stored.reply_download {fs : FileSystem} (hz : z.Correct)
    (hstored : Stored z lib ⟨fs, table⟩ log) {name : Bytes} (hname : PageName name)
    {req : Request} {io : DownloadIo}
    (hdecode : urlDecode req.path = some (Config.shipped.downloadPrefix ++ name))
    (hrange : req.ifRange = none) (hio : io.Succeeds) :
    (Service.download Config.shipped z io ⟨fs, table⟩ req).replies =
      [{ reply 200 "Success" with body := (log.lookup name).getD [] }] := by
  cases hcontent : log.lookup name with
  | none =>
    have hmissing := hstored.names name
    rw [hcontent, Option.isSome_none, Option.isSome_eq_false_iff, Option.isNone_iff_eq_none]
      at hmissing
    rw [download_of_missing hstored.openable hdecode hmissing hrange hio]
    rfl
  | some content =>
    obtain ⟨dir, stored, hdir, -, hheld, hsize, hgives⟩ := hstored.held name content hcontent
    rw [download_of_held hz hname hdir hheld hsize hdecode hrange hio]
    unfold Gives at hgives
    split
    · rename_i hlow
      rw [if_pos hlow] at hgives
      rw [hgives]
      rfl
    · rename_i hlow
      rw [if_neg hlow] at hgives
      rw [hgives]
      rfl

/-- The running process has what the uploads have given it. -/
theorem running_stored (hz : z.Correct)
    (hreach : (histories z lib).ReachableBy (Lasts z lib) (p, log))
    (hrunning : p.table = some table) : Stored z lib ⟨p.fs, table⟩ log := by
  obtain ⟨table', hstored, hsame⟩ := reachable_stored hz hreach
  rw [hrunning] at hsame
  obtain hnone | hsome := hsame
  · cases hnone
  · cases hsome
    exact hstored

/-- **The service is a durable store**: after any history of uploads that last, downloads and
    requests that end in exceptions, across any number of restarts, a download of a name gives
    the content that the latest upload answered with `200` gave it, and nothing if there was
    none. -/
theorem download_durable (hz : z.Correct)
    (hreach : (histories z lib).ReachableBy (Lasts z lib) (p, log))
    (hrunning : p.table = some table)
    {name : Bytes} (hname : PageName name) {req : Request} {io : DownloadIo}
    (hpath : Encodes req.path (Config.shipped.downloadPrefix ++ name))
    (hrange : req.ifRange = none) (hio : io.Succeeds) :
    (download Config.shipped z io ⟨p.fs, table⟩ req).replies =
      [{ reply 200 "Success" with body := (log.lookup name).getD [] }] :=
  (running_stored hz hreach hrunning).reply_download hz hname (urlDecode_of_encodes hpath) hrange
    hio

/-- The file `a` is there after a restart. -/
theorem download_durable_small : ∃ p table,
    (histories storedZstd (smallJson 2 "2")).Reachable
      (p, [(smallTarget.fileName, smallTarget.content)]) ∧ p.table = some table ∧
    (download Config.shipped storedZstd wholeDownload ⟨p.fs, table⟩ smallDownload).replies =
      [{ reply 200 "Success" with body := Bytes.ofString "hi" }] := by
  obtain ⟨p, table, hreach, htable⟩ := reachable_small
  have hname : PageName smallTarget.fileName :=
    ⟨by decide, by decide, by decide, by decide, by decide⟩
  exact ⟨p, table, hreach.reachable, htable, download_durable storedZstd_correct hreach htable hname
    encodes_smallDownload rfl wholeDownload_succeeds⟩

/-- Under the url of a name there is a record of a file of that name. -/
theorem Coherent.url_eq {table : Table} (h : Coherent table) {e : StorageInfo}
    (he : e ∈ table.records) :
    e.url_ = Config.shipped.downloadPrefix ++ FileUtil.fileName e.storage_path_ := by
  obtain ⟨dir, name, hdir, hname, hpath, hurl⟩ := h _ e (Table.mem_records.mp he)
  rw [hurl, hpath, fileName_page hdir hname]

/-- **The list is that of the uploads**: after any such history and in any order of the hash map,
    `GetAll` gives the names of the uploads that were answered with `200`, each of them once. -/
theorem getAll_durable (hz : z.Correct)
    (hreach : (histories z lib).ReachableBy (Lasts z lib) (p, log))
    (hrunning : p.table = some table)
    (order : HashOrder) :
    ((DataManager.getAll table order).map fun e => FileUtil.fileName e.storage_path_).Nodup ∧
    ∀ name, (name ∈ (DataManager.getAll table order).map fun e =>
      FileUtil.fileName e.storage_path_) ↔ name ∈ log.map Prod.fst := by
  have hstored := running_stored hz hreach hrunning
  have hperm : (DataManager.getAll table order).Perm table.records := order.perm _
  have hurl := fun e (he : e ∈ table.records) => hstored.coherent.url_eq he
  constructor
  · rw [(hperm.map _).nodup_iff]
    -- the urls are the names behind the prefix
    have hurls : table.records.map StorageInfo.url_ =
        (table.records.map fun e => FileUtil.fileName e.storage_path_).map
          (Config.shipped.downloadPrefix ++ ·) := by
      rw [List.map_map]
      exact List.map_congr_left hurl
    exact List.Nodup.of_map _ (hurls ▸ table.nodup_urls)
  · intro name
    have hnames := hstored.names name
    rw [(hperm.map _).mem_iff, List.mem_map]
    constructor
    · rintro ⟨e, he, rfl⟩
      have hlookup : (table.lookup
          (Config.shipped.downloadPrefix ++ FileUtil.fileName e.storage_path_)).isSome = true := by
        rw [← hurl e he, Table.mem_records.mp he]
        rfl
      rw [hnames, List.lookup_isSome_iff] at hlookup
      obtain ⟨upload, hmem, heq⟩ := hlookup
      exact List.mem_map.mpr ⟨upload, hmem, (eq_of_beq heq).symm⟩
    · intro hname
      obtain ⟨upload, hmem, rfl⟩ := List.mem_map.mp hname
      have hlookup : (log.lookup upload.1).isSome = true :=
        List.lookup_isSome_iff.mpr ⟨upload, hmem, beq_self_eq_true _⟩
      rw [← hnames] at hlookup
      obtain ⟨e, he⟩ := Option.isSome_iff_exists.mp hlookup
      have hkey := Table.lookup_url he
      rw [← hkey] at he
      have hrecord := Table.mem_records.mpr he
      refine ⟨e, hrecord, ?_⟩
      have hprefix := hurl e hrecord
      rw [hkey] at hprefix
      exact (List.append_cancel_left hprefix).symm

/-- It is the only one in the list. -/
theorem getAll_durable_small : ∃ p table,
    (histories storedZstd (smallJson 2 "2")).Reachable
      (p, [(smallTarget.fileName, smallTarget.content)]) ∧ p.table = some table ∧
    ∀ order name, (name ∈ (DataManager.getAll table order).map fun e =>
      FileUtil.fileName e.storage_path_) ↔ name ∈ [Bytes.ofString "a"] := by
  obtain ⟨p, table, hreach, htable⟩ := reachable_small
  exact ⟨p, table, hreach.reachable, htable,
    fun order => (getAll_durable storedZstd_correct hreach htable order).2⟩

/-- **A restart loses nothing**: from wherever such a history leads, the process can be started
    again, also where an exception has ended it, and then a url leads to what it led to while
    the process ran. -/
theorem restart_durable (hz : z.Correct)
    (hreach : (histories z lib).ReachableBy (Lasts z lib) (p, log)) {io : DataManager.LoadOutcome}
    (hio : io.Whole) :
    ∃ after, (histories z lib).step (p, log) (.restart io) = some (⟨p.fs, some after⟩, log) ∧
      ∀ table, p.table = some table → ∀ url, after.lookup url = table.lookup url := by
  obtain ⟨table, hstored, hsame⟩ := reachable_stored hz hreach
  obtain ⟨ok, after, hload, hafter⟩ := hstored.loads io hio
  refine ⟨after, ?_, ?_⟩
  · simp only [histories, Process.step, hload, Option.map_some, Process.acknowledged,
      Option.toList_none, List.nil_append]
  · intro given hgiven
    obtain hnone | hsome := hsame
    · rw [hnone] at hgiven
      cases hgiven
    · rw [hsome] at hgiven
      cases hgiven
      exact hafter

/-- And the process can be started once more. -/
theorem restart_durable_small : ∃ p after table,
    (histories storedZstd (smallJson 2 "2")).step
      (p, [(smallTarget.fileName, smallTarget.content)]) (.restart DataManager.wholeLoad) =
        some (⟨p.fs, some after⟩, [(smallTarget.fileName, smallTarget.content)]) ∧
    p.table = some table ∧ ∀ url, after.lookup url = table.lookup url := by
  obtain ⟨p, table, hreach, htable⟩ := reachable_small
  obtain ⟨after, hstep, hsame⟩ := restart_durable storedZstd_correct hreach wholeLoad_whole
  exact ⟨p, after, table, hstep, htable, hsame table htable⟩

end

end Storage
