import AsyncLogStorage.Spec.DurableStore
import AsyncLogStorage.Spec.ListLinks
import AsyncLogStorage.Spec.StorageClass

/-!
# From the list page to the files

A client that opens the list page and follows a link gets the file that the link names, as it
was uploaded last, however long ago and whatever has happened since.

## Key results

- `genHandler_listShow`: what the list page is made of
- `link_delivers`: what the request for a link of the page is answered with
-/

namespace Storage

open Service

variable {z : Zstd} {lib : JsonCpp} {p : Process} {table : Table} {log : List (Bytes × Bytes)}
  {settings : PageSettings} {gen : GenIo} {req : Request} {e : StorageInfo}

/-- The path of the page is answered with the list. -/
theorem genHandler_listShow (cfg : Config) (z : Zstd) (lib : JsonCpp) (settings : PageSettings)
    (gen : GenIo) (s : Server) (hpath : urlDecode req.path = some [47]) :
    (genHandler cfg z lib settings gen s req).replies =
      [{ plainReply 200 with
        body := listPage settings (DataManager.getAll s.table gen.order) }] := by
  have hroute : route [47] = .listShow := by decide
  simp only [genHandler, hpath, hroute, listShow]

/-- The path of a url is answered with a download. -/
theorem genHandler_download {s : Server} {name : Bytes}
    (hpath : urlDecode req.path = some (Config.shipped.downloadPrefix ++ name)) :
    genHandler Config.shipped z lib settings gen s req =
      download Config.shipped z gen.download s req := by
  have hroute : route (Config.shipped.downloadPrefix ++ name) = .download :=
    route_eq_download.mpr (List.prefix_append _ _).isInfix
  simp only [genHandler, hpath, hroute]

/-- A record of the list is the one of an upload. -/
theorem Stored.listed {fs : FileSystem} (hstored : Stored z lib ⟨fs, table⟩ log)
    (order : HashOrder) (he : e ∈ DataManager.getAll table order) :
    PageName (listedName e) ∧ e.url_ = Config.shipped.downloadPrefix ++ listedName e ∧
      ∃ content, log.lookup (listedName e) = some content := by
  have hrecord : e ∈ table.records := (order.perm _).mem_iff.mp he
  have hlookup := Table.mem_records.mp hrecord
  obtain ⟨dir, name, hdir, hname, hpath, hurl⟩ := hstored.coherent _ e hlookup
  have hlisted : listedName e = name := by rw [listedName, hpath, fileName_page hdir hname]
  have hsome := hstored.names name
  rw [← hurl, hlookup, Option.isSome_some, eq_comm, Option.isSome_iff_exists] at hsome
  rw [hlisted]
  exact ⟨hname, hurl, hsome⟩

/-- **The page leads to the files**: after any history of uploads that last, downloads, requests
    that end in exceptions and restarts, the page at `/` lists the records of the table, and a
    browser that follows the link of one gets the content of the latest upload of the name that
    the page shows there, if the name has no `%`, `?` or `#`. -/
theorem link_delivers (hz : z.Correct)
    (hreach : (histories z lib).ReachableBy (Lasts z lib) (p, log))
    (hrunning : p.table = some table) (settings : PageSettings) (gen : GenIo) :
    (∀ req, urlDecode req.path = some [47] →
      (genHandler Config.shipped z lib settings gen ⟨p.fs, table⟩ req).replies =
        [{ plainReply 200 with
          body := listPage settings (DataManager.getAll table gen.order) }]) ∧
    ∀ e ∈ DataManager.getAll table gen.order, 37 ∉ listedName e → 63 ∉ listedName e →
      35 ∉ listedName e → ∀ allowed req (gen : GenIo), req.path = requestPath allowed e.url_ →
        req.ifRange = none → gen.download.Succeeds →
        ∃ content, log.lookup (listedName e) = some content ∧
          (genHandler Config.shipped z lib settings gen ⟨p.fs, table⟩ req).replies =
            [{ reply 200 "Success" with body := content }] := by
  have hstored := running_stored hz hreach hrunning
  constructor
  · intro req hpath
    exact genHandler_listShow Config.shipped z lib settings gen ⟨p.fs, table⟩ hpath
  · intro e he h37 h63 h35 allowed req gen hpath hrange hio
    obtain ⟨hname, hurl, content, hcontent⟩ := hstored.listed _ he
    -- the prefix has none of the three bytes
    have hprefix : 37 ∉ Config.shipped.downloadPrefix ∧ 63 ∉ Config.shipped.downloadPrefix ∧
        35 ∉ Config.shipped.downloadPrefix := by decide
    have hdecode : urlDecode req.path =
        some (Config.shipped.downloadPrefix ++ listedName e) := by
      rw [hpath, ← hurl, urlDecode_requestPath_iff, hurl]
      simp only [List.mem_append, hprefix, h37, h63, h35, or_self, not_false_eq_true, and_self]
    refine ⟨content, hcontent, ?_⟩
    rw [genHandler_download hdecode, hstored.reply_download hz hname hdecode hrange hio, hcontent]
    rfl

/-- The link of the only record, after an upload of the file `a` and a restart. -/
theorem link_delivers_small : ∃ p table e,
    (histories storedZstd (smallJson 2 "2")).Reachable
      (p, [(smallTarget.fileName, smallTarget.content)]) ∧ p.table = some table ∧
    e ∈ DataManager.getAll table .held ∧
    ∀ settings (gen : GenIo), gen.download.Succeeds →
      (genHandler Config.shipped storedZstd (smallJson 2 "2") settings gen ⟨p.fs, table⟩
        { smallDownload with path := requestPath (fun _ => true) e.url_ }).replies =
          [{ reply 200 "Success" with body := Bytes.ofString "hi" }] := by
  obtain ⟨p, table, hreach, htable⟩ := reachable_small
  have hstored := running_stored storedZstd_correct hreach htable
  have hname : smallTarget.fileName = Bytes.ofString "a" := rfl
  obtain ⟨e, he⟩ := Option.isSome_iff_exists.mp ((hstored.names smallTarget.fileName).trans rfl)
  have hrecord : e ∈ table.records := Table.mem_records.mpr (by rwa [Table.lookup_url he])
  have hlisted : listedName e = Bytes.ofString "a" := by
    obtain ⟨-, hurl, -⟩ := hstored.listed .held hrecord
    rw [Table.lookup_url he, hname] at hurl
    exact (List.append_cancel_left hurl).symm
  refine ⟨p, table, e, hreach.reachable, htable, hrecord, ?_⟩
  intro settings gen hio
  obtain ⟨content, hcontent, hreply⟩ := (link_delivers storedZstd_correct hreach htable settings
    { gen with order := .held }).2 e hrecord (by rw [hlisted]; decide) (by rw [hlisted]; decide)
    (by rw [hlisted]; decide) (fun _ => true)
    { smallDownload with path := requestPath (fun _ => true) e.url_ } gen rfl rfl hio
  rw [hlisted] at hcontent
  cases hcontent
  exact hreply

end Storage
