import AsyncLogStorage.Spec.ListText
import AsyncLogStorage.Spec.Undisturbed
import AsyncLogStorage.Spec.UrlDecode

/-!
# The links of the list page

The list links to the url of a record as it is. A browser cuts a link at the first `?` or `#`,
and writes escapes for the bytes that a path may not have, but leaves `%` alone. So what
`UrlDecode` gets is the url again exactly where it has none of the three.

## Key results

- `length_urlDecode_sent`: an escape that was already in the link makes the path shorter
- `link_leads_iff`: which links lead to their records
-/

namespace Storage

open Service

/-! ## What a browser requests -/

/-- The hexadecimal digit, in upper case. -/
def upperDigit (n : Nat) : UInt8 := UInt8.ofNat (if n < 10 then 48 + n else 55 + n)

/-- What a browser sends for a byte of a path, of which `allowed` may stand there. -/
def sentByte (allowed : UInt8 → Bool) (b : UInt8) : Bytes :=
  if b = 37 ∨ allowed b = true then [b]
  else [37, upperDigit (b.toNat / 16), upperDigit (b.toNat % 16)]

/-- The path that a browser requests for a link. -/
def requestPath (allowed : UInt8 → Bool) (link : Bytes) : Bytes :=
  (link.takeWhile fun b => b ≠ 63 ∧ b ≠ 35).flatMap (sentByte allowed)

theorem isHexDigit_upperDigit {n : Nat} (h : n < 16) : IsHexDigit (upperDigit n) n := by
  have hvalue : (upperDigit n).toNat = if n < 10 then 48 + n else 55 + n := by
    rw [upperDigit, UInt8.toNat_ofNat']
    split <;> omega
  have h48 : (48 : UInt8).toNat = 48 := rfl
  have h57 : (57 : UInt8).toNat = 57 := rfl
  have h65 : (65 : UInt8).toNat = 65 := rfl
  have h70 : (70 : UInt8).toNat = 70 := rfl
  simp only [IsHexDigit, UInt8.le_iff_toNat_le, hvalue, h48, h57, h65, h70]
  split <;> omega

/-- A byte other than `%` is sent as one of its encodings. -/
theorem encodesByte_sentByte (allowed : UInt8 → Bool) {b : UInt8} (h : b ≠ 37) :
    EncodesByte (sentByte allowed b) b := by
  have hb := b.toNat_lt
  unfold sentByte
  split
  · exact .inl ⟨rfl, h⟩
  · exact .inr ⟨_, _, rfl, isHexDigit_upperDigit (by omega), isHexDigit_upperDigit (by omega)⟩

/-- A string without `%` is sent as an encoding of itself. -/
theorem encodes_sent (allowed : UInt8 → Bool) {s : Bytes} (h : 37 ∉ s) :
    Encodes (s.flatMap (sentByte allowed)) s := by
  have hparts : List.Forall₂ EncodesByte (s.map (sentByte allowed)) s := by
    induction s with
    | nil => exact .nil
    | cons b s ih =>
      rw [List.mem_cons, not_or] at h
      exact .cons (encodesByte_sentByte allowed (Ne.symm h.1)) (ih h.2)
  rw [List.flatMap_def]
  exact encodes_flatten hparts

/-- A byte is sent as it is, or as something that starts with `%`. -/
theorem sentByte_cases (allowed : UInt8 → Bool) (b : UInt8) :
    sentByte allowed b = [b] ∨ ∃ tail, sentByte allowed b = 37 :: tail := by
  unfold sentByte
  split
  · exact .inl rfl
  · exact .inr ⟨_, rfl⟩

/-- A decoded `%` has two bytes behind it that `FromHex` takes. -/
theorem urlDecode_percent {s d : Bytes} (h : urlDecode (37 :: s) = some d) :
    ∃ x y rest d', s = x :: y :: rest ∧ x ≠ 37 ∧ y ≠ 37 ∧ urlDecode rest = some d' ∧
      d.length = d'.length + 1 := by
  have hpercent : fromHex 37 = none := by decide
  rw [urlDecode.eq_def] at h
  simp only [↓reduceIte] at h
  split at h
  · rename_i x y rest
    obtain ⟨high, hhigh, h⟩ := Option.bind_eq_some_iff.mp h
    obtain ⟨low, hlow, h⟩ := Option.bind_eq_some_iff.mp h
    obtain ⟨d', hd', h⟩ := Option.bind_eq_some_iff.mp h
    refine ⟨x, y, rest, d', rfl, ?_, ?_, hd', ?_⟩
    · rintro rfl
      rw [hpercent] at hhigh
      cases hhigh
    · rintro rfl
      rw [hpercent] at hlow
      cases hlow
    · cases h
      rfl
  · cases h

/-- The byte that was sent first, where it is no `%`. -/
theorem eq_cons_of_sent {allowed : UInt8 → Bool} {s rest : Bytes} {x : UInt8}
    (h : s.flatMap (sentByte allowed) = x :: rest) (hx : x ≠ 37) :
    ∃ s', s = x :: s' ∧ rest = s'.flatMap (sentByte allowed) := by
  cases s with
  | nil => cases h
  | cons b s =>
    rw [List.flatMap_cons] at h
    obtain hsent | ⟨tail, hsent⟩ := sentByte_cases allowed b
    · rw [hsent] at h
      obtain ⟨rfl, hrest⟩ := List.cons.inj h
      exact ⟨s, rfl, hrest.symm⟩
    · rw [hsent] at h
      exact absurd (List.cons.inj h).1.symm hx

/-- What is decoded has one byte for each that was sent, but for an escape that stood there
    already, which has three. -/
theorem length_urlDecode_sent {allowed : UInt8 → Bool} {s d : Bytes}
    (h : urlDecode (s.flatMap (sentByte allowed)) = some d) :
    d.length + 2 * s.count 37 = s.length := by
  induction hlen : s.length using Nat.strong_induction_on generalizing s d with
  | h n ih =>
    subst hlen
    cases s with
    | nil =>
      cases h
      rfl
    | cons b s =>
      rw [List.flatMap_cons] at h
      by_cases hb : b = 37
      · subst hb
        have hsent : sentByte allowed 37 = [37] := if_pos (.inl rfl)
        rw [hsent, List.singleton_append] at h
        -- the two bytes behind the `%` were sent as they are
        obtain ⟨x, y, rest, d', hrest, hx, hy, hdecode, hd⟩ := urlDecode_percent h
        obtain ⟨s₁, rfl, hs₁⟩ := eq_cons_of_sent hrest hx
        obtain ⟨s₂, rfl, hs₂⟩ := eq_cons_of_sent hs₁.symm hy
        rw [hs₂] at hdecode
        have hcount := ih s₂.length (by simp only [List.length_cons]; omega) hdecode rfl
        simp only [List.count_cons, List.length_cons, beq_self_eq_true, ↓reduceIte, beq_iff_eq, hx,
          hy]
        omega
      · rw [urlDecode_append (encodesByte_sentByte allowed hb)] at h
        obtain ⟨d', hdecode, rfl⟩ := Option.map_eq_some_iff.mp h
        have hcount := ih s.length (by simp only [List.length_cons]; omega) hdecode rfl
        rw [List.count_cons_of_ne hb, List.length_cons, List.length_cons]
        omega

/-- A link is decoded to itself exactly where it has no `%`, `?` or `#`. -/
theorem urlDecode_requestPath_iff (allowed : UInt8 → Bool) (link : Bytes) :
    urlDecode (requestPath allowed link) = some link ↔ 37 ∉ link ∧ 63 ∉ link ∧ 35 ∉ link := by
  have hcut : (∀ b ∈ link, (decide (b ≠ 63 ∧ b ≠ 35)) = true) ↔ 63 ∉ link ∧ 35 ∉ link := by
    simp only [decide_eq_true_eq, forall_and]
    constructor
    · rintro ⟨h63, h35⟩
      exact ⟨fun h => h63 63 h rfl, fun h => h35 35 h rfl⟩
    · rintro ⟨h63, h35⟩
      exact ⟨fun b hb heq => h63 (heq ▸ hb), fun b hb heq => h35 (heq ▸ hb)⟩
  rw [requestPath]
  constructor
  · intro h
    -- nothing was cut off, and no escape was decoded
    have hlen := length_urlDecode_sent h
    have hle := (List.takeWhile_sublist (l := link) fun b => decide (b ≠ 63 ∧ b ≠ 35)).length_le
    have hwhole : link.takeWhile (fun b => decide (b ≠ 63 ∧ b ≠ 35)) = link :=
      (List.takeWhile_prefix _).eq_of_length (by omega)
    rw [hwhole] at hlen
    have hcount : link.count 37 = 0 := by omega
    exact ⟨List.count_eq_zero.mp hcount, hcut.mp (List.takeWhile_eq_self_iff.mp hwhole)⟩
  · rintro ⟨hpercent, hrest⟩
    rw [List.takeWhile_eq_self_iff.mpr (hcut.mpr hrest)]
    exact urlDecode_of_encodes (encodes_sent allowed hpercent)

/-! ## The records of the page -/

/-- A request for the link is decoded to the url of the record, and finds that record. -/
def LeadsTo (allowed : UInt8 → Bool) (table : Table) (info : StorageInfo) : Prop :=
  urlDecode (requestPath allowed info.url_) = some info.url_ ∧
    (∀ uninit, DataManager.getOneByURL table info.url_ uninit = (true, info)) ∧
    ∀ other ∈ table.records, other.url_ = info.url_ → other = info

/-- Under `Storage.conf`, after any uploads and downloads with plain names, the link of a record
    leads to it exactly where its name has no `%`, `?` or `#`. -/
theorem link_leads_iff {z : Zstd} {lib : JsonCpp} {s : Server} {info : StorageInfo}
    (hreach : (pageService z lib).ReachableBy (fun _ e => Plain e) s)
    (hinfo : info ∈ s.table.records) (allowed : UInt8 → Bool) :
    LeadsTo allowed s.table info ↔
      37 ∉ listedName info ∧ 63 ∉ listedName info ∧ 35 ∉ listedName info := by
  have hlookup := Table.mem_records.mp hinfo
  obtain ⟨dir, name, hdir, hname, hpath, hurl⟩ := reachable_coherent hreach _ _ hlookup
  have hlisted : listedName info = name := by
    rw [listedName, hpath, fileName_append hdir.slash hname.slash]
  have hfound : ∀ uninit, DataManager.getOneByURL s.table info.url_ uninit = (true, info) := by
    intro uninit
    simp only [DataManager.getOneByURL, hlookup]
  have honly : ∀ other ∈ s.table.records, other.url_ = info.url_ → other = info := by
    intro other hother heq
    have hother := Table.mem_records.mp hother
    rw [heq, hlookup] at hother
    exact (Option.some.inj hother).symm
  have hiff : LeadsTo allowed s.table info ↔
      urlDecode (requestPath allowed info.url_) = some info.url_ :=
    ⟨fun h => h.1, fun h => ⟨h, hfound, honly⟩⟩
  -- the prefix has none of the three bytes
  have h37 : 37 ∉ Config.shipped.downloadPrefix := by decide
  have h63 : 63 ∉ Config.shipped.downloadPrefix := by decide
  have h35 : 35 ∉ Config.shipped.downloadPrefix := by decide
  rw [hiff, urlDecode_requestPath_iff, hurl, hlisted]
  simp only [List.mem_append, h37, h63, h35, false_or]

/-- The upload of a file called `%41`. -/
def percentUpload : Request := { smallUpload with fileName := some (Bytes.ofString "JTQx") }

/-- What the server holds after an upload to an empty one. -/
def uploaded (req : Request) : Server :=
  (upload Config.shipped storedZstd silentJson (smallIo 2) ⟨∅, .empty⟩ req).server

/-- The link to a file called `a` leads to it. -/
theorem link_leads_small : ∃ info ∈ (uploaded smallUpload).table.records,
    LeadsTo (fun _ => true) (uploaded smallUpload).table info := by
  have hplain : Plain (.upload (smallIo 2) smallUpload) := by
    intro t htarget
    cases htarget
    exact ⟨by decide, by decide⟩
  have hsome : ((uploaded smallUpload).table.lookup
      (Config.shipped.downloadPrefix ++ Bytes.ofString "a")).any
        (fun info => listedName info = Bytes.ofString "a") = true := by decide
  obtain ⟨info, hlookup, hname⟩ := (Option.any_eq_true _ _).mp hsome
  have hinfo : info ∈ (uploaded smallUpload).table.records := by
    rw [Table.mem_records, Table.lookup_url hlookup]
    exact hlookup
  refine ⟨info, hinfo, (link_leads_iff (reachable_upload hplain (by decide)) hinfo _).mpr ?_⟩
  rw [of_decide_eq_true hname]
  decide

/-- The link to a file called `%41` is decoded to the url of a file called `A`. -/
theorem link_misleads :
    ¬∀ (z : Zstd) (lib : JsonCpp) (s : Server) (info : StorageInfo),
      (pageService z lib).ReachableBy (fun _ e => Plain e) s → info ∈ s.table.records →
        LeadsTo (fun _ => true) s.table info := by
  intro h
  have hplain : Plain (.upload (smallIo 2) percentUpload) := by
    intro t htarget
    cases htarget
    exact ⟨by decide, by decide⟩
  have hsome : ((uploaded percentUpload).table.lookup
      (Config.shipped.downloadPrefix ++ Bytes.ofString "%41")).isSome = true := by decide
  obtain ⟨info, hlookup⟩ := Option.isSome_iff_exists.mp hsome
  have hurl := Table.lookup_url hlookup
  have hinfo : info ∈ (uploaded percentUpload).table.records := by
    rw [Table.mem_records, hurl]
    exact hlookup
  obtain ⟨hdecode, -⟩ := h storedZstd silentJson (uploaded percentUpload) info
    (reachable_upload hplain (by decide)) hinfo
  rw [hurl] at hdecode
  exact absurd hdecode (by decide)

end Storage
