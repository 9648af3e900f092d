import AsyncLogStorage.ForStd.List
import AsyncLogStorage.Spec.ListText

/-!
# The placeholders of the list page

`ListShow` replaces the two placeholders of the template one after the other, by formats. So an
escape in an inserted text is expanded, and a placeholder for the address that stands in the list
is replaced too.

## Key results

- `replaceMarks_eq_fillIn`: a list and an address without escapes, and a list without the
  placeholder for the address, are inserted verbatim
- `listShow_verbatim_iff`: for which file names and addresses every template is filled in verbatim
-/

namespace Storage

open Bytes (Inert Special format pieces regexReplace replaceAll)

/-! ## Filling in a template -/

/-- The template behind its first `skip` bytes, filled in. -/
def fillFrom (list address : Bytes) : Nat → Bytes → Bytes
  | _, [] => []
  | skip + 1, _ :: template => fillFrom list address skip template
  | 0, c :: template =>
    if fileListMark <+: c :: template then
      list ++ fillFrom list address (fileListMark.length - 1) template
    else if backendUrlMark <+: c :: template then
      address ++ fillFrom list address (backendUrlMark.length - 1) template
    else
      c :: fillFrom list address 0 template

/-- The template with each of its placeholders replaced by the list and by the address. -/
def fillIn (list address template : Bytes) : Bytes := fillFrom list address 0 template

variable {list address template : Bytes}

theorem fillFrom_eq_drop (skip : Nat) :
    fillFrom list address skip template = fillIn list address (template.drop skip) := by
  induction skip generalizing template with
  | zero => rfl
  | succ skip ih =>
    cases template with
    | nil => rfl
    | cons c template => exact ih

theorem fillIn_fileListMark :
    fillIn list address (fileListMark ++ template) = list ++ fillIn list address template := by
  have hmark : fileListMark = 123 :: fileListMark.tail := rfl
  have hpre : fileListMark <+: 123 :: (fileListMark.tail ++ template) :=
    List.prefix_append fileListMark template
  rw [fillIn, hmark, List.cons_append, fillFrom, if_pos hpre, fillFrom_eq_drop]
  simp

theorem fillIn_backendUrlMark :
    fillIn list address (backendUrlMark ++ template) =
      address ++ fillIn list address template := by
  have hmark : backendUrlMark = 123 :: backendUrlMark.tail := rfl
  have hpre : backendUrlMark <+: 123 :: (backendUrlMark.tail ++ template) :=
    List.prefix_append backendUrlMark template
  have hnot : ¬fileListMark <+: 123 :: (backendUrlMark.tail ++ template) := by
    intro hlist
    -- one of the two marks would start the other
    obtain h | h := List.prefix_or_prefix_of_prefix hlist hpre
    · exact absurd h (by decide)
    · exact absurd h (by decide)
  rw [fillIn, hmark, List.cons_append, fillFrom, if_neg hnot, if_pos hpre, fillFrom_eq_drop]
  simp

theorem fillIn_cons {c : UInt8} (hlist : ¬fileListMark <+: c :: template)
    (haddress : ¬backendUrlMark <+: c :: template) :
    fillIn list address (c :: template) = c :: fillIn list address template := by
  rw [fillIn, fillFrom, if_neg hlist, if_neg haddress]
  rfl

/-! ## What is inserted verbatim -/

theorem fileListMark_ne_nil : fileListMark ≠ [] := by decide

theorem backendUrlMark_ne_nil : backendUrlMark ≠ [] := by decide

/-- A list that starts and ends with a tag, and has no escape and no placeholder, is inserted
    verbatim, and so is an address without escapes. -/
theorem replaceAll_eq_fillIn {inner : Bytes} (hstart : list.head? = some 60)
    (hend : list.getLast? = some 62) (habsent : ¬backendUrlMark <:+: list) :
    replaceAll backendUrlMark address (replaceAll fileListMark list inner) =
      fillIn list address inner := by
  have h60 : 60 ∉ backendUrlMark := by decide
  have h62 : 62 ∉ backendUrlMark := by decide
  induction hlen : inner.length using Nat.strong_induction_on generalizing inner with
  | h n ih =>
    subst hlen
    cases inner with
    | nil => rfl
    | cons c inner =>
      by_cases hlist : fileListMark <+: c :: inner
      · obtain ⟨rest, hrest⟩ := hlist
        have hlt : rest.length < (c :: inner).length := by
          have hpos := List.length_pos_iff.mpr fileListMark_ne_nil
          rw [← hrest, List.length_append]
          omega
        rw [← hrest, Bytes.replaceAll_append_self fileListMark_ne_nil,
          Bytes.replaceAll_append_of_absent hend h62 habsent, ih rest.length hlt rfl,
          fillIn_fileListMark]
      · by_cases haddress : backendUrlMark <+: c :: inner
        · obtain ⟨rest, hrest⟩ := haddress
          have hlt : rest.length < (c :: inner).length := by
            have hpos := List.length_pos_iff.mpr backendUrlMark_ne_nil
            rw [← hrest, List.length_append]
            omega
          have hapart : ∀ l ∈ backendUrlMark.tails, l ≠ [] →
              ¬l <+: fileListMark ∧ ¬fileListMark <+: l := by decide
          rw [← hrest, Bytes.replaceAll_append_of_apart hapart,
            Bytes.replaceAll_append_self backendUrlMark_ne_nil, ih rest.length hlt rfl,
            fillIn_backendUrlMark]
        · -- the mark cannot come to stand here: it has no byte of a tag
          have hnot : ¬backendUrlMark <+: c :: replaceAll fileListMark list inner := by
            intro hpre
            rw [← Bytes.replaceAll_cons hlist] at hpre
            exact haddress
              (Bytes.prefix_of_prefix_replaceAll fileListMark_ne_nil hstart h60 hpre)
          rw [Bytes.replaceAll_cons hlist, Bytes.replaceAll_cons hnot,
            ih inner.length (by simp) rfl, fillIn_cons hlist haddress]

/-- The two replacements of `ListShow`. -/
def replaceMarks (list address template : Bytes) : Bytes :=
  regexReplace backendUrlMark address (regexReplace fileListMark list template)

/-- Texts without escapes, of which the list has no placeholder, are inserted verbatim. -/
theorem replaceMarks_eq_fillIn (hstart : list.head? = some 60) (hend : list.getLast? = some 62)
    (habsent : ¬backendUrlMark <:+: list) (hlist : Inert list) (haddress : Inert address) :
    replaceMarks list address template = fillIn list address template := by
  rw [replaceMarks, Bytes.regexReplace_of_inert haddress, Bytes.regexReplace_of_inert hlist]
  exact replaceAll_eq_fillIn hstart hend habsent

/-! ## What is not -/

/-- The template that is the placeholder of the address shows an escape in the address. -/
theorem inert_address (h : replaceMarks list address backendUrlMark =
    fillIn list address backendUrlMark) : Inert address := by
  have habsent : ¬fileListMark <:+: backendUrlMark := by decide
  have hnil : ¬backendUrlMark <:+: [] := by decide
  have hpage : replaceMarks list address backendUrlMark = format [] backendUrlMark [] address := by
    have hfirst : regexReplace fileListMark list backendUrlMark = backendUrlMark := by
      rw [regexReplace, Bytes.regexReplaceFrom_of_absent habsent, List.nil_append]
    have hsecond : regexReplace backendUrlMark address ([] ++ (backendUrlMark ++ [])) =
        [] ++ format [] backendUrlMark [] address ++ [] :=
      Bytes.regexReplace_single (show backendUrlMark.head? = some 123 from rfl)
        List.not_mem_nil hnil
    rw [replaceMarks, hfirst]
    simpa only [List.append_nil, List.nil_append] using hsecond
  have hfill : fillIn list address backendUrlMark = address := by
    have hmark : fillIn list address (backendUrlMark ++ []) = address ++ fillIn list address [] :=
      fillIn_backendUrlMark
    rw [List.append_nil] at hmark
    rw [hmark]
    exact List.append_nil address
  have hcount : address.count 36 ≤ (format [] backendUrlMark [] address).count 36 := by
    rw [← hpage, h, hfill]
  exact Bytes.inert_of_count_le (by decide) List.not_mem_nil List.not_mem_nil hcount

/-- A single placeholder for the list, and what the first replacement makes of it. -/
theorem replaceMarks_single {x y : Bytes} (hx : 123 ∉ x) (hy : 123 ∉ y) :
    replaceMarks list address (x ++ (fileListMark ++ y)) =
      regexReplace backendUrlMark address (x ++ format x fileListMark y list ++ y) := by
  have habsent : ¬fileListMark <:+: y := fun h => hy (h.subset (by decide))
  rw [replaceMarks, Bytes.regexReplace_single (show fileListMark.head? = some 123 from rfl) hx
    habsent]

/-- What is filled in there. -/
theorem fillIn_single {x y : Bytes} (hx : 123 ∉ x) (hy : 123 ∉ y) :
    fillIn list address (x ++ (fileListMark ++ y)) = x ++ (list ++ y) := by
  have hcopy : ∀ (x rest : Bytes), 123 ∉ x →
      fillIn list address (x ++ rest) = x ++ fillIn list address rest := by
    intro x rest hx
    induction x with
    | nil => rfl
    | cons c x ih =>
      rw [List.mem_cons, not_or] at hx
      have hc : ∀ mark : Bytes, mark.head? = some 123 → ¬mark <+: c :: (x ++ rest) := by
        intro mark hmark hpre
        obtain ⟨tail, rfl⟩ := List.head?_eq_some_iff.mp hmark
        exact hx.1 (List.cons_prefix_cons.mp hpre).1
      rw [List.cons_append, fillIn_cons (hc _ rfl) (hc _ rfl), ih hx.2]
      rfl
  have hy := hcopy y [] hy
  rw [List.append_nil] at hy
  rw [hcopy x _ hx, fillIn_fileListMark, hy]
  exact congrArg (fun rest => x ++ (list ++ rest)) (List.append_nil y)

/-- A placeholder between two bytes `I` shows the escapes that insert something: no byte `I` is
    lost, and all that can be inserted has one. -/
theorem not_expands_list (haddress : Inert address)
    (h : replaceMarks list address ([73] ++ (fileListMark ++ [73])) =
      fillIn list address ([73] ++ (fileListMark ++ [73]))) :
    ∀ p ∈ pieces list, p.expands = false := by
  rw [replaceMarks_single (by decide) (by decide), fillIn_single (by decide) (by decide),
    Bytes.regexReplace_of_inert haddress] at h
  have hkeep : List.count 73 ([73] ++ format [73] fileListMark [73] list ++ [73]) ≤
      List.count 73 ([73] ++ (list ++ [73])) := by
    rw [← h]
    exact Bytes.count_le_count_replaceAll backendUrlMark_ne_nil (by decide)
  simp only [List.count_append] at hkeep
  have hcount : (format [73] fileListMark [73] list).count 73 ≤ list.count 73 := by omega
  exact Bytes.not_expands_of_count_le (by decide) (by decide) List.mem_cons_self
    List.mem_cons_self hcount

/-- Two splits of a list before different bytes: the longer first part has what the shorter has,
    and the byte behind it. -/
theorem count_lt_of_split {l₁ l₂ s₁ s₂ : Bytes} {c d : UInt8} (hcd : c ≠ d)
    (h : l₁ ++ c :: l₂ = s₁ ++ d :: s₂) (hlen : s₁.length ≤ l₁.length) :
    s₁.count d < l₁.count d := by
  obtain ⟨t, rfl⟩ : s₁ <+: l₁ :=
    List.prefix_of_prefix_length_le (List.prefix_append s₁ (d :: s₂))
      (h ▸ List.prefix_append l₁ (c :: l₂)) hlen
  rw [List.append_assoc, List.append_cancel_left_eq] at h
  cases t with
  | nil => exact absurd (List.cons.inj h).1 hcd
  | cons e t =>
    obtain ⟨rfl, -⟩ := List.cons.inj h
    rw [List.count_append, List.count_cons_self]
    omega

/-- Where no escape inserts anything, the template that is the placeholder of the list shows the
    other escapes, and a placeholder of the address in the list. -/
theorem inert_list (hstart : address.head? = some 104) (haddress : Inert address)
    (hexpands : ∀ p ∈ pieces list, p.expands = false)
    (h : replaceMarks list address fileListMark = fillIn list address fileListMark) :
    Inert list ∧ ¬backendUrlMark <:+: list := by
  have hpage : replaceMarks list address ([] ++ (fileListMark ++ [])) = _ :=
    replaceMarks_single List.not_mem_nil List.not_mem_nil
  have hfill : fillIn list address ([] ++ (fileListMark ++ [])) = _ :=
    fillIn_single List.not_mem_nil List.not_mem_nil
  simp only [List.nil_append, List.append_nil] at hpage hfill
  rw [hpage, hfill, Bytes.regexReplace_of_inert haddress] at h
  have habsent : ¬backendUrlMark <:+: format [] fileListMark [] list := by
    intro hin
    obtain ⟨s₁, s₂, hsplit, hreplaced⟩ := Bytes.exists_replaceAll_eq address
      backendUrlMark_ne_nil hin
    obtain ⟨tail, htail⟩ := List.head?_eq_some_iff.mp hstart
    have hmark : backendUrlMark = 123 :: backendUrlMark.tail := rfl
    rw [hmark, List.cons_append] at hsplit
    -- the brace of the placeholder stands further behind in the list than the address that
    -- replaces it, and the list has no more of the letter `h` before it
    obtain ⟨l₁, l₂, hl, hlen, hcount⟩ := Bytes.exists_of_flatMap_eq (d := 123) (by decide)
      (fun p hp => hp) hexpands hsplit
    rw [Bytes.flatMap_text_pieces] at hl
    rw [h, hl, htail, List.cons_append] at hreplaced
    have hlt := count_lt_of_split (by decide) hreplaced hlen
    have hle := hcount 104 (by decide)
    omega
  rw [Bytes.replaceAll_of_absent habsent] at h
  have hcount : list.count 36 ≤ (format [] fileListMark [] list).count 36 := by rw [h]
  rw [h] at habsent
  exact ⟨Bytes.inert_of_count_le (by decide) List.not_mem_nil List.not_mem_nil hcount, habsent⟩

/-! ## File names -/

/-- The name has no escape, and the url none with the quote that follows it, and the placeholder
    of the address is in neither. -/
def VerbatimFile (file : StorageInfo) : Prop :=
  Inert (listedName file) ∧ Inert (file.url_ ++ [39]) ∧ ¬backendUrlMark <:+: listedName file ∧
    ¬backendUrlMark <:+: file.url_

theorem not_mem_itemMiddle {zone : TimeZone} {file : StorageInfo} {b : UInt8}
    (hplain : isPlain b = false) (htag : isTagByte b = false) : b ∉ itemMiddle zone file := by
  intro h
  obtain h | h := mem_itemMiddle h
  · rw [hplain] at h
    cases h
  · rw [htag] at h
    cases h

/-- The quote that ends the url, and what follows it. -/
theorem itemEnd_eq : itemEnd = [39] ++ itemEnd.tail := rfl

/-- The escapes in an item are those in the name, and in the url with its quote. -/
theorem inert_fileItem_append (zone : TimeZone) (file : StorageInfo) (rest : Bytes) :
    Inert (fileItem zone file ++ rest) ↔
      (Inert (listedName file) ∧ Inert (file.url_ ++ [39])) ∧ Inert rest := by
  have hstart : Inert itemStart := Bytes.inert_of_not_mem (by decide)
  have hmiddle : Inert (itemMiddle zone file) :=
    Bytes.inert_of_not_mem (not_mem_itemMiddle (by decide) (by decide))
  have hend : Inert itemEnd.tail := Bytes.inert_of_not_mem (by decide)
  have hhead : ∀ rest, (itemMiddle zone file ++ rest).head? = some 60 := fun _ => rfl
  have hquote : (file.url_ ++ [39]).getLast? = some 39 := List.getLast?_concat
  rw [fileItem_eq, itemEnd_eq]
  simp only [List.append_assoc]
  rw [Bytes.inert_append_of_getLast (show itemStart.getLast? = some 132 by decide) (by decide),
    Bytes.inert_append_of_head (hhead _) (by decide),
    Bytes.inert_append_of_getLast (getLast?_itemMiddle zone file) (by decide),
    ← List.append_assoc file.url_, Bytes.inert_append_of_getLast hquote (by decide),
    Bytes.inert_append_of_getLast (show itemEnd.tail.getLast? = some 62 by decide) (by decide)]
  simp only [hstart, hmiddle, hend, true_and, and_assoc]

/-- The placeholders of the address in an item are those in the name and in the url. -/
theorem infix_fileItem_append (zone : TimeZone) (file : StorageInfo) (rest : Bytes) :
    backendUrlMark <:+: fileItem zone file ++ rest ↔
      (backendUrlMark <:+: listedName file ∨ backendUrlMark <:+: file.url_) ∨
        backendUrlMark <:+: rest := by
  have hbrace : ∀ a : Bytes, 123 ∉ a → ¬backendUrlMark <:+: a :=
    fun a ha hin => ha (hin.subset (by decide))
  have hstart : ¬backendUrlMark <:+: itemStart := hbrace itemStart (by decide)
  have hmiddle : ¬backendUrlMark <:+: itemMiddle zone file :=
    hbrace _ (not_mem_itemMiddle (by decide) (by decide))
  have hend : ¬backendUrlMark <:+: itemEnd := hbrace itemEnd (by decide)
  have hmiddleHead : ∀ rest, (itemMiddle zone file ++ rest).head? = some 60 := fun _ => rfl
  have hendHead : ∀ rest, (itemEnd ++ rest).head? = some 39 := fun _ => rfl
  rw [fileItem_eq]
  simp only [List.append_assoc]
  rw [List.infix_append_iff_of_getLast (show itemStart.getLast? = some 132 by decide) (by decide),
    List.infix_append_iff_of_head (hmiddleHead _) (by decide),
    List.infix_append_iff_of_getLast (getLast?_itemMiddle zone file) (by decide),
    List.infix_append_iff_of_head (hendHead _) (by decide),
    List.infix_append_iff_of_getLast (show itemEnd.getLast? = some 62 by decide) (by decide)]
  simp only [hstart, hmiddle, hend, false_or, or_assoc]

theorem inert_items_append (zone : TimeZone) (files : List StorageInfo) (rest : Bytes) :
    Inert (files.flatMap (fileItem zone) ++ rest) ↔
      (∀ file ∈ files, Inert (listedName file) ∧ Inert (file.url_ ++ [39])) ∧ Inert rest := by
  induction files with
  | nil => simp
  | cons file files ih =>
    rw [List.flatMap_cons, List.append_assoc, inert_fileItem_append, ih, List.forall_mem_cons]
    exact and_assoc.symm

theorem infix_items_append (zone : TimeZone) (files : List StorageInfo) (rest : Bytes) :
    backendUrlMark <:+: files.flatMap (fileItem zone) ++ rest ↔
      (∃ file ∈ files, backendUrlMark <:+: listedName file ∨ backendUrlMark <:+: file.url_) ∨
        backendUrlMark <:+: rest := by
  induction files with
  | nil => simp
  | cons file files ih =>
    rw [List.flatMap_cons, List.append_assoc, infix_fileItem_append, ih, List.exists_mem_cons_iff]
    exact or_assoc.symm

/-- A list is verbatim exactly where its files are. -/
theorem inert_generateModernFileList (zone : TimeZone) (files : List StorageInfo) :
    (Inert (generateModernFileList zone files) ∧
        ¬backendUrlMark <:+: generateModernFileList zone files) ↔
      ∀ file ∈ files, VerbatimFile file := by
  have hstart : Inert listStart := Bytes.inert_of_not_mem (by decide)
  have hend : Inert listEnd := Bytes.inert_of_not_mem (by decide)
  have hstart' : ¬backendUrlMark <:+: listStart := by decide
  have hend' : ¬backendUrlMark <:+: listEnd := by decide
  have hlast : listStart.getLast? = some 62 := by decide
  rw [generateModernFileList_eq, Bytes.inert_append_of_getLast hlast (by decide),
    inert_items_append, List.infix_append_iff_of_getLast hlast (by decide), infix_items_append]
  simp only [hstart, hend, hstart', hend', true_and, and_true, false_or, or_false, not_exists,
    not_and, not_or, VerbatimFile, ← forall_and, and_assoc]

/-- The escapes in the address are those in the name of the server. -/
theorem inert_backendUrl (serverIp : Bytes) (serverPort : Int) :
    Inert (backendUrl serverIp serverPort) ↔ Inert serverIp := by
  have hport : 36 ∉ Bytes.ofString (toString serverPort) := by
    intro h
    exact absurd (isPlain_of_mem_int h) (by decide)
  have hrest : Inert (Bytes.ofString ":" ++ Bytes.ofString (toString serverPort)) := by
    rw [Bytes.inert_append_of_getLast (show (Bytes.ofString ":").getLast? = some 58 by decide)
      (by decide)]
    exact ⟨Bytes.inert_of_not_mem (by decide), Bytes.inert_of_not_mem hport⟩
  have hhead : (Bytes.ofString ":" ++ Bytes.ofString (toString serverPort)).head? = some 58 := rfl
  have hscheme : Inert (Bytes.ofString "http://") := Bytes.inert_of_not_mem (by decide)
  rw [backendUrl, List.append_assoc, List.append_assoc,
    Bytes.inert_append_of_getLast (show (Bytes.ofString "http://").getLast? = some 47 by decide)
      (by decide), Bytes.inert_append_of_head hhead (by decide)]
  simp only [hscheme, hrest, true_and, and_true]

namespace Service

/-- Whatever the template is, `ListShow` sends it with its placeholders replaced by the list and
    by the address, exactly where no name and no url of a record has an escape or the placeholder
    of the address, and the name of the server has no escape. -/
theorem listShow_verbatim_iff (settings : PageSettings) (order : HashOrder) (s : Server) :
    (∀ template, (listShow { settings with templateContent := template } order s).replies =
      [{ plainReply 200 with
        body := fillIn (generateModernFileList settings.zone (DataManager.getAll s.table order))
          (backendUrl settings.serverIp settings.serverPort) template }]) ↔
      (∀ file ∈ s.table.records, VerbatimFile file) ∧ Inert settings.serverIp := by
  have hrecords : (∀ file ∈ s.table.records, VerbatimFile file) ↔
      ∀ file ∈ DataManager.getAll s.table order, VerbatimFile file := by
    simp only [DataManager.getAll, (order.perm s.table.records).mem_iff]
  have hreplies : ∀ template page,
      (listShow { settings with templateContent := template } order s).replies =
          [{ plainReply 200 with body := page }] ↔
        replaceMarks (generateModernFileList settings.zone (DataManager.getAll s.table order))
          (backendUrl settings.serverIp settings.serverPort) template = page := by
    intro template page
    simp only [listShow, List.cons.injEq, Reply.mk.injEq, true_and, and_true]
    rfl
  simp only [hreplies]
  rw [hrecords, ← inert_generateModernFileList settings.zone, 
    ← inert_backendUrl settings.serverIp settings.serverPort]
  constructor
  · intro h
    have haddress := inert_address (h backendUrlMark)
    have hexpands := not_expands_list haddress (h _)
    exact ⟨inert_list rfl haddress hexpands (h fileListMark), haddress⟩
  · rintro ⟨⟨hlist, habsent⟩, haddress⟩ template
    have hlast : (generateModernFileList settings.zone
        (DataManager.getAll s.table order)).getLast? = some 62 := by
      have hend : listEnd.getLast? = some 62 := by decide
      simp only [generateModernFileList_eq, List.getLast?_append, hend, Option.some_or]
    exact replaceMarks_eq_fillIn rfl hlast habsent hlist haddress

/-- A server that holds a file called `$&`, with the placeholder for the list as its template. -/
def dollarServer : Server where
  fs := ∅
  table := Table.empty.insert
    { mtime_ := 0
      atime_ := 0
      fsize_ := 1
      storage_path_ := Bytes.ofString "./low_storage/$&"
      url_ := Bytes.ofString "/download/$&" }

def dollarSettings : PageSettings where
  serverIp := Bytes.ofString "127.0.0.1"
  serverPort := 8081
  templateContent := fileListMark
  zone := default

set_option maxRecDepth 4096 in
/-- The name is replaced by the placeholder. -/
theorem listShow_expands_name :
    (listShow dollarSettings .held dollarServer).replies ≠
      [{ plainReply 200 with
        body := fillIn
          (generateModernFileList dollarSettings.zone
            (DataManager.getAll dollarServer.table .held))
          (backendUrl dollarSettings.serverIp dollarSettings.serverPort)
          dollarSettings.templateContent }] := by
  decide +kernel

end Service

end Storage
