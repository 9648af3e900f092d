import AsyncLogStorage.ForStd.Bytes
import Mathlib.Algebra.Order.BigOperators.Group.List
import Mathlib.Algebra.Order.Group.Nat
import Mathlib.Data.List.Chain

/-!
# Replacing a literal for the standard library

Replacing the occurrences of a literal by a byte string, verbatim (`Bytes.replaceAll`) and as
`std::regex_replace` does it with a pattern for the literal (`Bytes.regexReplace`), where the
replacement is a format in which `$` starts an escape.

## Key results

- `Bytes.inert_iff`: a format has no escapes exactly where no `$` stands before one of the bytes
  that make it an escape
- `Bytes.regexReplace_of_inert`: such a format is inserted verbatim
- `Bytes.exists_replaceAll_eq`: where the first occurrence is replaced
-/

namespace Bytes

/-! ## Verbatim replacement -/

/-- `s` from the byte at `skip` on, with `r` for each occurrence of `pat`. -/
def replaceFrom (pat r : Bytes) : Nat → Bytes → Bytes
  | _, [] => []
  | skip + 1, _ :: s => replaceFrom pat r skip s
  | 0, c :: s =>
    if pat <+: c :: s then r ++ replaceFrom pat r (pat.length - 1) s
    else c :: replaceFrom pat r 0 s

/-- `s` with `r` for each occurrence of `pat`, from the left. -/
def replaceAll (pat r s : Bytes) : Bytes := replaceFrom pat r 0 s

variable {pat r s : Bytes}

theorem replaceFrom_eq_drop (skip : Nat) :
    replaceFrom pat r skip s = replaceAll pat r (s.drop skip) := by
  induction skip generalizing s with
  | zero => rfl
  | succ skip ih =>
    cases s with
    | nil => rfl
    | cons c s => exact ih

@[simp] theorem replaceAll_nil : replaceAll pat r [] = [] := rfl

/-- An occurrence at the start is replaced. -/
theorem replaceAll_append_self (hpat : pat ≠ []) :
    replaceAll pat r (pat ++ s) = r ++ replaceAll pat r s := by
  cases pat with
  | nil => exact absurd rfl hpat
  | cons c pat =>
    have hpre : c :: pat <+: c :: (pat ++ s) := List.prefix_append (c :: pat) s
    rw [replaceAll, List.cons_append, replaceFrom, if_pos hpre, replaceFrom_eq_drop]
    simp

theorem replaceAll_cons {c : UInt8} (h : ¬pat <+: c :: s) :
    replaceAll pat r (c :: s) = c :: replaceAll pat r s := by
  rw [replaceAll, replaceFrom, if_neg h]
  rfl

/-- Where no occurrence starts in `t`, whatever follows it, it stays as it is. -/
theorem replaceAll_append_of_apart {t : Bytes}
    (h : ∀ l ∈ t.tails, l ≠ [] → ¬l <+: pat ∧ ¬pat <+: l) :
    replaceAll pat r (t ++ s) = t ++ replaceAll pat r s := by
  induction t with
  | nil => rfl
  | cons d t ih =>
    obtain ⟨hshort, hlong⟩ := h (d :: t) ((List.mem_tails _ _).mpr (List.suffix_refl _))
      (List.cons_ne_nil d t)
    have hnot : ¬pat <+: d :: (t ++ s) := by
      intro hpre
      obtain hpre | hpre := List.prefix_or_prefix_of_prefix hpre (List.prefix_append (d :: t) s)
      · exact hlong hpre
      · exact hshort hpre
    have hrest : ∀ l ∈ t.tails, l ≠ [] → ¬l <+: pat ∧ ¬pat <+: l := by
      intro l hl
      rw [List.mem_tails] at hl
      exact h l ((List.mem_tails _ _).mpr (hl.trans (List.suffix_cons d t)))
    rw [List.cons_append, replaceAll_cons hnot, ih hrest]
    rfl

/-- What ends in a byte that the pattern does not have, and has no occurrence, stays as it is. -/
theorem replaceAll_append_of_absent {l : Bytes} {c : UInt8} (hlast : l.getLast? = some c)
    (hc : c ∉ pat) (h : ¬pat <:+: l) : replaceAll pat r (l ++ s) = l ++ replaceAll pat r s := by
  apply replaceAll_append_of_apart
  intro t ht hne
  rw [List.mem_tails] at ht
  refine ⟨fun hpre => ?_, fun hpre => h (hpre.isInfix.trans ht.isInfix)⟩
  -- the last byte is in every part at the end
  have hlast' : t.getLast? = some c := by
    obtain ⟨u, rfl⟩ := ht
    rwa [List.getLast?_append_of_ne_nil u hne] at hlast
  exact hc (hpre.subset (List.mem_of_getLast? hlast'))

/-- Without an occurrence nothing is replaced. -/
theorem replaceAll_of_absent (h : ¬pat <:+: s) : replaceAll pat r s = s := by
  induction s with
  | nil => rfl
  | cons c s ih =>
    have hnot : ¬pat <+: c :: s := fun hpre => h hpre.isInfix
    rw [replaceAll_cons hnot,
      ih fun hin => h (hin.trans (List.suffix_cons c s).isInfix)]

/-- The first occurrence is replaced, and what follows it is searched on. -/
theorem exists_replaceAll_eq (r : Bytes) (hpat : pat ≠ []) (h : pat <:+: s) :
    ∃ s₁ s₂, s = s₁ ++ (pat ++ s₂) ∧ replaceAll pat r s = s₁ ++ (r ++ replaceAll pat r s₂) := by
  induction s with
  | nil => exact absurd (List.infix_nil.mp h) hpat
  | cons c s ih =>
    by_cases hpre : pat <+: c :: s
    · obtain ⟨s₂, hs₂⟩ := hpre
      exact ⟨[], s₂, hs₂.symm, by rw [← hs₂, replaceAll_append_self hpat]; rfl⟩
    · obtain hpre' | hin := List.infix_cons_iff.mp h
      · exact absurd hpre' hpre
      · obtain ⟨s₁, s₂, hs, hrep⟩ := ih hin
        refine ⟨c :: s₁, s₂, by rw [hs]; rfl, ?_⟩
        rw [replaceAll_cons hpre, hrep]
        rfl

/-- A byte that the pattern does not have is never lost. -/
theorem count_le_count_replaceAll (hpat : pat ≠ []) {c : UInt8} (hc : c ∉ pat) :
    s.count c ≤ (replaceAll pat r s).count c := by
  induction hlen : s.length using Nat.strong_induction_on generalizing s with
  | h n ih =>
    subst hlen
    cases s with
    | nil => exact Nat.le_refl _
    | cons d s =>
      by_cases hpre : pat <+: d :: s
      · obtain ⟨s₂, hs₂⟩ := hpre
        have hlt : s₂.length < (d :: s).length := by
          have := List.length_pos_iff.mpr hpat
          rw [← hs₂, List.length_append]
          omega
        have hrest := ih s₂.length hlt rfl
        rw [← hs₂, replaceAll_append_self hpat, List.count_append, List.count_append,
          List.count_eq_zero_of_not_mem hc]
        omega
      · have hrest := ih s.length (by simp) (s := s) rfl
        rw [replaceAll_cons hpre, List.count_cons, List.count_cons]
        omega

/-- A run without the byte that every replacement starts with is at the start of the result
    exactly where it was at the start before. -/
theorem prefix_of_prefix_replaceAll {l : Bytes} {c : UInt8} (hpat : pat ≠ [])
    (hr : r.head? = some c) (hc : c ∉ l) (h : l <+: replaceAll pat r s) : l <+: s := by
  induction l generalizing s with
  | nil => exact List.nil_prefix
  | cons d l ih =>
    cases s with
    | nil => exact h
    | cons e s =>
      by_cases hpre : pat <+: e :: s
      · obtain ⟨s₂, hs₂⟩ := hpre
        obtain ⟨r', rfl⟩ := List.head?_eq_some_iff.mp hr
        rw [← hs₂, replaceAll_append_self hpat] at h
        obtain ⟨rfl, -⟩ := List.cons_prefix_cons.mp h
        exact absurd List.mem_cons_self hc
      · rw [replaceAll_cons hpre] at h
        obtain ⟨rfl, hl⟩ := List.cons_prefix_cons.mp h
        exact List.cons_prefix_cons.mpr
          ⟨rfl, ih (fun hmem => hc (List.mem_cons_of_mem _ hmem)) hl⟩

/-! ## Formats -/

/-- One item of a format. -/
inductive Piece where
  | copy (c : UInt8)
  /-- `$$` -/
  | dollar
  /-- `$&` -/
  | whole
  /-- A dollar and a backtick, for what stands before the match. -/
  | before
  /-- `$'`, for what stands behind it. -/
  | behind
  /-- `$` and one or two digits, the number of a group. -/
  | group (ds : Bytes)
deriving DecidableEq, Repr

/-- What stands in the format. -/
def Piece.text : Piece → Bytes
  | .copy c => [c]
  | .dollar => [36, 36]
  | .whole => [36, 38]
  | .before => [36, 96]
  | .behind => [36, 39]
  | .group ds => 36 :: ds

/-- What is inserted for it. Group 0 is the match, and a pattern for a literal has no others. -/
def Piece.render (pre match_ suf : Bytes) : Piece → Bytes
  | .copy c => [c]
  | .dollar => [36]
  | .whole => match_
  | .before => pre
  | .behind => suf
  | .group ds => if ds.all (· = 48) then match_ else []

def isDigit (c : UInt8) : Bool := decide (48 ≤ c ∧ c ≤ 57)

/-- The items of a format. -/
def pieces : Bytes → List Piece
  | [] => []
  | [c] => [.copy c]
  | c :: d :: fmt =>
    if c ≠ 36 then .copy c :: pieces (d :: fmt)
    else if d = 36 then .dollar :: pieces fmt
    else if d = 38 then .whole :: pieces fmt
    else if d = 96 then .before :: pieces fmt
    else if d = 39 then .behind :: pieces fmt
    else if isDigit d then
      match fmt with
      | [] => [.group [d]]
      | e :: fmt =>
        if isDigit e then .group [d, e] :: pieces fmt else .group [d] :: pieces (e :: fmt)
    else .copy c :: pieces (d :: fmt)

/-- `match_results::format` of a match with one group. -/
def format (pre match_ suf fmt : Bytes) : Bytes :=
  (pieces fmt).flatMap (Piece.render pre match_ suf)

/-- `std::regex_replace` with a pattern for the literal `pat`, behind the first `skip` bytes of
    `s`. Since the last match, `pre` was passed. -/
def regexReplaceFrom (pat fmt : Bytes) : Nat → Bytes → Bytes → Bytes
  | _, pre, [] => pre
  | skip + 1, pre, _ :: s => regexReplaceFrom pat fmt skip pre s
  | 0, pre, c :: s =>
    if pat <+: c :: s then
      pre ++ format pre pat ((c :: s).drop pat.length) fmt ++
        regexReplaceFrom pat fmt (pat.length - 1) [] s
    else regexReplaceFrom pat fmt 0 (pre ++ [c]) s

def regexReplace (pat fmt s : Bytes) : Bytes := regexReplaceFrom pat fmt 0 [] s

/-- The bytes that make an escape of a `$` before them. -/
def Special (c : UInt8) : Prop := c = 36 ∨ c = 38 ∨ c = 96 ∨ c = 39 ∨ isDigit c = true

instance (c : UInt8) : Decidable (Special c) := by
  unfold Special
  infer_instance

/-- No `$` stands before a byte that makes an escape of it. -/
def Inert (fmt : Bytes) : Prop := fmt.IsChain (fun c d => c = 36 → ¬Special d)

/-! ## The items of a format -/

variable {fmt pre match_ suf : Bytes}

theorem flatMap_text_pieces (fmt : Bytes) : (pieces fmt).flatMap Piece.text = fmt := by
  fun_induction pieces fmt <;> simp_all [Piece.text]

theorem isDigit_of_group {ds : Bytes} (h : Piece.group ds ∈ pieces fmt) :
    ∀ b ∈ ds, isDigit b = true := by
  fun_induction pieces fmt <;> grind

/-- A format has no escapes exactly where all its items are copied. -/
theorem inert_iff : Inert fmt ↔ ∀ p ∈ pieces fmt, ∃ c, p = .copy c := by
  unfold Inert
  fun_induction pieces fmt <;> simp_all [Special, List.isChain_cons]

/-- A format without escapes is inserted as it is. -/
theorem format_of_inert (h : Inert fmt) : format pre match_ suf fmt = fmt := by
  have htext : (pieces fmt).flatMap (Piece.render pre match_ suf) =
      (pieces fmt).flatMap Piece.text := by
    apply List.flatMap_congr
    intro p hp
    obtain ⟨c, rfl⟩ := inert_iff.mp h p hp
    rfl
  rw [format, htext, flatMap_text_pieces]

/-- A byte that makes no escape is part of none. -/
theorem not_mem_text {p : Piece} {c : UInt8} (hp : p ∈ pieces fmt) (hc : ¬Special c)
    (hesc : ∀ d, p ≠ .copy d) : c ∉ p.text := by
  simp only [Special, not_or] at hc
  cases p with
  | copy d => exact absurd rfl (hesc d)
  | dollar => simp [Piece.text, hc.1]
  | whole => simp [Piece.text, hc.1, hc.2.1]
  | before => simp [Piece.text, hc.1, hc.2.2.1]
  | behind => simp [Piece.text, hc.1, hc.2.2.2.1]
  | group ds =>
    simp only [Piece.text, List.mem_cons, hc.1, false_or]
    exact fun hmem => hc.2.2.2.2 (isDigit_of_group hp c hmem)

/-- So it is not lost. -/
theorem count_text_le_render (pre match_ suf : Bytes) {p : Piece} {c : UInt8}
    (hp : p ∈ pieces fmt) (hc : ¬Special c) :
    p.text.count c ≤ (p.render pre match_ suf).count c := by
  by_cases hcopy : ∃ d, p = .copy d
  · obtain ⟨d, rfl⟩ := hcopy
    exact Nat.le_refl _
  · rw [List.count_eq_zero_of_not_mem (not_mem_text hp hc fun d hd => hcopy ⟨d, hd⟩)]
    exact Nat.zero_le _

/-- The escapes that insert something of the subject. -/
def Piece.expands : Piece → Bool
  | .copy _ => false
  | .dollar => false
  | .whole => true
  | .before => true
  | .behind => true
  | .group ds => ds.all (· = 48)

/-- An escape that inserts something shows in the count of a byte of all that can be inserted. -/
theorem not_expands_of_count_le {c : UInt8} (hc : ¬Special c) (hmatch : c ∈ match_)
    (hpre : c ∈ pre) (hsuf : c ∈ suf)
    (h : (format pre match_ suf fmt).count c ≤ fmt.count c) :
    ∀ p ∈ pieces fmt, p.expands = false := by
  intro p hp
  cases hexp : p.expands with
  | false => rfl
  | true =>
    have hesc : ∀ d, p ≠ .copy d := by
      rintro d rfl
      cases hexp
    have hin : c ∈ p.render pre match_ suf := by
      cases p with
      | copy d => cases hexp
      | dollar => cases hexp
      | whole => exact hmatch
      | before => exact hpre
      | behind => exact hsuf
      | group ds =>
        simp only [Piece.expands] at hexp
        simp only [Piece.render, hexp, ↓reduceIte]
        exact hmatch
    have hlt : p.text.count c < (p.render pre match_ suf).count c := by
      rw [List.count_eq_zero_of_not_mem (not_mem_text hp hc hesc)]
      exact List.count_pos_iff.mpr hin
    have hsum : fmt.count c < (format pre match_ suf fmt).count c := by
      conv_lhs => rw [← flatMap_text_pieces fmt]
      rw [format, List.count_flatMap, List.count_flatMap]
      exact List.sum_lt_sum _ _ (fun q hq => count_text_le_render pre match_ suf hq hc) ⟨p, hp, hlt⟩
    omega

/-- What is inserted for an escape has fewer `$` than the escape. -/
theorem copy_or_count_lt (hmatch : 36 ∉ match_) (hpre : 36 ∉ pre) (hsuf : 36 ∉ suf) (p : Piece) :
    (∃ c, p = .copy c) ∨ (p.render pre match_ suf).count 36 < p.text.count 36 := by
  have hm := List.count_eq_zero_of_not_mem hmatch
  have hp := List.count_eq_zero_of_not_mem hpre
  have hs := List.count_eq_zero_of_not_mem hsuf
  cases p with
  | copy c => exact .inl ⟨c, rfl⟩
  | dollar => exact .inr (Nat.lt_succ_self 1)
  | whole => exact .inr (by simp [Piece.text, Piece.render, hm])
  | before => exact .inr (by simp [Piece.text, Piece.render, hp])
  | behind => exact .inr (by simp [Piece.text, Piece.render, hs])
  | group ds =>
    right
    simp only [Piece.text, Piece.render, List.count_cons_self]
    split
    · omega
    · exact Nat.succ_pos _

/-- A format that loses no `$` has no escapes. -/
theorem inert_of_count_le (hmatch : 36 ∉ match_) (hpre : 36 ∉ pre) (hsuf : 36 ∉ suf)
    (h : fmt.count 36 ≤ (format pre match_ suf fmt).count 36) : Inert fmt := by
  rw [inert_iff]
  intro p hp
  obtain hcopy | hlt := copy_or_count_lt hmatch hpre hsuf p
  · exact hcopy
  · have hle : ∀ q ∈ pieces fmt, (q.render pre match_ suf).count 36 ≤ q.text.count 36 := by
      intro q _
      obtain ⟨c, rfl⟩ | hlt := copy_or_count_lt hmatch hpre hsuf q
      · exact Nat.le_refl _
      · exact hlt.le
    have hsum : (format pre match_ suf fmt).count 36 < fmt.count 36 := by
      conv_rhs => rw [← flatMap_text_pieces fmt]
      rw [format, List.count_flatMap, List.count_flatMap]
      exact List.sum_lt_sum _ _ hle ⟨p, hp, hlt⟩
    omega

/-- An item that inserts nothing of the subject is copied, or leaves a `$` or nothing. -/
theorem render_cases (pre match_ suf : Bytes) {p : Piece} (h : p.expands = false) :
    (∃ c, p = .copy c) ∨ p.render pre match_ suf = [36] ∨ p.render pre match_ suf = [] := by
  cases p with
  | copy c => exact .inl ⟨c, rfl⟩
  | dollar => exact .inr (.inl rfl)
  | whole => cases h
  | before => cases h
  | behind => cases h
  | group ds =>
    simp only [Piece.expands] at h
    exact .inr (.inr (by simp only [Piece.render, h, Bool.false_eq_true, ↓reduceIte]))

/-- Where no escape inserts anything, what stands before a byte of the result comes from at least
    as many bytes of the format, and has all of them that make no escapes. -/
theorem exists_of_flatMap_eq {ps : List Piece} {f₁ f₂ : Bytes} {d : UInt8} (hd : d ≠ 36)
    (hps : ∀ p ∈ ps, p ∈ pieces fmt) (h : ∀ p ∈ ps, p.expands = false)
    (heq : ps.flatMap (Piece.render pre match_ suf) = f₁ ++ d :: f₂) :
    ∃ l₁ l₂, ps.flatMap Piece.text = l₁ ++ d :: l₂ ∧ f₁.length ≤ l₁.length ∧
      ∀ c, ¬Special c → l₁.count c ≤ f₁.count c := by
  induction ps generalizing f₁ with
  | nil => simp at heq
  | cons p ps ih =>
    have hp := hps p List.mem_cons_self
    have ih := fun f₁ => @ih f₁ (fun q hq => hps q (List.mem_cons_of_mem p hq))
      fun q hq => h q (List.mem_cons_of_mem p hq)
    have hcount := fun c => count_text_le_render pre match_ suf (c := c) hp
    have hrender := render_cases pre match_ suf (h p List.mem_cons_self)
    have hpos : 0 < p.text.length := by cases p <;> simp [Piece.text]
    -- the byte stands behind what the first piece makes
    have hbehind : ∀ f₀ f, f₁ = f₀ ++ f → p.render pre match_ suf = f₀ → f₀.length ≤ p.text.length →
        ps.flatMap (Piece.render pre match_ suf) = f ++ d :: f₂ →
        ∃ l₁ l₂, p.text ++ ps.flatMap Piece.text = l₁ ++ d :: l₂ ∧ f₁.length ≤ l₁.length ∧
          ∀ c, ¬Special c → l₁.count c ≤ f₁.count c := by
      intro f₀ f hf₁ hf₀ hlen₀ hrest
      obtain ⟨l₁, l₂, hl, hlen, hle⟩ := ih f hrest
      refine ⟨p.text ++ l₁, l₂, by rw [hl, List.append_assoc], ?_, ?_⟩
      · rw [hf₁, List.length_append, List.length_append]
        omega
      · intro b hb
        have htext := hcount b hb
        have hrest := hle b hb
        rw [hf₀] at htext
        rw [hf₁, List.count_append, List.count_append]
        omega
    rw [List.flatMap_cons] at heq ⊢
    obtain ⟨c, rfl⟩ | hone | hnone := hrender
    · cases f₁ with
      | nil =>
        obtain ⟨rfl, -⟩ := List.cons.inj heq
        exact ⟨[], _, rfl, Nat.le_refl _, fun _ _ => Nat.le_refl _⟩
      | cons b f₁ =>
        obtain ⟨rfl, hf⟩ := List.cons.inj heq
        exact hbehind [c] f₁ rfl rfl (Nat.le_refl _) hf
    · -- a `$` is left of at least two bytes
      rw [hone] at heq
      cases f₁ with
      | nil => exact absurd (List.cons.inj heq).1 (Ne.symm hd)
      | cons b f₁ =>
        obtain ⟨rfl, hf⟩ := List.cons.inj heq
        exact hbehind [36] f₁ rfl hone hpos hf
    · rw [hnone] at heq
      exact hbehind [] f₁ rfl hnone (Nat.zero_le _) heq

/-! ## Formats in parts -/

theorem inert_of_not_mem {a : Bytes} (h : 36 ∉ a) : Inert a := by
  unfold Inert
  induction a with
  | nil => exact .nil
  | cons c a ih =>
    rw [List.mem_cons, not_or] at h
    rw [List.isChain_cons]
    exact ⟨fun _ _ hc => absurd hc.symm h.1, ih h.2⟩

/-- Two parts make an escape only where the first one ends in a `$`. -/
theorem inert_append {a b : Bytes} :
    Inert (a ++ b) ↔
      Inert a ∧ Inert b ∧ (a.getLast? = some 36 → ∀ c, b.head? = some c → ¬Special c) := by
  unfold Inert
  rw [List.isChain_append]
  simp only [Option.mem_def]
  constructor
  · rintro ⟨ha, hb, h⟩
    exact ⟨ha, hb, fun hlast c hc => h 36 hlast c hc rfl⟩
  · rintro ⟨ha, hb, h⟩
    refine ⟨ha, hb, fun x hx y hy hdollar => ?_⟩
    rw [hdollar] at hx
    exact h hx y hy

theorem inert_append_of_getLast {a b : Bytes} {c : UInt8} (hlast : a.getLast? = some c)
    (hc : c ≠ 36) : Inert (a ++ b) ↔ Inert a ∧ Inert b := by
  rw [inert_append]
  constructor
  · rintro ⟨ha, hb, -⟩
    exact ⟨ha, hb⟩
  · rintro ⟨ha, hb⟩
    refine ⟨ha, hb, fun hdollar => ?_⟩
    rw [hlast] at hdollar
    exact absurd (Option.some.inj hdollar) hc

theorem inert_append_of_head {a b : Bytes} {c : UInt8} (hhead : b.head? = some c)
    (hc : ¬Special c) : Inert (a ++ b) ↔ Inert a ∧ Inert b := by
  rw [inert_append]
  constructor
  · rintro ⟨ha, hb, -⟩
    exact ⟨ha, hb⟩
  · rintro ⟨ha, hb⟩
    refine ⟨ha, hb, fun _ d hd => ?_⟩
    rw [hhead] at hd
    rwa [← Option.some.inj hd]

/-! ## Replacing by a format -/

theorem regexReplaceFrom_eq_drop (skip : Nat) :
    regexReplaceFrom pat fmt skip pre s = regexReplaceFrom pat fmt 0 pre (s.drop skip) := by
  induction skip generalizing s with
  | zero => rfl
  | succ skip ih =>
    cases s with
    | nil => rfl
    | cons c s => exact ih

/-- What was passed since the last match goes first. -/
theorem regexReplaceFrom_of_inert (h : Inert fmt) (skip : Nat) :
    regexReplaceFrom pat fmt skip pre s = pre ++ replaceFrom pat fmt skip s := by
  induction s generalizing skip pre with
  | nil => simp only [regexReplaceFrom, replaceFrom, List.append_nil]
  | cons c s ih =>
    cases skip with
    | succ skip => exact ih skip
    | zero =>
      unfold regexReplaceFrom replaceFrom
      split
      · rw [format_of_inert h, ih, List.append_assoc, List.nil_append]
      · rw [ih, List.append_assoc, List.singleton_append]

/-- A format without escapes is inserted verbatim. -/
theorem regexReplace_of_inert (h : Inert fmt) : regexReplace pat fmt s = replaceAll pat fmt s :=
  regexReplaceFrom_of_inert h 0

theorem regexReplaceFrom_of_absent (h : ¬pat <:+: s) :
    regexReplaceFrom pat fmt 0 pre s = pre ++ s := by
  induction s generalizing pre with
  | nil => simp only [regexReplaceFrom, List.append_nil]
  | cons c s ih =>
    have hnot : ¬pat <+: c :: s := fun hpre => h hpre.isInfix
    rw [regexReplaceFrom, if_neg hnot, ih fun hin => h (hin.trans (List.suffix_cons c s).isInfix),
      List.append_assoc, List.singleton_append]

/-- A single occurrence is replaced by the format, rendered with what stands around it. -/
theorem regexReplaceFrom_single {x y : Bytes} {c : UInt8} (hpat : pat.head? = some c) (hx : c ∉ x)
    (hy : ¬pat <:+: y) :
    regexReplaceFrom pat fmt 0 pre (x ++ (pat ++ y)) =
      (pre ++ x) ++ format (pre ++ x) pat y fmt ++ y := by
  obtain ⟨rest, rfl⟩ := List.head?_eq_some_iff.mp hpat
  induction x generalizing pre with
  | nil =>
    have hpre : c :: rest <+: c :: (rest ++ y) := List.prefix_append (c :: rest) y
    rw [List.nil_append, List.cons_append, regexReplaceFrom, if_pos hpre,
      regexReplaceFrom_eq_drop, List.append_nil]
    simp [regexReplaceFrom_of_absent hy]
  | cons d x ih =>
    rw [List.mem_cons, not_or] at hx
    have hnot : ¬c :: rest <+: d :: (x ++ (c :: rest ++ y)) :=
      fun hpre => hx.1 (List.cons_prefix_cons.mp hpre).1
    rw [List.cons_append, regexReplaceFrom, if_neg hnot, ih hx.2, List.append_assoc pre,
      List.singleton_append]

theorem regexReplace_single {x y : Bytes} {c : UInt8} (hpat : pat.head? = some c) (hx : c ∉ x)
    (hy : ¬pat <:+: y) :
    regexReplace pat fmt (x ++ (pat ++ y)) = x ++ format x pat y fmt ++ y := by
  rw [regexReplace, regexReplaceFrom_single hpat hx hy, List.nil_append]

end Bytes
