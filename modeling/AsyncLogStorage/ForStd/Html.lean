import AsyncLogStorage.ForStd.Bytes

/-!
# Tags and attributes for the standard library

How a browser finds the tags and the attributes of a page, byte by byte, and where a string of a
script ends that stands in an attribute. The elements whose contents are no markup (`script` and
its like) are not told apart here.

## Key results

- `Html.Reads.append`: texts that are read one after the other
- `Html.within_text_iff`: a text opens no tag exactly where no `<` in it stands before one of the
  bytes that make it a tag
- `Html.within_value_iff`: a text stays in a quoted value exactly where it has no such quote
- `Html.stringRest_iff`: the texts that a script may have between two quotes
-/

namespace Html

/-! ## The tokenizer -/

/-- How a value is quoted. -/
inductive Quote
  | double
  | single
  | none
deriving DecidableEq, Repr

/-- Where the tokenizer stands. -/
inductive State
  | data
  /-- Behind `<`. -/
  | tagOpen
  /-- Behind `</`. -/
  | endTagOpen
  | tagName (isEnd : Bool) (name : Bytes)
  | beforeAttribute
  | attributeName (name : Bytes)
  | afterAttributeName (name : Bytes)
  | beforeValue (name : Bytes)
  | value (quote : Quote) (name value : Bytes)
  /-- Behind the quote that ends a value. -/
  | afterValue
  /-- Behind `/` in a tag. -/
  | selfClosing
  /-- Behind `<!`. -/
  | declaration
  /-- Behind `<!-`. -/
  | declarationDash
  | bogusComment
  | commentStart
  | commentStartDash
  | comment
  | commentEndDash
  | commentEnd
  | commentEndBang
deriving DecidableEq, Repr

/-- What the tokenizer finds. -/
inductive Boundary
  | startTag (name : Bytes)
  | endTag (name : Bytes)
  | attribute (name : Bytes)
  | valueEnd
  | tagEnd
  | comment
deriving DecidableEq, Repr

def isSpace (b : UInt8) : Bool := b = 9 ∨ b = 10 ∨ b = 12 ∨ b = 13 ∨ b = 32

def isLetter (b : UInt8) : Bool := (65 ≤ b ∧ b ≤ 90) ∨ (97 ≤ b ∧ b ≤ 122)

def lower (b : UInt8) : UInt8 := if 65 ≤ b ∧ b ≤ 90 then b + 32 else b

/-- The bytes that make a `<` before them the start of a tag or of a comment. -/
def opensTag (b : UInt8) : Bool := b = 33 ∨ b = 47 ∨ b = 63 ∨ isLetter b

def tag (isEnd : Bool) (name : Bytes) : Boundary := if isEnd then .endTag name else .startTag name

/-- A byte where an attribute or the end of the tag is expected. -/
def stepInTag (b : UInt8) : State × List Boundary :=
  if isSpace b then (.beforeAttribute, [])
  else if b = 47 then (.selfClosing, [])
  else if b = 62 then (.data, [.tagEnd])
  -- even a quote is part of a name here
  else (.attributeName [lower b], [])

/-- A byte behind `<`. -/
def stepTagOpen (b : UInt8) : State × List Boundary :=
  if b = 33 then (.declaration, [.comment])
  else if b = 47 then (.endTagOpen, [])
  else if b = 63 then (.bogusComment, [.comment])
  else if isLetter b then (.tagName false [lower b], [])
  -- the `<` before this byte was text
  else if b = 60 then (.tagOpen, [])
  else (.data, [])

/-- A byte in a comment. -/
def stepComment (b : UInt8) : State × List Boundary :=
  if b = 45 then (.commentEndDash, []) else (.comment, [])

def stepBogusComment (b : UInt8) : State × List Boundary :=
  if b = 62 then (.data, []) else (.bogusComment, [])

/-- A byte of the page. -/
def step : State → UInt8 → State × List Boundary
  | .data, b => if b = 60 then (.tagOpen, []) else (.data, [])
  | .tagOpen, b => stepTagOpen b
  | .endTagOpen, b =>
    if isLetter b then (.tagName true [lower b], [])
    -- `</>` is passed over
    else if b = 62 then (.data, [])
    else (.bogusComment, [.comment])
  | .tagName isEnd name, b =>
    if isSpace b then (.beforeAttribute, [tag isEnd name])
    else if b = 47 then (.selfClosing, [tag isEnd name])
    else if b = 62 then (.data, [tag isEnd name, .tagEnd])
    else (.tagName isEnd (name ++ [lower b]), [])
  | .beforeAttribute, b => stepInTag b
  | .attributeName name, b =>
    if isSpace b then (.afterAttributeName name, [.attribute name])
    else if b = 47 then (.selfClosing, [.attribute name])
    else if b = 61 then (.beforeValue name, [.attribute name])
    else if b = 62 then (.data, [.attribute name, .tagEnd])
    else (.attributeName (name ++ [lower b]), [])
  | .afterAttributeName name, b =>
    if isSpace b then (.afterAttributeName name, [])
    else if b = 61 then (.beforeValue name, [])
    else stepInTag b
  | .beforeValue name, b =>
    if isSpace b then (.beforeValue name, [])
    else if b = 34 then (.value .double name [], [])
    else if b = 39 then (.value .single name [], [])
    else if b = 62 then (.data, [.tagEnd])
    else (.value .none name [b], [])
  | .value .double name value, b =>
    if b = 34 then (.afterValue, [.valueEnd]) else (.value .double name (value ++ [b]), [])
  | .value .single name value, b =>
    if b = 39 then (.afterValue, [.valueEnd]) else (.value .single name (value ++ [b]), [])
  | .value .none name value, b =>
    if isSpace b then (.beforeAttribute, [.valueEnd])
    else if b = 62 then (.data, [.valueEnd, .tagEnd])
    else (.value .none name (value ++ [b]), [])
  | .afterValue, b => stepInTag b
  | .selfClosing, b => stepInTag b
  | .declaration, b => if b = 45 then (.declarationDash, []) else stepBogusComment b
  | .declarationDash, b => if b = 45 then (.commentStart, []) else stepBogusComment b
  | .bogusComment, b => stepBogusComment b
  | .commentStart, b =>
    -- `<!-->` and `<!--->` are comments, too
    if b = 45 then (.commentStartDash, []) else if b = 62 then (.data, []) else (.comment, [])
  | .commentStartDash, b =>
    if b = 45 then (.commentEnd, []) else if b = 62 then (.data, []) else (.comment, [])
  | .comment, b => stepComment b
  | .commentEndDash, b => if b = 45 then (.commentEnd, []) else (.comment, [])
  | .commentEnd, b =>
    if b = 45 then (.commentEnd, [])
    else if b = 33 then (.commentEndBang, [])
    else if b = 62 then (.data, [])
    else (.comment, [])
  | .commentEndBang, b => if b = 62 then (.data, []) else stepComment b

/-- Where the tokenizer stands behind a text. -/
def stateAfter (s : State) : Bytes → State
  | [] => s
  | b :: t => stateAfter (step s b).1 t

/-- What the tokenizer finds in a text. -/
def boundaries (s : State) : Bytes → List Boundary
  | [] => []
  | b :: t => (step s b).2 ++ boundaries (step s b).1 t

theorem stateAfter_append (s : State) (t u : Bytes) :
    stateAfter s (t ++ u) = stateAfter (stateAfter s t) u := by
  induction t generalizing s with
  | nil => rfl
  | cons b t ih => exact ih _

theorem boundaries_append (s : State) (t u : Bytes) :
    boundaries s (t ++ u) = boundaries s t ++ boundaries (stateAfter s t) u := by
  induction t generalizing s with
  | nil => rfl
  | cons b t ih =>
    rw [List.cons_append, boundaries, ih, boundaries, stateAfter, List.append_assoc]

/-- The tokenizer reads `t` from `s` to `s'`, and finds `found`. -/
def Reads (s : State) (t : Bytes) (s' : State) (found : List Boundary) : Prop :=
  stateAfter s t = s' ∧ boundaries s t = found

instance (s : State) (t : Bytes) (s' : State) (found : List Boundary) :
    Decidable (Reads s t s' found) := inferInstanceAs (Decidable (_ ∧ _))

theorem Reads.nil (s : State) : Reads s [] s [] := ⟨rfl, rfl⟩

theorem Reads.cons {s s₁ s₂ : State} {b : UInt8} {t : Bytes} {found found' : List Boundary}
    (hstep : step s b = (s₁, found)) (h : Reads s₁ t s₂ found') :
    Reads s (b :: t) s₂ (found ++ found') := by
  obtain ⟨hstate, hfound⟩ := h
  constructor
  · rw [stateAfter, hstep, hstate]
  · rw [boundaries, hstep, hfound]

theorem Reads.append {s s₁ s₂ : State} {t u : Bytes} {found found' : List Boundary}
    (h : Reads s t s₁ found) (h' : Reads s₁ u s₂ found') :
    Reads s (t ++ u) s₂ (found ++ found') := by
  obtain ⟨hstate, hfound⟩ := h
  obtain ⟨hstate', hfound'⟩ := h'
  constructor
  · rw [stateAfter_append, hstate, hstate']
  · rw [boundaries_append, hstate, hfound, hfound']

/-- Texts that all read alike, one after the other. -/
theorem Reads.flatMap {α : Type} {s : State} {f : α → Bytes} {found : List Boundary} {l : List α}
    (h : ∀ a ∈ l, Reads s (f a) s found) :
    Reads s (l.flatMap f) s (List.replicate l.length found).flatten := by
  induction l with
  | nil => exact Reads.nil s
  | cons a l ih =>
    have ha := h a List.mem_cons_self
    have hl := ih fun a' ha' => h a' (List.mem_cons_of_mem a ha')
    rw [List.flatMap_cons, List.length_cons, List.replicate_succ, List.flatten_cons]
    exact ha.append hl

/-- The tokenizer stands where `P` says before each byte of `t`, and behind it. -/
def Within (P : State → Prop) (s : State) (t : Bytes) : Prop :=
  ∀ u, u <+: t → P (stateAfter s u)

theorem within_nil {P : State → Prop} {s : State} : Within P s [] ↔ P s := by
  constructor
  · intro h
    exact h [] List.prefix_rfl
  · intro h u hu
    rw [List.prefix_nil.mp hu]
    exact h

theorem within_cons {P : State → Prop} {s : State} {b : UInt8} {t : Bytes} :
    Within P s (b :: t) ↔ P s ∧ Within P (step s b).1 t := by
  constructor
  · intro h
    exact ⟨h [] (List.nil_prefix), fun u hu => h (b :: u) (List.cons_prefix_cons.mpr ⟨rfl, hu⟩)⟩
  · rintro ⟨hs, ht⟩ u hu
    cases u with
    | nil => exact hs
    | cons c u =>
      obtain ⟨rfl, hpre⟩ := List.cons_prefix_cons.mp hu
      exact ht u hpre

/-! ## Text -/

/-- The tokenizer stands in a text, perhaps behind a `<`. -/
def State.IsText (s : State) : Prop := s = .data ∨ s = .tagOpen

/-- No `<` in the text is the start of a tag or of a comment. -/
def OpensNoTag (t : Bytes) : Prop := ∀ b, opensTag b = true → ¬[60, b] <:+: t

/-- A `<` behind a text is read as one at its start. -/
theorem step_lt_of_isText {s : State} (h : s.IsText) : step s 60 = (.tagOpen, []) := by
  obtain rfl | rfl := h
  · rfl
  · rfl

theorem stepTagOpen_of_not_opensTag {b : UInt8} (h : opensTag b = false) :
    stepTagOpen b = step .data b := by
  simp only [opensTag, decide_eq_false_iff_not, not_or] at h
  obtain ⟨h33, h47, h63, hletter⟩ := h
  rw [stepTagOpen, if_neg h33, if_neg h47, if_neg h63, if_neg hletter]
  rfl

theorem not_isText_stepTagOpen {b : UInt8} (h : opensTag b = true) :
    ¬(stepTagOpen b).1.IsText := by
  simp only [opensTag, decide_eq_true_eq] at h
  unfold stepTagOpen State.IsText
  grind

theorem opensNoTag_cons_of_ne {b : UInt8} {t : Bytes} (h : b ≠ 60) :
    OpensNoTag (b :: t) ↔ OpensNoTag t := by
  have hfirst : ∀ c, ¬[60, c] <+: b :: t := by
    intro c hpre
    exact h (List.cons_prefix_cons.mp hpre).1.symm
  simp only [OpensNoTag, List.infix_cons_iff, hfirst, false_or]

theorem opensNoTag_lt_cons {b : UInt8} {t : Bytes} :
    OpensNoTag (60 :: b :: t) ↔ opensTag b = false ∧ OpensNoTag (b :: t) := by
  have hfirst : ∀ c, [60, c] <+: 60 :: b :: t ↔ c = b := by
    intro c
    simp only [List.cons_prefix_cons, List.nil_prefix, true_and, and_true]
  have hsplit : ∀ c, [60, c] <:+: 60 :: b :: t ↔ c = b ∨ [60, c] <:+: b :: t := by
    intro c
    rw [List.infix_cons_iff, hfirst]
  simp only [OpensNoTag, hsplit, not_or, ← Bool.not_eq_true]
  constructor
  · intro h
    exact ⟨fun hb => (h b hb).1 rfl, fun c hc => (h c hc).2⟩
  · rintro ⟨hb, ht⟩ c hc
    exact ⟨fun heq => hb (heq ▸ hc), ht c hc⟩

/-- A text opens no tag exactly where the tokenizer stays in it. -/
theorem within_text_iff {t : Bytes} : Within State.IsText .data t ↔ OpensNoTag t := by
  -- behind a `<`, it is as if the text started there
  suffices h : (Within State.IsText .data t ↔ OpensNoTag t) ∧
      (Within State.IsText .tagOpen t ↔ OpensNoTag (60 :: t)) from h.1
  have hdata : State.IsText .data := .inl rfl
  have htagOpen : State.IsText .tagOpen := .inr rfl
  induction t with
  | nil =>
    have hnil : OpensNoTag [] := fun b _ h => absurd h.length_le (by simp)
    have hlt : OpensNoTag [60] := fun b _ h => absurd h.length_le (by simp)
    rw [within_nil, within_nil]
    exact ⟨iff_of_true hdata hnil, iff_of_true htagOpen hlt⟩
  | cons b t ih =>
    have hfirst : Within State.IsText .data (b :: t) ↔ OpensNoTag (b :: t) := by
      rw [within_cons, and_iff_right hdata]
      by_cases hb : b = 60
      · subst hb
        exact ih.2
      · have hstep : step .data b = (.data, []) := if_neg hb
        rw [hstep, opensNoTag_cons_of_ne hb]
        exact ih.1
    apply And.intro hfirst
    rw [within_cons, and_iff_right htagOpen, opensNoTag_lt_cons]
    show Within State.IsText (stepTagOpen b).1 t ↔ _
    cases hb : opensTag b with
    | true =>
      have hnot : ¬Within State.IsText (stepTagOpen b).1 t := fun h =>
        not_isText_stepTagOpen hb (h [] List.nil_prefix)
      simp only [hnot, Bool.true_eq_false, false_and]
    | false =>
      rw [within_cons, and_iff_right hdata] at hfirst
      rw [stepTagOpen_of_not_opensTag hb, hfirst, and_iff_right rfl]

theorem step_of_isText {s : State} {b : UInt8} (hs : s.IsText) (h : (step s b).1.IsText) :
    (step s b).2 = [] := by
  obtain rfl | rfl := hs
  · simp only [step]
    split <;> rfl
  · cases hb : opensTag b with
    | true => exact absurd h (not_isText_stepTagOpen hb)
    | false =>
      show (stepTagOpen b).2 = []
      rw [stepTagOpen_of_not_opensTag hb, step]
      split <;> rfl

/-- Nothing is found in a text. -/
theorem boundaries_of_within_text {s : State} {t : Bytes} (h : Within State.IsText s t) :
    boundaries s t = [] := by
  induction t generalizing s with
  | nil => rfl
  | cons b t ih =>
    obtain ⟨hs, ht⟩ := within_cons.mp h
    rw [boundaries, step_of_isText hs (ht [] List.nil_prefix), ih ht, List.append_nil]

/-- A text that opens no tag changes nothing of what is read behind it. -/
theorem Reads.text_append {t u : Bytes} {s : State} {found : List Boundary} (ht : OpensNoTag t)
    (hu : u.head? = some 60) (h : Reads .data u s found) : Reads .data (t ++ u) s found := by
  have hwithin := within_text_iff.mpr ht
  -- a `<` at its end is text as well, since another one follows
  have hstate : (stateAfter .data t).IsText := hwithin t List.prefix_rfl
  have hstep : step (stateAfter .data t) 60 = step .data 60 := step_lt_of_isText hstate
  obtain ⟨hafter, hfound⟩ := h
  obtain ⟨u, rfl⟩ := List.head?_eq_some_iff.mp hu
  constructor
  · rw [stateAfter_append, stateAfter, hstep]
    exact hafter
  · rw [boundaries_append, boundaries_of_within_text hwithin, boundaries, hstep]
    exact hfound

/-- A text without `<` leaves the tokenizer where it was. -/
theorem reads_of_lt_notMem {t : Bytes} (h : 60 ∉ t) : Reads .data t .data [] := by
  induction t with
  | nil => exact Reads.nil .data
  | cons b t ih =>
    rw [List.mem_cons, not_or] at h
    have hstep : step .data b = (.data, []) := if_neg (Ne.symm h.1)
    exact Reads.cons hstep (ih h.2)

/-! ## Quoted values -/

/-- The tokenizer stands in a value of that attribute, between double quotes. -/
def State.InValue (name : Bytes) (s : State) : Prop := ∃ value, s = .value .double name value

/-- A text stays in a value exactly where it does not have its quote. -/
theorem within_value_iff {name value t : Bytes} :
    Within (State.InValue name) (.value .double name value) t ↔ 34 ∉ t := by
  induction t generalizing value with
  | nil =>
    rw [within_nil]
    exact iff_of_true ⟨value, rfl⟩ List.not_mem_nil
  | cons b t ih =>
    rw [within_cons, and_iff_right ⟨value, rfl⟩, List.mem_cons, not_or]
    by_cases hb : b = 34
    · subst hb
      have hnot : ¬Within (State.InValue name) .afterValue t := by
        intro h
        obtain ⟨v, hv⟩ := h [] List.nil_prefix
        cases hv
      exact iff_of_false hnot fun h => h.1 rfl
    · have hstep : step (.value .double name value) b =
          (.value .double name (value ++ [b]), []) := if_neg hb
      rw [hstep, ih, and_iff_right (Ne.symm hb)]

/-- A text without the quote becomes part of the value. -/
theorem reads_of_quote_notMem {name value t : Bytes} (h : 34 ∉ t) :
    Reads (.value .double name value) t (.value .double name (value ++ t)) [] := by
  induction t generalizing value with
  | nil =>
    rw [List.append_nil]
    exact Reads.nil _
  | cons b t ih =>
    rw [List.mem_cons, not_or] at h
    have hstep : step (.value .double name value) b =
        (.value .double name (value ++ [b]), []) := if_neg (Ne.symm h.1)
    have hrest : Reads (.value .double name (value ++ [b])) t _ [] := ih h.2
    rw [List.append_assoc] at hrest
    exact Reads.cons hstep hrest

/-! ## Scripts in values -/

/-- The character references of a value, replaced by what they stand for. -/
structure CharRefs where
  decode : Bytes → Bytes
  decode_nil : decode [] = []
  /-- A reference starts with `&`. -/
  decode_cons : ∀ b t, b ≠ 38 → decode (b :: t) = b :: decode t
  /-- No reference goes on with a single quote. -/
  decode_quote : ∀ t, decode (t ++ [39]) = decode t ++ [39]

theorem CharRefs.decode_append (refs : CharRefs) {t u : Bytes} (h : 38 ∉ t) :
    refs.decode (t ++ u) = t ++ refs.decode u := by
  induction t with
  | nil => rfl
  | cons b t ih =>
    rw [List.mem_cons, not_or] at h
    rw [List.cons_append, refs.decode_cons b _ (Ne.symm h.1), ih h.2, List.cons_append]

/-- Where the reader of a string stands. -/
inductive StringState
  | char
  /-- Behind a backslash. -/
  | escape
  /-- Behind a backslash and a carriage return, of which a line feed may be part. -/
  | escapedReturn
deriving DecidableEq

/-- What stands behind the single quote that ends a string. A line break may not stand in one,
    but behind a backslash. -/
def stringRest : StringState → Bytes → Option Bytes
  | _, [] => none
  | .escape, b :: t => stringRest (if b = 13 then .escapedReturn else .char) t
  | s, b :: t =>
    if b = 39 then some t
    else if b = 92 then stringRest .escape t
    else if b = 13 ∨ (b = 10 ∧ s ≠ .escapedReturn) then none
    else stringRest .char t

/-- The texts that may stand between two single quotes. -/
inductive StringText : Bytes → Prop
  | nil : StringText []
  | char {b : UInt8} {t : Bytes} (h39 : b ≠ 39) (h92 : b ≠ 92) (h13 : b ≠ 13) (h10 : b ≠ 10) :
    StringText t → StringText (b :: t)
  | escape {b : UInt8} {t : Bytes} : StringText t → StringText (92 :: b :: t)
  | lineBreak {t : Bytes} : StringText t → StringText (92 :: 13 :: 10 :: t)

theorem length_lt_of_stringRest {s : StringState} {t rest : Bytes}
    (h : stringRest s t = some rest) : rest.length < t.length := by
  induction t generalizing s with
  | nil => cases s <;> cases h
  | cons b t ih =>
    have hstep : rest = t ∨ ∃ s', stringRest s' t = some rest := by
      cases s <;> simp only [stringRest] at h <;> grind
    rw [List.length_cons]
    obtain rfl | ⟨s', h'⟩ := hstep
    · omega
    · have := ih h'
      omega

/-- A character that is not special is passed over. -/
theorem stringRest_char {b : UInt8} {t : Bytes} (h39 : b ≠ 39) (h92 : b ≠ 92) :
    stringRest .char (b :: t) = if b = 13 ∨ b = 10 then none else stringRest .char t := by
  have hchar : StringState.char ≠ .escapedReturn := by decide
  rw [stringRest, if_neg h39, if_neg h92]
  · simp only [hchar, and_true, ne_eq, not_false_eq_true]
  · exact fun h => by cases h

/-- So is what stands behind a backslash, of which the two bytes of a line break may be one. -/
theorem stringRest_escape {b : UInt8} {t : Bytes} (h : ¬(b = 13 ∧ t.head? = some 10)) :
    stringRest .escape (b :: t) = stringRest .char t := by
  show stringRest (if b = 13 then .escapedReturn else .char) t = stringRest .char t
  split
  · rename_i hb
    cases t with
    | nil => rfl
    | cons c t =>
      have hc : c ≠ 10 := fun hc => h ⟨hb, by rw [hc]; rfl⟩
      simp only [stringRest, hc, false_and]
  · rfl

theorem StringText.head?_ne {t : Bytes} (h : StringText t) : t.head? ≠ some 10 := by
  cases h with
  | nil => simp
  | char _ _ _ h10 _ => simpa using h10
  | escape _ => simp
  | lineBreak _ => simp

/-- What stands before a quote starts with a line feed, if that with the quote does. -/
theorem head?_append_quote {t rest : Bytes} :
    (t ++ 39 :: rest).head? = some 10 ↔ t.head? = some 10 := by
  cases t with
  | nil => simp
  | cons b t => rfl

theorem stringRest_of_stringText {t : Bytes} (h : StringText t) (rest : Bytes) :
    stringRest .char (t ++ 39 :: rest) = some rest := by
  induction h with
  | nil => rfl
  | char h39 h92 h13 h10 _ ih =>
    rw [List.cons_append, stringRest_char h39 h92, if_neg (not_or.mpr ⟨h13, h10⟩)]
    exact ih
  | @escape b t ht ih =>
    have hbreak : ¬(b = 13 ∧ (t ++ 39 :: rest).head? = some 10) := fun hb =>
      ht.head?_ne (head?_append_quote.mp hb.2)
    show stringRest .escape (b :: (t ++ 39 :: rest)) = some rest
    rw [stringRest_escape hbreak]
    exact ih
  | lineBreak _ ih => exact ih

/-- The texts with which a string ends at the quote that stands behind them. -/
theorem stringRest_iff {t rest : Bytes} :
    stringRest .char (t ++ 39 :: rest) = some rest ↔ StringText t := by
  apply Iff.intro _ fun h => stringRest_of_stringText h rest
  intro h
  induction hlen : t.length using Nat.strong_induction_on generalizing t with
  | h n ih =>
    subst hlen
    cases t with
    | nil => exact .nil
    | cons b t =>
      have hshorter : ∀ u : Bytes, u.length < (b :: t).length →
          stringRest .char (u ++ 39 :: rest) = some rest → StringText u := fun u hu hrest =>
        ih u.length hu hrest rfl
      rw [List.cons_append] at h
      by_cases h39 : b = 39
      · -- the string ends before the quote
        subst h39
        have hlen := congrArg List.length (Option.some.inj h : t ++ 39 :: rest = rest)
        rw [List.length_append, List.length_cons] at hlen
        omega
      by_cases h92 : b = 92
      · subst h92
        replace h : stringRest .escape (t ++ 39 :: rest) = some rest := h
        cases t with
        | nil =>
          -- the quote is escaped
          have hrest : stringRest .char rest = some rest := h
          have hlt := length_lt_of_stringRest hrest
          omega
        | cons c t =>
          rw [List.cons_append] at h
          by_cases hbreak : c = 13 ∧ t.head? = some 10
          · obtain ⟨rfl, hhead⟩ := hbreak
            obtain ⟨t, rfl⟩ := List.head?_eq_some_iff.mp hhead
            apply StringText.lineBreak
            exact hshorter t (by simp only [List.length_cons]; omega) h
          · rw [stringRest_escape fun hb => hbreak ⟨hb.1, head?_append_quote.mp hb.2⟩] at h
            apply StringText.escape
            exact hshorter t (by simp only [List.length_cons]; omega) h
      · rw [stringRest_char h39 h92] at h
        split at h
        · cases h
        · rename_i hbreak
          rw [not_or] at hbreak
          apply StringText.char h39 h92 hbreak.1 hbreak.2
          exact hshorter t (by simp only [List.length_cons]; omega) h

theorem stringText_cons_iff {b : UInt8} {t : Bytes}
    (h : b ≠ 39 ∧ b ≠ 92 ∧ b ≠ 13 ∧ b ≠ 10) : StringText (b :: t) ↔ StringText t := by
  obtain ⟨h39, h92, h13, h10⟩ := h
  constructor
  · intro htext
    cases htext with
    | char _ _ _ _ htext => exact htext
    | escape _ => exact absurd rfl h92
    | lineBreak _ => exact absurd rfl h92
  · exact .char h39 h92 h13 h10

/-- What may stand in a string behind characters that are not special. -/
theorem stringText_append_iff {t u : Bytes}
    (h : ∀ b ∈ t, b ≠ 39 ∧ b ≠ 92 ∧ b ≠ 13 ∧ b ≠ 10) : StringText (t ++ u) ↔ StringText u := by
  induction t with
  | nil => rfl
  | cons b t ih =>
    rw [List.cons_append, stringText_cons_iff (h b List.mem_cons_self)]
    exact ih fun c hc => h c (List.mem_cons_of_mem b hc)

end Html
