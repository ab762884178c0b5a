import MarkupHighlight.Proofs.Markup.Lexemes

/-!
Tags as one writes them: a name and attributes behind one space each, with no value or with a
quoted one.
-/
namespace MarkupHighlight.Markup

/-- A name that starts a tag. -/
structure IsTagName (name : Text) : Prop where
  chars : ∀ c ∈ name, isTagNameChar c = true
  head : ∃ c s, name = c :: s ∧ c.isAlpha = true

/-- A name that starts a tag and whose element is neither void nor raw text. -/
structure IsPlainName (name : Text) : Prop where
  chars : ∀ c ∈ name, isTagNameChar c = true
  head : ∃ c s, name = c :: s ∧ c.isAlpha = true
  not_void : isVoid name = false
  not_raw : isRawText name = false

/-- A character of an attribute's name that has no other meaning anywhere in a tag. -/
def isKeyChar (c : Char) : Bool := !endsAttributeName c && c != '/' && c != '{'

/-- A name of an attribute that nothing but a `=` ends. -/
structure IsPlainKey (key : Text) : Prop where
  ne_nil : key ≠ []
  chars : ∀ c ∈ key, isKeyChar c = true

theorem isKeyChar_iff {c : Char} :
    isKeyChar c = true ↔ endsAttributeName c = false ∧ c ≠ '/' ∧ c ≠ '{' := by
  simp [isKeyChar, and_assoc]

variable {name key value : Text}

theorem isLexeme_bareCloseTag (hname : IsPlainName name) :
    IsLexeme ('<' :: '/' :: (name ++ ['>']))
      (.closeTag name ⟨0, byteSize ('<' :: '/' :: (name ++ ['>']))⟩) := by
  obtain ⟨c, s, rfl, -⟩ := hname.head
  exact isLexeme_closeTag (b := []) (List.cons_ne_nil c s) hname.chars (by simp)

/-- A name is read up to where nothing of a name is left. -/
theorem afterRun_key (hkey : ∀ c ∈ key, isKeyChar c = true) {t : Text}
    (ht : afterRun endsAttributeName t = t) : afterRun endsAttributeName (key ++ t) = t := by
  induction key with
  | nil => exact ht
  | cons c key ih =>
    obtain ⟨hc, hslash, -⟩ := isKeyChar_iff.mp (hkey c (List.mem_cons_self ..))
    rw [List.cons_append, afterRun.eq_3 _ _ _ (fun _ h => absurd h hslash), hc,
      if_neg Bool.false_ne_true, ih fun d hd => hkey d (List.mem_cons_of_mem _ hd)]

theorem IsPlainKey.ne_brace (hkey : IsPlainKey key) (x : Text) : key ≠ '{' :: x := by
  rintro rfl
  exact (isKeyChar_iff.mp (hkey.chars '{' (List.mem_cons_self ..))).2.2 rfl

/-- A name starts with a character at which an attribute starts. -/
theorem IsPlainKey.exists_cons (hkey : IsPlainKey key) :
    ∃ c x, key = c :: x ∧ isTagBlank c = false ∧ c ≠ '>' ∧ c ≠ '/' ∧ c ≠ '=' := by
  obtain ⟨c, x, rfl⟩ := List.exists_cons_of_ne_nil hkey.ne_nil
  obtain ⟨hc, hslash, -⟩ := isKeyChar_iff.mp (hkey.chars c (List.mem_cons_self ..))
  simp only [endsAttributeName, Bool.or_eq_false_iff, beq_eq_false_iff_ne] at hc
  exact ⟨c, x, rfl, hc.1.1, hc.2, hslash, hc.1.2⟩

/-- The text of one attribute with a quoted value. -/
def quotedAttribute (key value : Text) : Text := key ++ '=' :: '\x22' :: (value ++ ['\x22'])

/-- An attribute whose value stands between two of the same quote. -/
theorem readAttribute_enclosed {q : Char} (hq : Script.isQuote q = true) (hkey : IsPlainKey key)
    (hvalue : ∀ c ∈ value, isValueChar q c = true) (n : Nat) (t : Text) :
    readAttribute ⟨n, key ++ '=' :: q :: (value ++ [q]) ++ t⟩ =
      .ok (⟨key, ⟨n, n + byteSize (key ++ '=' :: q :: (value ++ [q]))⟩, some [.text value]⟩,
        ⟨n + byteSize (key ++ '=' :: q :: (value ++ [q])), t⟩) := by
  have hblank : isTagBlank q = false := by
    rw [← Bool.not_eq_true]
    intro hblank
    have hcases : q = '\x27' ∨ q = '\x22' := by simpa [Script.isQuote] using hq
    rcases hcases with rfl | rfl <;> cases hblank
  have hread := readAttribute_valued [] [] (q :: (value ++ q :: t)) hkey.ne_nil
    hkey.ne_brace (afterRun_key hkey.chars (by simp [afterRun, endsAttributeName])) (by simp)
    (by simp) (fun c hc => Option.some.inj hc ▸ hblank) n
  have hchunks := readChunks_quote hvalue (n + byteSize (key ++ ['=']))
    (n + byteSize (key ++ ['=']) + q.utf8Size) t
  have hassoc : key ++ '=' :: q :: (value ++ [q]) ++ t =
      key ++ '=' :: q :: (value ++ q :: t) := by
    simp
  rw [hassoc]
  simp only [List.nil_append] at hread
  rw [hread, readValue_quoted hq, hchunks]
  cases value <;> simp [Except.map, textChunk, Nat.add_assoc]

theorem readAttribute_quoted (hkey : IsPlainKey key)
    (hvalue : ∀ c ∈ value, isValueChar '\x22' c = true) (n : Nat) (t : Text) :
    readAttribute ⟨n, quotedAttribute key value ++ t⟩ =
      .ok (⟨key, ⟨n, n + byteSize (quotedAttribute key value)⟩, some [.text value]⟩,
        ⟨n + byteSize (quotedAttribute key value), t⟩) :=
  readAttribute_enclosed (by decide) hkey hvalue n t

/-! Tags with any number of attributes. -/

/-- An attribute with no value or with one that stands in double quotes. -/
structure PlainAttribute where
  key : Text
  value : Option Text
  deriving DecidableEq, Repr

namespace PlainAttribute

def written (a : PlainAttribute) : Text :=
  match a.value with
  | none => a.key
  | some v => quotedAttribute a.key v

structure WellFormed (a : PlainAttribute) : Prop where
  key : IsPlainKey a.key
  value : ∀ v, a.value = some v → ∀ c ∈ v, isValueChar '\x22' c = true

/-- The attribute that stands at byte `n`. -/
def attributeAt (a : PlainAttribute) (n : Nat) : Attribute :=
  ⟨a.key, ⟨n, n + byteSize a.written⟩, a.value.map fun v => [.text v]⟩

theorem WellFormed.exists_cons {a : PlainAttribute} (ha : a.WellFormed) :
    ∃ c x, a.written = c :: x ∧ isTagBlank c = false ∧ c ≠ '>' ∧ c ≠ '/' ∧ c ≠ '=' := by
  obtain ⟨c, k, hkey, hc⟩ := ha.key.exists_cons
  obtain ⟨key, value⟩ := a
  simp only at hkey
  subst hkey
  cases value with
  | none => exact ⟨c, k, rfl, hc⟩
  | some v => exact ⟨c, _, rfl, hc⟩

end PlainAttribute

def writtenAttributes : List PlainAttribute → Text
  | [] => []
  | a :: as => ' ' :: (a.written ++ writtenAttributes as)

/-- The attributes that are written from byte `n` on. -/
def attributesAt (n : Nat) : List PlainAttribute → List Attribute
  | [] => []
  | a :: as => a.attributeAt (n + 1) :: attributesAt (n + 1 + byteSize a.written) as

theorem attributesAt_add (m n : Nat) (as : List PlainAttribute) :
    attributesAt (m + n) as = (attributesAt n as).map (.shift m) := by
  induction as generalizing n with
  | nil => rfl
  | cons a as ih =>
    have htail := ih (n + 1 + byteSize a.written)
    rw [← Nat.add_assoc, ← Nat.add_assoc] at htail
    rw [attributesAt, attributesAt, List.map_cons, htail, Nat.add_assoc m n 1]
    simp only [PlainAttribute.attributeAt, Attribute.shift, Span.shift, Nat.add_assoc]

/-- The end of a tag, which no attribute before it reads on into. -/
structure EndsTag (e : Text) (closed : Bool) : Prop where
  reads : ∀ m n t, readAttributes m ⟨n, e ++ t⟩ = .ok ([], closed, ⟨n + byteSize e, t⟩)
  afterRun : ∀ t, afterRun endsAttributeName (e ++ t) = e ++ t
  no_value : ∀ t x, (e ++ t).dropWhile isTagBlank ≠ '=' :: x
  head : ∃ d x, e = d :: x ∧ isTagNameChar d = false

theorem endsTag_open : EndsTag ['>'] false where
  reads m n t := by
    have := readAttributes_tagEnd (b := []) (t := t) (by simp) m n
    simpa using this
  afterRun t := by simp [Markup.afterRun, endsAttributeName]
  no_value t x := by simp [isTagBlank]
  head := ⟨'>', [], rfl, by decide⟩

theorem endsTag_selfClosing {gap : Text} (hgap : ∀ c ∈ gap, isTagBlank c = true) :
    EndsTag (gap ++ ['/', '>']) true where
  reads m n t := by
    have := readAttributes_selfClosing (t := t) hgap m n
    simpa using this
  afterRun t := by
    cases gap with
    | nil => simp [Markup.afterRun]
    | cons d gap =>
      have hd := hgap d (List.mem_cons_self ..)
      have hslash : d ≠ '/' := by
        rintro rfl
        simp [isTagBlank] at hd
      simp only [List.cons_append]
      rw [afterRun.eq_3 _ _ _ fun _ h => absurd h hslash]
      simp [endsAttributeName, hd]
  no_value t x := by
    have := dropWhile_run hgap (d := '/') (by decide) ('>' :: t)
    simp only [List.append_assoc, List.cons_append, List.nil_append, this]
    simp
  head := by
    cases gap with
    | nil => exact ⟨'/', ['>'], rfl, by decide⟩
    | cons d gap =>
      have hd := hgap d (List.mem_cons_self ..)
      exact ⟨d, _, rfl, by simp [isTagNameChar, hd]⟩

/-- What may stand behind an attribute: further attributes, then the end of the tag. -/
theorem EndsTag.afterAttribute {e : Text} {closed : Bool} (he : EndsTag e closed)
    {as : List PlainAttribute} (has : ∀ a ∈ as, a.WellFormed) (t : Text) :
    Markup.afterRun endsAttributeName (writtenAttributes as ++ (e ++ t)) =
        writtenAttributes as ++ (e ++ t) ∧
      ∀ x, (writtenAttributes as ++ (e ++ t)).dropWhile isTagBlank ≠ '=' :: x := by
  cases as with
  | nil => exact ⟨he.afterRun t, he.no_value t⟩
  | cons a as =>
    obtain ⟨c, y, hy, hc, -, -, hne⟩ := (has a (List.mem_cons_self ..)).exists_cons
    have hblank : isTagBlank ' ' = true := by decide
    constructor
    · simp [writtenAttributes, Markup.afterRun, endsAttributeName, hblank]
    · intro x
      simp [writtenAttributes, hy, hc, hne, hblank]

theorem readAttribute_written {a : PlainAttribute} (ha : a.WellFormed) {r : Text}
    (hrun : afterRun endsAttributeName r = r) (hno : ∀ x, r.dropWhile isTagBlank ≠ '=' :: x)
    (n : Nat) : readAttribute ⟨n, a.written ++ r⟩ =
      .ok (a.attributeAt n, ⟨n + byteSize a.written, r⟩) := by
  obtain ⟨key, value⟩ := a
  cases value with
  | none =>
    exact readAttribute_present ha.key.ne_nil ha.key.ne_brace (afterRun_key ha.key.chars hrun) hno n
  | some v => exact readAttribute_quoted ha.key (ha.value v rfl) n r

theorem readAttributes_written {e : Text} {closed : Bool} (he : EndsTag e closed)
    {as : List PlainAttribute} (has : ∀ a ∈ as, a.WellFormed) (m n : Nat) (t : Text) :
    readAttributes m ⟨n, writtenAttributes as ++ e ++ t⟩ =
      .ok (attributesAt n as, closed, ⟨n + byteSize (writtenAttributes as ++ e), t⟩) := by
  rw [List.append_assoc]
  induction as generalizing n with
  | nil => exact he.reads m n t
  | cons a as ih =>
    have ha := has a (List.mem_cons_self ..)
    have has' : ∀ a ∈ as, a.WellFormed := fun a h => has a (List.mem_cons_of_mem _ h)
    obtain ⟨hrun, hno⟩ := he.afterAttribute has' t
    have hfirst := readAttribute_written ha hrun hno (n + byteSize [' '])
    have hrest := ih has' (n + byteSize [' '] + byteSize a.written)
    obtain ⟨c, y, hy, hc, hend, hslash, -⟩ := ha.exists_cons
    rw [hy, List.cons_append] at hfirst
    have hall := readAttributes_attribute (b := [' ']) (List.all_eq_true.mp (by decide)) m n
      hc hend hslash hfirst
    have hblank : byteSize [' '] = 1 := by decide
    have hassoc : writtenAttributes (a :: as) ++ (e ++ t) =
        [' '] ++ (a.written ++ (writtenAttributes as ++ (e ++ t))) := by
      simp [writtenAttributes]
    have hsize : byteSize (writtenAttributes (a :: as) ++ e) =
        1 + (byteSize a.written + byteSize (writtenAttributes as ++ e)) := by
      rw [← hblank, ← byteSize_append, ← byteSize_append]
      simp [writtenAttributes]
    rw [← List.cons_append, ← hy, hrest, hblank] at hall
    rw [hassoc, hsize, ← Nat.add_assoc, ← Nat.add_assoc]
    exact hall

/-- A tag with the given name, attributes and end. -/
def plainTag (name : Text) (as : List PlainAttribute) (e : Text) : Text :=
  '<' :: (name ++ (writtenAttributes as ++ e))

section
variable {as : List PlainAttribute} (has : ∀ a ∈ as, a.WellFormed)
include has

theorem EndsTag.head_written {e : Text} {closed : Bool} (he : EndsTag e closed) :
    ∃ d x, writtenAttributes as ++ e = d :: x ∧ isTagNameChar d = false := by
  cases as with
  | nil => exact he.head
  | cons a as => exact ⟨' ', _, rfl, by decide⟩

theorem isTag_plainTag (hname : IsTagName name) {e : Text} {closed : Bool}
    (he : EndsTag e closed) :
    IsTag name (writtenAttributes as ++ e) (attributesAt 0 as) closed where
  name_chars := hname.chars
  name_head := hname.head
  body_head := he.head_written has
  reads m n t := by
    rw [← attributesAt_add]
    exact readAttributes_written he has m n t

theorem isLexeme_plainTag (hname : IsPlainName name) :
    IsLexeme (plainTag name as ['>'])
      (.openTag name 0 (attributesAt (byteSize ('<' :: name)) as)) := by
  have htag := isTag_plainTag has ⟨hname.chars, hname.head⟩ endsTag_open
  have hlexeme := htag.isLexeme_openTag (by simp [hname.not_void]) hname.not_raw
  rw [← attributesAt_add, Nat.add_zero] at hlexeme
  exact hlexeme

/-- A tag that closes itself may have any name. -/
theorem isLexeme_selfClosingTag (hname : IsTagName name) {gap : Text}
    (hgap : ∀ c ∈ gap, isTagBlank c = true) :
    IsLexeme (plainTag name as (gap ++ ['/', '>']))
      (.node (.element name ⟨0, byteSize (plainTag name as (gap ++ ['/', '>']))⟩
        (attributesAt (byteSize ('<' :: name)) as) [])) := by
  have htag := isTag_plainTag has hname (endsTag_selfClosing hgap)
  have hlexeme := htag.isLexeme_emptyElement (Bool.true_or _)
  rw [← attributesAt_add, Nat.add_zero] at hlexeme
  exact hlexeme

end

theorem isLexeme_bareTag (hname : IsPlainName name) :
    IsLexeme ('<' :: (name ++ ['>'])) (.openTag name 0 []) := by
  have hnone : ∀ a ∈ ([] : List PlainAttribute), a.WellFormed := nofun
  exact isLexeme_plainTag hnone hname

/-- The attribute of `quotedTag`, whose tag starts at byte 0. -/
def quotedTagAttribute (name key value : Text) : Attribute :=
  (⟨key, ⟨1, 1 + byteSize (quotedAttribute key value)⟩, some [.text value]⟩ : Attribute).shift
    (byteSize ('<' :: name))

/-- An opening tag with one attribute. -/
def quotedTag (name key value : Text) : Text :=
  '<' :: (name ++ (' ' :: (quotedAttribute key value ++ ['>'])))

theorem isLexeme_quotedTag (hname : IsPlainName name) (hkey : IsPlainKey key)
    (hvalue : ∀ c ∈ value, isValueChar '\x22' c = true) :
    IsLexeme (quotedTag name key value) (.openTag name 0 [quotedTagAttribute name key value]) := by
  have ha : ∀ a ∈ [(⟨key, some value⟩ : PlainAttribute)], a.WellFormed := by
    intro a h
    rw [List.mem_singleton.mp h]
    exact ⟨hkey, fun v hv => Option.some.inj hv ▸ hvalue⟩
  have hlexeme := isLexeme_plainTag ha hname
  simpa [plainTag, writtenAttributes, PlainAttribute.written, attributesAt,
    PlainAttribute.attributeAt, quotedTag, quotedTagAttribute, Attribute.shift, Span.shift,
    Nat.add_assoc] using hlexeme

end MarkupHighlight.Markup
