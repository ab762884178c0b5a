import MarkupHighlight.Proofs.Markup.TagLayout

/-!
One attribute of a tag written in another way: the attributes before it are read as they were, since
they end no later than where it starts, and those behind it are read as they were further on.
-/
namespace MarkupHighlight.Markup

/-- A blank or the end of the tag stands first, where every name and every value without quotes
ends. -/
def EndsWord (t : Text) : Prop := ∃ d x, t = d :: x ∧ (isTagBlank d = true ∨ d = '>')

/-- What may stand behind an attribute that no quote ends, and does not belong to it. -/
structure EndsAttribute (t : Text) : Prop where
  endsWord : EndsWord t
  no_value : ∀ x, t.dropWhile isTagBlank ≠ '=' :: x

/-- A character of a value without quotes. -/
def isBareChar (c : Char) : Bool := !endsBareValue c && c != '/' && c != '{' && !Script.isQuote c

/-- The ways to write an attribute, and the text of its value. -/
inductive WritesAttribute (key : Text) : Text → Option Text → Prop
  | present : WritesAttribute key key none
  | bare {value : Text} (hne : value ≠ []) (hvalue : ∀ c ∈ value, isBareChar c = true) :
      WritesAttribute key (key ++ '=' :: value) (some value)
  | enclosed {q : Char} (hq : Script.isQuote q = true) {value : Text}
      (hvalue : ∀ c ∈ value, isValueChar q c = true) :
      WritesAttribute key (key ++ '=' :: q :: (value ++ [q])) (some value)

variable {key : Text}

theorem EndsWord.append {s : Text} (h : EndsWord s) (t : Text) : EndsWord (s ++ t) := by
  obtain ⟨d, x, rfl, hd⟩ := h
  exact ⟨d, x ++ t, rfl, hd⟩

theorem EndsWord.of_append {s t : Text} (h : EndsWord (s ++ t)) (hs : s ≠ []) : EndsWord s := by
  obtain ⟨c, s, rfl⟩ := List.exists_cons_of_ne_nil hs
  obtain ⟨d, x, hd, hends⟩ := h
  obtain ⟨rfl, -⟩ := List.cons.inj hd
  exact ⟨c, s, rfl, hends⟩

theorem EndsWord.afterRun {t : Text} (ht : EndsWord t) {ends : Char → Bool}
    (hends : ∀ c, isTagBlank c = true ∨ c = '>' → ends c = true) : afterRun ends t = t := by
  obtain ⟨d, x, rfl, hd⟩ := ht
  have hslash : d ≠ '/' := by
    rintro rfl
    rcases hd with hd | hd <;> cases hd
  rw [afterRun.eq_3 _ _ _ fun _ h => absurd h hslash, if_pos (hends d hd)]

/-- A value without quotes is read up to where nothing of a value is left. -/
theorem afterRun_bare {value t : Text} (hvalue : ∀ c ∈ value, isBareChar c = true)
    (ht : afterRun endsBareValue t = t) : afterRun endsBareValue (value ++ t) = t := by
  induction value with
  | nil => exact ht
  | cons c value ih =>
    have hc := hvalue c (List.mem_cons_self ..)
    simp only [isBareChar, Bool.and_eq_true, Bool.not_eq_true', bne_iff_ne] at hc
    obtain ⟨⟨⟨hends, hslash⟩, -⟩, -⟩ := hc
    rw [List.cons_append, afterRun.eq_3 _ _ _ fun _ h => absurd h hslash, hends,
      if_neg Bool.false_ne_true, ih fun d hd => hvalue d (List.mem_cons_of_mem _ hd)]

theorem readAttribute_bare (hkey : IsPlainKey key) {value : Text} (hne : value ≠ [])
    (hvalue : ∀ c ∈ value, isBareChar c = true) {t : Text} (ht : EndsAttribute t) (n : Nat) :
    readAttribute ⟨n, key ++ '=' :: value ++ t⟩ =
      .ok (⟨key, ⟨n, n + byteSize (key ++ '=' :: value)⟩, some [.text value]⟩,
        ⟨n + byteSize (key ++ '=' :: value), t⟩) := by
  obtain ⟨d, x, rfl⟩ := List.exists_cons_of_ne_nil hne
  have hd := hvalue d (List.mem_cons_self ..)
  simp only [isBareChar, endsBareValue, Bool.and_eq_true, Bool.not_eq_true', bne_iff_ne,
    Bool.or_eq_false_iff] at hd
  obtain ⟨⟨⟨⟨hblank, -⟩, -⟩, hbrace⟩, hquote⟩ := hd
  have hread := readAttribute_valued [] [] (d :: x ++ t) hkey.ne_nil hkey.ne_brace
    (afterRun_key hkey.chars (by simp [afterRun, endsAttributeName])) (by simp) (by simp)
    (fun c hc => Option.some.inj hc ▸ hblank) n
  have hends : ∀ c, isTagBlank c = true ∨ c = '>' → endsBareValue c = true := by
    intro c hc
    simpa [endsBareValue] using hc
  have hrun := afterRun_bare hvalue (ht.endsWord.afterRun hends)
  have hvalued := readValue_bare (u := d :: x) (r := t) rfl hquote hbrace hrun n
    (n + byteSize (key ++ ['=']))
  simp only [List.nil_append] at hread
  rw [List.append_assoc, List.cons_append, hread, hvalued]
  simp [Except.map, Nat.add_assoc]

/-- However an attribute is written, it is read with its value. -/
theorem WritesAttribute.readAttribute {k : Text} {value : Option Text}
    (h : WritesAttribute key k value) (hkey : IsPlainKey key) {t : Text} (ht : EndsAttribute t)
    (n : Nat) :
    readAttribute ⟨n, k ++ t⟩ =
      .ok (⟨key, ⟨n, n + byteSize k⟩, value.map fun v => [.text v]⟩, ⟨n + byteSize k, t⟩) := by
  cases h with
  | present =>
    have hends : ∀ c, isTagBlank c = true ∨ c = '>' → endsAttributeName c = true := by
      intro c hc
      rcases hc with hc | hc <;> simp [endsAttributeName, hc]
    have hrun := ht.endsWord.afterRun hends
    exact readAttribute_present hkey.ne_nil hkey.ne_brace (afterRun_key hkey.chars hrun)
      ht.no_value n
  | bare hne hvalue => exact readAttribute_bare hkey hne hvalue ht n
  | enclosed hq hvalue => exact readAttribute_enclosed hq hkey hvalue n t

/-- No `=` stands where the attributes of a tag go on. -/
theorem no_value_of_readAttributes {m n : Nat} {t : Text} {r : List Attribute × Bool × Cursor}
    (h : readAttributes m ⟨n, t⟩ = .ok r) (x : Text) : t.dropWhile isTagBlank ≠ '=' :: x := by
  intro ht
  obtain ⟨b, rfl, hb, hd, -⟩ := cut_run ht
  have herror : readAttribute ⟨n + byteSize b, '=' :: x⟩ =
      .error (.expected .attributeName (n + byteSize b)) := by
    simp [Markup.readAttribute, Markup.afterRun, endsAttributeName, before]
  rw [readAttributes, skipBlanks_run hb hd] at h
  split at h
  case h_5 =>
    split at h
    next => cases h
    next hread => cases herror.symm.trans hread
  all_goals simp_all

/-! The attributes before one of them. -/

/-- Two cuts of one text at the same byte are the same cut. -/
theorem eq_of_append_eq {a b c d : Text} (h : a ++ b = c ++ d) (hsize : byteSize a = byteSize c) :
    a = c ∧ b = d := by
  obtain ⟨e, rfl, rfl⟩ := exists_of_append_eq h (Nat.le_of_eq hsize)
  rw [byteSize_append] at hsize
  obtain rfl : e = [] := byteSize_eq_zero.mp (by omega)
  exact ⟨(List.append_nil a).symm, rfl⟩

/-- The attributes `as` stand in `u`, in front of any attribute that starts with `w`. Their spans
count from the start of `u`. -/
def Fronts (w u : Text) (as : List Attribute) : Prop :=
  ∀ m n t a c, readAttribute ⟨n + byteSize u, w ++ t⟩ = .ok (a, c) →
    readAttributes m ⟨n, u ++ (w ++ t)⟩ =
      (readAttributes m c).map fun (rest, r) => (as.map (.shift n) ++ a :: rest, r)

section
variable {b : Text} (hb : ∀ c ∈ b, isTagBlank c = true) {w u : Text} {as : List Attribute}
include hb

theorem fronts_blanks {d : Char} (hd : isTagBlank d = false) (hend : d ≠ '>') (hslash : d ≠ '/')
    (w : Text) : Fronts (d :: w) b [] := by
  intro m n t a c ha
  rw [List.cons_append] at ha ⊢
  exact readAttributes_attribute hb m n hd hend hslash ha

theorem Fronts.slash (h : Fronts w u as) (hne : ∀ x t, u ++ (w ++ t) ≠ '>' :: x) :
    Fronts w (b ++ ['/'] ++ u) (as.map (.shift (byteSize (b ++ ['/'])))) := by
  intro m n t a c ha
  rw [byteSize_append, ← Nat.add_assoc] at ha
  have hrest := h m _ t a c ha
  rw [List.append_assoc, List.append_assoc, List.singleton_append,
    readAttributes_slash hb m n fun x => hne x t, hrest, List.map_map]
  simp only [Function.comp_def, Attribute.shift_shift]

theorem Fronts.next (h : Fronts w u as) {v : Text} {a₀ : Attribute}
    (ha₀ : ReadsAttribute v (u ++ w) a₀) :
    Fronts w (b ++ v ++ u) (a₀.shift (byteSize b) :: as.map (.shift (byteSize (b ++ v)))) := by
  intro m n t a c ha
  obtain ⟨d, x, rfl, hd, hend, hslash⟩ := ha₀.head
  rw [byteSize_append, ← Nat.add_assoc] at ha
  have hrest := h m _ t a c ha
  have hfirst := ha₀.reads (n + byteSize b) t
  rw [List.cons_append, List.append_assoc] at hfirst
  rw [byteSize_append, ← Nat.add_assoc] at hrest
  rw [List.append_assoc, List.append_assoc, List.cons_append,
    readAttributes_attribute hb m n hd hend hslash hfirst, hrest]
  cases readAttributes m c with
  | error e => rfl
  | ok v => simp [Except.map, Nat.add_assoc]

end

/-- What starts no earlier than where a text ends starts behind it. -/
theorem exists_cut_of_shift {p r u t : Text} {a : Attribute} (h : p ++ r = u ++ t)
    (hstart : (a.shift (byteSize p)).span.start = byteSize u) :
    ∃ e, u = p ++ e ∧ r = e ++ t ∧ a.span.start = byteSize e := by
  have hle : byteSize p ≤ byteSize u := hstart ▸ Nat.le_add_right ..
  obtain ⟨e, rfl, rfl⟩ := exists_of_append_eq h hle
  rw [byteSize_append] at hstart
  exact ⟨e, rfl, rfl, Nat.add_left_cancel hstart⟩

/-- Every attribute of a tag has those before it in front and those behind it in the rest. -/
theorem ReadsTag.front {x u w s : Text} {as as₁ as₂ : List Attribute} {a : Attribute}
    {closed : Bool} (h : ReadsTag x as closed) (hx : x = u ++ (w ++ s))
    (has : as = as₁ ++ a :: as₂) (hw : Anchored w) (hstart : a.span.start = byteSize u) :
    ∃ v rest a₀ as₃, w ++ s = v ++ rest ∧ a = a₀.shift (byteSize u) ∧ ReadsAttribute v rest a₀ ∧
      ReadsTag rest as₃ closed ∧ Fronts w u as₁ := by
  induction h generalizing u as₁ a as₂ with
  | tagEnd | selfClosing => cases as₁ <;> cases has
  | @slash b rest as closed hb hrest h ih =>
    obtain ⟨as₁, l, rfl, rfl, hl⟩ := List.map_eq_append_iff.mp has
    obtain ⟨a, as₂, rfl, rfl, rfl⟩ := List.map_eq_cons_iff.mp hl
    -- the attribute starts behind the slash
    have hcut : b ++ ['/'] ++ rest = u ++ (w ++ s) := by simp [← hx]
    obtain ⟨u, rfl, rfl, hstart⟩ := exists_cut_of_shift hcut hstart
    obtain ⟨v, rest, a₀, as₃, hv, rfl, ha₀, hrest', hfront⟩ := ih rfl rfl hstart
    have hne : ∀ x t, u ++ (w ++ t) ≠ '>' :: x := by
      intro x t hx
      obtain ⟨d, y, hy⟩ := hw.exists_cons (u := u)
      rw [← List.append_assoc, hy] at hx
      obtain ⟨rfl, -⟩ := List.cons.inj hx
      exact hrest (y ++ s) (by rw [← List.append_assoc, hy, List.cons_append])
    refine ⟨v, rest, a₀, as₃, hv, ?_, ha₀, hrest', hfront.slash hb hne⟩
    rw [Attribute.shift_shift, byteSize_append _ u]
  | @next b v rest a₁ as closed hb ha₁ h ih =>
    cases as₁ with
    | nil =>
      -- the attribute is the first one
      obtain ⟨rfl, rfl⟩ := List.cons.inj has
      have hsize : byteSize b = byteSize u := by
        simpa [Attribute.shift, Span.shift, ha₁.span] using hstart
      obtain ⟨rfl, hv⟩ := eq_of_append_eq hx hsize
      obtain ⟨d, y, rfl, hd, hend, hslash⟩ := ha₁.head
      obtain ⟨e, w, rfl⟩ := List.exists_cons_of_ne_nil hw.ne_nil
      obtain ⟨rfl, -⟩ := List.cons.inj hv
      exact ⟨_, rest, a₁, as, hv.symm, rfl, ha₁, h, fronts_blanks hb hd hend hslash w⟩
    | cons a₂ as₁ =>
      -- the attribute starts where the first one has ended or later
      obtain ⟨rfl, hmap⟩ := List.cons.inj has
      obtain ⟨as₁, l, rfl, rfl, hl⟩ := List.map_eq_append_iff.mp hmap
      obtain ⟨a, as₂, rfl, rfl, rfl⟩ := List.map_eq_cons_iff.mp hl
      have hcut : b ++ v ++ rest = u ++ (w ++ s) := by simp [← hx]
      obtain ⟨u, rfl, rfl, hstart⟩ := exists_cut_of_shift hcut hstart
      obtain ⟨v', rest, a₀, as₃, hv, rfl, ha₀, hrest, hfront⟩ := ih rfl rfl hstart
      rw [← List.append_assoc] at ha₁
      refine ⟨v', rest, a₀, as₃, hv, ?_, ha₀, hrest, hfront.next hb (ha₁.of_append (hw.append u))⟩
      rw [Attribute.shift_shift, byteSize_append _ u]

/-! One attribute of a tag. -/

theorem WritesAttribute.exists_append {k : Text} {value : Option Text}
    (h : WritesAttribute key k value) : ∃ s, k = key ++ s := by
  cases h with
  | present => exact ⟨[], (List.append_nil key).symm⟩
  | bare | enclosed => exact ⟨_, rfl⟩

theorem IsPlainKey.anchored (hkey : IsPlainKey key) : Anchored key := by
  obtain ⟨c, x, rfl, hblank, -, hslash, -⟩ := hkey.exists_cons
  exact ⟨c, List.mem_cons_self .., hblank, hslash⟩

/-- Something stands between a tag's name and an attribute. -/
theorem IsPlainKey.exists_head {u s : Text} (hkey : IsPlainKey key)
    (h : ∃ d x, u ++ (key ++ s) = d :: x ∧ isTagNameChar d = false) :
    ∃ d v, u = d :: v ∧ isTagNameChar d = false := by
  obtain ⟨d, x, hx, hd⟩ := h
  cases u with
  | nil =>
    obtain ⟨c, y, rfl, hblank, hend, hslash, -⟩ := hkey.exists_cons
    obtain ⟨rfl, -⟩ := List.cons.inj hx
    simp [isTagNameChar, hblank, hend, hslash] at hd
  | cons c v =>
    obtain ⟨rfl, -⟩ := List.cons.inj hx
    exact ⟨c, v, rfl, hd⟩

theorem findAttribute?_eq_some {as : List Attribute} {a : Attribute}
    (h : findAttribute? key as = some a) :
    ∃ as₁ as₂, as = as₁ ++ a :: as₂ ∧ ∀ b ∈ as₁, b.name ≠ key := by
  obtain ⟨-, as₁, as₂, has, hnone⟩ := List.find?_eq_some_iff_append.mp h
  exact ⟨as₁, as₂, has, fun b hb => by simpa using hnone b hb⟩

theorem findAttribute?_append {as₁ as₂ : List Attribute} {a : Attribute}
    (hnone : ∀ b ∈ as₁, b.name ≠ key) (ha : a.name = key) :
    findAttribute? key (as₁ ++ a :: as₂) = some a :=
  List.find?_eq_some_iff_append.mpr
    ⟨by simpa using ha, as₁, as₂, rfl, fun b hb => by simpa using hnone b hb⟩

section
variable {name u k k' value rest : Text} {value' : Option Text} {as : List Attribute}
  {a : Attribute} {closed : Bool}

theorem IsTag.readsTag (h : IsTag name u as closed) : ReadsTag u as closed := .of_reads h.reads

/-- A tag whose first attribute of a name is written in another way is a tag with that attribute. -/
theorem IsTag.respelled (h : IsTag name (u ++ (k ++ rest)) as closed) (hkey : IsPlainKey key)
    (hvalue : ∀ c ∈ value, isValueChar '\x22' c = true) (hk : k = quotedAttribute key value)
    (hk' : WritesAttribute key k' value') (ha : findAttribute? key as = some a)
    (hstart : a.span.start = byteSize u)
    (hrest : EndsWord rest) :
    a.value = some [.text value] ∧ ∃ as' a', IsTag name (u ++ (k' ++ rest)) as' closed ∧
      findAttribute? key as' = some a' ∧ a'.value = value'.map fun v => [.text v] := by
  subst hk
  obtain ⟨as₁, as₂, rfl, hnone⟩ := findAttribute?_eq_some ha
  obtain ⟨s, hs⟩ : ∃ s, quotedAttribute key value = key ++ s := ⟨_, rfl⟩
  obtain ⟨s', rfl⟩ := hk'.exists_append
  have htag := h.readsTag
  have hhead := h.body_head
  rw [hs, List.append_assoc key] at htag hhead
  obtain ⟨v, r, a₀, as₃, hv, rfl, ha₀, hbehind, hfront⟩ :=
    htag.front rfl rfl hkey.anchored hstart
  -- the attribute ends where its text does
  have hold := ha₀.reads 0 []
  have hquoted := readAttribute_quoted hkey hvalue 0 rest
  rw [hs, List.append_assoc, hv] at hquoted
  rw [List.append_nil, hquoted] at hold
  obtain ⟨hval, hc⟩ := Prod.mk.inj (Except.ok.inj hold)
  obtain rfl : rest = r := congrArg Cursor.rest hc
  refine ⟨(congrArg Attribute.value hval).symm, as₁ ++ ⟨key, ⟨byteSize u, byteSize u +
    byteSize (key ++ s')⟩, value'.map fun v => [.text v]⟩ ::
      as₃.map (.shift (byteSize u + byteSize (key ++ s'))), _, ?_,
    findAttribute?_append hnone rfl, rfl⟩
  obtain ⟨c, v, hu, hc⟩ := hkey.exists_head hhead
  exact {
    name_chars := h.name_chars
    name_head := h.name_head
    body_head := ⟨c, v ++ (key ++ s' ++ rest), by rw [hu, List.cons_append], hc⟩
    reads := by
      intro m n t
      have hlocal (i : Nat) := hbehind.reads m i t
      have hends : EndsAttribute (rest ++ t) :=
        ⟨hrest.append t, no_value_of_readAttributes (hlocal n)⟩
      have hnew := hk'.readAttribute hkey hends (n + byteSize u)
      rw [List.append_assoc key] at hnew
      have hall := hfront m n (s' ++ (rest ++ t)) _ _ hnew
      simp only [List.append_assoc] at hall ⊢
      rw [hall, hlocal]
      simp [Except.map, Attribute.shift, Span.shift, Nat.add_assoc] }

end

/-! The tags of a document. -/

/-- The name and the attributes of a token that stands for a tag. -/
def Token.element? : Token → Option (Text × List Attribute)
  | .node (.element name _ attributes _) => some (name, attributes)
  | .openTag name _ attributes => some (name, attributes)
  | _ => none

/-- The token with other attributes, which make it `size` bytes long. -/
def Token.retagged (size : Nat) (attributes : List Attribute) : Token → Token
  | .node (.element name _ _ children) => .node (.element name ⟨0, size⟩ attributes children)
  | .openTag name start _ => .openTag name start attributes
  | t => t

/-- What a tag is read as if its element has no raw text. -/
def tagToken (name body : Text) (attributes : List Attribute) (closed : Bool) : Token :=
  let as := attributes.map (.shift (byteSize ('<' :: name)))
  if closed || isVoid name then
    .node (.element name ⟨0, byteSize ('<' :: (name ++ body))⟩ as [])
  else .openTag name 0 as

section
variable {name body : Text} {as : List Attribute} {closed : Bool}

theorem IsTag.bounds (h : IsTag name body as closed) {a : Attribute} (ha : a ∈ as) :
    a.span.start < a.span.stop ∧ a.span.stop < byteSize body := by
  have hlayout := h.readsTag.attributesIn 0
  have hzero : Attribute.shift 0 = id := funext Attribute.shift_zero
  rw [hzero, List.map_id] at hlayout
  have hbounds := hlayout.bounds ha
  rw [Nat.zero_add] at hbounds
  exact hbounds.2

theorem element?_tagToken :
    (tagToken name body as closed).element? =
      some (name, as.map (.shift (byteSize ('<' :: name)))) := by
  unfold tagToken
  split <;> rfl

theorem retagged_tagToken (body' : Text) (as' : List Attribute) :
    (tagToken name body as closed).retagged (byteSize ('<' :: (name ++ body')))
        (as'.map (.shift (byteSize ('<' :: name)))) =
      tagToken name body' as' closed := by
  unfold tagToken
  split <;> rfl

theorem IsTag.isLexeme (h : IsTag name body as closed) (hraw : isRawText name = false) :
    IsLexeme ('<' :: (name ++ body)) (tagToken name body as closed) := by
  unfold tagToken
  split
  next hempty => exact h.isLexeme_emptyElement hempty
  next hempty => exact h.isLexeme_openTag (by simpa using hempty) hraw

theorem Token.LaidOut.exists_alpha {n : Nat} {u : Text} {t : Token} {p : Text × List Attribute}
    (h : t.LaidOut n u) (ht : t.element? = some p) :
    ∃ c s, u = '<' :: c :: s ∧ c.isAlpha = true := by
  cases h with
  | @leaf _ v hkind =>
    cases v with
    | element => exact absurd rfl hkind
    | _ => cases ht
  | empty hname | rawText hname | openTag hname =>
    obtain ⟨c, s, rfl, hc⟩ := hname.head
    exact ⟨c, _, rfl, hc⟩
  | closeTag => cases ht

/-- The attributes of a tag stand inside it. -/
theorem Token.LaidOut.attribute_inside {n : Nat} {u : Text} {t : Token}
    {p : Text × List Attribute} (h : t.LaidOut n u) (ht : t.element? = some p) {a : Attribute}
    (ha : a ∈ p.2) : n < a.span.start ∧ a.span.stop < n + byteSize u := by
  have hpos := '<'.utf8Size_pos
  cases h with
  | @leaf _ v hkind =>
    cases v with
    | element => exact absurd rfl hkind
    | _ => cases ht
  | empty _ hbody | rawText _ hbody | openTag _ hbody =>
    obtain rfl := Option.some.inj ht
    have hbounds := hbody.bounds ha
    simp only [byteSize_cons, byteSize_append] at hbounds ⊢
    omega
  | closeTag => cases ht

/-- A token that stands for a tag is read from one. -/
theorem IsLexeme.exists_isTag {u : Text} {t : Token} (h : IsLexeme u t)
    (ht : t.element? = some (name, as)) (hraw : isRawText name = false) :
    ∃ body as₀ closed, u = '<' :: (name ++ body) ∧ IsTag name body as₀ closed ∧
      t = tagToken name body as₀ closed := by
  obtain ⟨c, s, rfl, hc⟩ := (h.laidOut 0).exists_alpha (t := t.shift 0) (by rwa [Token.shift_zero])
  obtain ⟨name', body, as₀, closed, htag, ⟨hu, hempty, rfl⟩ | ⟨hu, hempty, -, rfl⟩ |
    ⟨hraw', _, _, _, rfl⟩⟩ := h.exists_tag hc
  all_goals obtain ⟨rfl, -⟩ := Prod.mk.inj (Option.some.inj ht)
  · exact ⟨body, as₀, closed, hu, htag, by rw [tagToken, if_pos hempty]⟩
  · exact ⟨body, as₀, closed, hu, htag, by rw [tagToken, if_neg (by simpa using hempty)]⟩
  · exact absurd hraw' (by simp [hraw])

/-- A tag in a document, one of whose attributes is written in another way. -/
theorem IsLexeme.respelled {key u x y r k k' value : Text} {t : Token} {value' : Option Text}
    {a : Attribute} (h : IsLexeme u t) (ht : t.element? = some (name, as))
    (hraw : isRawText name = false) (hkey : IsPlainKey key)
    (hvalue : ∀ c ∈ value, isValueChar '\x22' c = true) (hk : k = quotedAttribute key value)
    (hk' : WritesAttribute key k' value') (ha : findAttribute? key as = some a)
    (hspan : a.span = ⟨byteSize x, byteSize x + byteSize k⟩) (hu : u ++ r = x ++ (k ++ y))
    (hy : EndsWord y) :
    a.value = some [.text value] ∧ ∃ s as' a', u = x ++ (k ++ s) ∧ y = s ++ r ∧
      IsLexeme (x ++ (k' ++ s)) (t.retagged (byteSize (x ++ (k' ++ s))) as') ∧
      findAttribute? key as' = some a' ∧ a'.value = value'.map fun v => [.text v] := by
  obtain ⟨body, as₀, closed, rfl, htag, rfl⟩ := h.exists_isTag ht hraw
  rw [element?_tagToken] at ht
  obtain ⟨-, rfl⟩ := Prod.mk.inj (Option.some.inj ht)
  rw [findAttribute?_map_shift] at ha
  obtain ⟨a, ha₀, rfl⟩ := Option.map_eq_some_iff.mp ha
  obtain ⟨hstart, hstop⟩ := Span.mk.inj hspan
  have hbounds := htag.bounds (List.mem_of_find?_eq_some ha₀)
  -- the attribute stands in the body of the tag
  have hcut : '<' :: name ++ (body ++ r) = x ++ (k ++ y) := by
    rw [← hu]
    simp
  obtain ⟨w, rfl, hbody⟩ := exists_of_append_eq hcut (by omega)
  rw [byteSize_append] at hstart hstop
  rw [← List.append_assoc] at hbody
  obtain ⟨s, rfl, rfl⟩ := exists_of_append_eq hbody.symm (by rw [byteSize_append]; omega)
  rw [byteSize_append, byteSize_append] at hbounds
  have hs : s ≠ [] := by
    rintro rfl
    rw [byteSize_nil] at hbounds
    omega
  rw [List.append_assoc] at htag
  obtain ⟨hold, as', a', htag', ha', hnew⟩ :=
    htag.respelled hkey hvalue hk hk' ha₀ (Nat.add_left_cancel hstart)
      (hy.of_append hs)
  have hlexeme := htag'.isLexeme hraw
  have htext : '<' :: name ++ w ++ (k' ++ s) = '<' :: (name ++ (w ++ (k' ++ s))) := by simp
  refine ⟨hold, s, as'.map (.shift (byteSize ('<' :: name))),
    a'.shift (byteSize ('<' :: name)), ?_, rfl, ?_, ?_, hnew⟩
  · simp
  · rw [htext, retagged_tagToken]
    exact hlexeme
  · rw [findAttribute?_map_shift, ha', Option.map_some]

end

end MarkupHighlight.Markup
