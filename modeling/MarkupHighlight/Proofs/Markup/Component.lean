import MarkupHighlight.Proofs.Markup.Parsing
import MarkupHighlight.Proofs.Markup.Tags

/-!
Elements of components around text that parses on its own. A component is an element like any other
unless its name is, up to the case of its letters, that of an element without content or of one
whose content is not markup.
-/
namespace MarkupHighlight.Markup

/-- An upper-case letter before letters and digits. -/
def IsComponentName (name : Text) : Prop :=
  ∃ c s, name = c :: s ∧ c.isUpper = true ∧ ∀ d ∈ s, d.isAlphanum = true

/-- An element without attributes, as it is written around some content. -/
def elementAround (name content : Text) : Text :=
  '<' :: (name ++ ['>']) ++ (content ++ '<' :: '/' :: (name ++ ['>']))

/-- The document of such an element, the content being a document of its own. -/
def documentAround (name content : Text) (inner : Document) : Document :=
  ⟨byteSize (elementAround name content),
    [.element name ⟨0, byteSize (elementAround name content)⟩ []
      (shiftAll (byteSize name + 2) inner.children)]⟩

theorem IsComponentName.isTagName {name : Text} (h : IsComponentName name) : IsTagName name := by
  obtain ⟨c, s, rfl, hc, hs⟩ := h
  have halpha : c.isAlpha = true := by
    show (c.isUpper || c.isLower) = true
    rw [hc, Bool.true_or]
  refine ⟨fun d hd => ?_, c, s, rfl, halpha⟩
  rcases List.mem_cons.mp hd with rfl | hd
  · exact isTagNameChar_of_isAlpha halpha
  · exact isTagNameChar_of_isAlphanum (hs d hd)

theorem byteSize_bareTag (name : Text) : byteSize ('<' :: (name ++ ['>'])) = byteSize name + 2 := by
  have hless : '<'.utf8Size = 1 := rfl
  have hgreater : byteSize ['>'] = 1 := rfl
  simp only [byteSize_cons, byteSize_append, hless, hgreater]
  omega

theorem isTag_bare {name : Text} (hname : IsTagName name) : IsTag name ['>'] [] false where
  name_chars := hname.chars
  name_head := hname.head
  body_head := endsTag_open.head
  reads := endsTag_open.reads

section
variable {name content : Text} {inner : Document} (hinner : parse content = .ok inner)
include hinner

/-- Around a document an element changes nothing but the places of its nodes. -/
theorem parse_elementAround (hname : IsPlainName name) :
    parse (elementAround name content) = .ok (documentAround name content inner) := by
  obtain ⟨f, hf, rfl, rfl⟩ := parse_eq_ok_iff.mp hinner
  have hsound : (Forest.closed ('<' :: (name ++ ['>'])) name [] f ('<' :: '/' :: (name ++ ['>']))
      .nil).Sound :=
    .closed (isLexeme_bareTag hname) hf.sound (by simp [hf.unclosed])
      (isLexeme_bareCloseTag hname) .nil
  have hparse := parse_written ⟨hsound, rfl⟩
  have hwritten : (Forest.closed ('<' :: (name ++ ['>'])) name [] f
      ('<' :: '/' :: (name ++ ['>'])) .nil).written = elementAround name f.written := by
    simp [Forest.written, elementAround]
  rw [hwritten] at hparse
  rw [hparse, Forest.nodesAt, Nat.zero_add, Nat.zero_add, byteSize_bareTag,
    ← Nat.add_zero (byteSize name + 2), Forest.nodesAt_add]
  simp [documentAround, elementAround, Forest.nodesAt]

/-- An element without content ends with its opening tag, so that its closing tag closes nothing. -/
theorem parse_voidAround (hname : IsTagName name) (hvoid : isVoid name = true) :
    parse (elementAround name content) =
      .error (.unexpectedClosingTag name (byteSize name + 2 + byteSize content)) := by
  obtain ⟨f, hf, rfl, rfl⟩ := parse_eq_ok_iff.mp hinner
  have hopening := (isTag_bare hname).isLexeme_emptyElement (by simp [hvoid])
  have hne : name ≠ [] := by
    obtain ⟨c, s, rfl, -⟩ := hname.head
    exact List.cons_ne_nil c s
  have hclosing := isLexeme_closeTag (b := []) hne hname.chars (by simp)
  have hnone (v : Node) : name ∉ (Forest.leaf ('<' :: (name ++ ['>'])) v f).unclosed := by
    simp [Forest.unclosed, hf.unclosed]
  have hstray := Outline.run_stray (.leaf hopening hf.sound) (hnone _) hclosing []
  have hwritten (v : Node) : elementAround name f.written =
      (Forest.leaf ('<' :: (name ++ ['>'])) v f).written ++
        ('<' :: '/' :: (name ++ ([] ++ ['>'])) ++ []) := by
    simp [Forest.written, elementAround]
  rw [parse_eq_run, hwritten, hstray, Forest.written, byteSize_append, byteSize_bareTag]
  rfl

end

theorem parse_nil : parse [] = .ok ⟨0, []⟩ := parse_written .nil

/-- A component whose name is, in lower case, neither that of an element without content nor that of
an element with raw text is read around any document, whose nodes become its children; and one whose
name is that of an element without content never is. -/
theorem parse_component {name content : Text} {inner : Document} (hname : IsComponentName name)
    (hinner : parse content = .ok inner) :
    (isVoid name = false → isRawText name = false →
      parse (elementAround name content) = .ok (documentAround name content inner)) ∧
    (isVoid name = true → parse (elementAround name content) =
      .error (.unexpectedClosingTag name (byteSize name + 2 + byteSize content))) := by
  have htag := hname.isTagName
  constructor
  · intro hvoid hraw
    exact parse_elementAround hinner ⟨htag.chars, htag.head, hvoid, hraw⟩
  · intro hvoid
    exact parse_voidAround hinner htag hvoid

theorem isComponentName_tab : IsComponentName "Tab".toList :=
  ⟨'T', ['a', 'b'], rfl, rfl, List.all_eq_true.mp (by decide)⟩

theorem isComponentName_link : IsComponentName "Link".toList :=
  ⟨'L', ['i', 'n', 'k'], rfl, rfl, List.all_eq_true.mp (by decide)⟩

theorem isComponentName_style : IsComponentName "Style".toList :=
  ⟨'S', ['t', 'y', 'l', 'e'], rfl, rfl, List.all_eq_true.mp (by decide)⟩

theorem parse_component_tab :
    parse "<Tab><Tab></Tab></Tab>".toList =
        .ok ⟨22, [.element "Tab".toList ⟨0, 22⟩ [] [.element "Tab".toList ⟨5, 16⟩ [] []]]⟩ ∧
      parse "<Link></Link>".toList = .error (.unexpectedClosingTag "Link".toList 6) := by
  have hinner := (parse_component isComponentName_tab parse_nil).1 (by decide) (by decide)
  have houter := (parse_component isComponentName_tab hinner).1 (by decide) (by decide)
  exact ⟨houter, (parse_component isComponentName_link parse_nil).2 (by decide)⟩

/-- The content of a component whose name is that of an element with raw text is a text. -/
theorem parse_style_around_tab :
    parse (elementAround "Style".toList "<Tab></Tab>".toList) =
      .ok ⟨26, [.element "Style".toList ⟨0, 26⟩ [] [.text ⟨7, 18⟩]]⟩ := by
  have htag := isTag_bare isComponentName_style.isTagName
  have hsplit (t : Text) : splitOnFirst? ('<' :: '/' :: lowerAscii "Style".toList)
      (lowerAscii ("<Tab></Tab>".toList ++ ("</Style".toList ++ ([] ++ '>' :: t)))) =
        some (lowerAscii "<Tab></Tab>".toList, lowerAscii ([] ++ '>' :: t)) := rfl
  have hlexeme :=
    htag.isLexeme_rawText (by decide) (by decide) (by decide) hsplit (by simp)
  exact parse_written ⟨.leaf hlexeme .nil, rfl⟩

/-- Two kinds of components are not read in this way: that of links has the name of an element
without content, and that of styles the name of one with raw text. -/
theorem not_parse_component :
    (IsComponentName "Link".toList ∧
      ¬ ∀ (content : Text) (inner : Document), parse content = .ok inner →
        parse (elementAround "Link".toList content) =
          .ok (documentAround "Link".toList content inner)) ∧
    IsComponentName "Style".toList ∧
      ¬ ∀ (content : Text) (inner : Document), parse content = .ok inner →
        parse (elementAround "Style".toList content) =
          .ok (documentAround "Style".toList content inner) := by
  refine ⟨⟨isComponentName_link, ?_⟩, isComponentName_style, ?_⟩
  · intro hall
    have herror := parse_voidAround parse_nil isComponentName_link.isTagName (by decide)
    cases herror.symm.trans (hall _ _ parse_nil)
  · intro hall
    have htab := isComponentName_tab.isTagName
    have hinner := parse_elementAround parse_nil ⟨htab.chars, htab.head, by decide, by decide⟩
    cases parse_style_around_tab.symm.trans (hall _ _ hinner)

end MarkupHighlight.Markup
