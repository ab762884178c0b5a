import MarkupHighlight.Proofs.Markup.Component
import MarkupHighlight.Proofs.Markup.Expressions

/-!
Elements whose content is a text. The content may be anything in which neither a closing tag of the
element stands nor one of an element whose name starts with its name: `parse_rawText` says that the
element is then one node around one text, and that otherwise the document cannot be read.
-/
namespace MarkupHighlight.Markup

/-- `</` and the name, in lower case. -/
def closingMark (name : Text) : Text := '<' :: '/' :: lowerAscii name

/-- The name may have any letter case, and blanks may stand behind it. -/
def IsClosingTag (name closing : Text) : Prop :=
  ∃ q b, closing = q ++ (b ++ ['>']) ∧ lowerAscii q = closingMark name ∧
    ∀ c ∈ b, isTagBlank c = true

/-- A text up to behind the first `</` with the name, in any letter case, and the blanks there. -/
def EndsAtMark (name u : Text) : Prop :=
  ∃ p q b, u = p ++ (q ++ b) ∧ ¬ closingMark name <:+: lowerAscii p ∧
    lowerAscii q = closingMark name ∧ ∀ c ∈ b, isTagBlank c = true

/-- An element without attributes, as it is written. -/
def rawElement (name content closing : Text) : Text :=
  '<' :: (name ++ ['>']) ++ (content ++ closing)

/-- Its document, if the content is one text. -/
def rawDocument (name content closing : Text) : Document :=
  ⟨byteSize (rawElement name content closing),
    [.element name ⟨0, byteSize (rawElement name content closing)⟩ []
      (rawContent (byteSize name + 2) content)]⟩

/-! Names of elements with raw text. -/

theorem lowerAscii_append (s t : Text) : lowerAscii (s ++ t) = lowerAscii s ++ lowerAscii t :=
  List.map_append

theorem isAlpha_of_toLower {c : Char} (h : c.toLower.isAlpha = true) : c.isAlpha = true := by
  by_cases hc : c.isUpper = true
  · show (c.isUpper || c.isLower) = true
    rw [hc, Bool.true_or]
  · have hsame : c.toLower = c := by
      unfold Char.toLower
      unfold Char.isUpper at hc
      rw [dif_neg (by simpa using hc)]
    rwa [hsame] at h

section
variable {name : Text} (hraw : isRawText name = true)
include hraw

theorem lowerAscii_of_isRawText :
    lowerAscii name = "script".toList ∨ lowerAscii name = "style".toList := by
  obtain ⟨v, hv, heq⟩ := List.any_eq_true.mp hraw
  rcases List.mem_cons.mp hv with rfl | hv
  · exact .inl (beq_iff_eq.mp heq).symm
  · obtain rfl := List.mem_singleton.mp hv
    exact .inr (beq_iff_eq.mp heq).symm

theorem isVoid_of_isRawText : isVoid name = false := by
  rcases lowerAscii_of_isRawText hraw with h | h <;> rw [isVoid, h] <;> decide

theorem isTagName_of_isRawText : IsTagName name := by
  have hlower : ∀ c ∈ lowerAscii name, c.isAlpha = true := by
    rcases lowerAscii_of_isRawText hraw with h | h <;> rw [h] <;>
      exact List.all_eq_true.mp (by decide)
  have halpha : ∀ c ∈ name, c.isAlpha = true := fun c hc =>
    isAlpha_of_toLower (hlower _ (List.mem_map_of_mem hc))
  refine ⟨fun c hc => isTagNameChar_of_isAlpha (halpha c hc), ?_⟩
  cases name with
  | nil => cases hraw
  | cons c s => exact ⟨c, s, rfl, halpha c (List.mem_cons_self ..)⟩

/-- A mark does not contain the beginning of another one. -/
theorem not_mem_closingMark : '<' ∉ '/' :: lowerAscii name := by
  rcases lowerAscii_of_isRawText hraw with h | h <;> rw [h] <;> decide

end

theorem length_of_lowerAscii {name q : Text} (h : lowerAscii q = closingMark name) :
    q.length = name.length + 2 := by
  have := congrArg List.length h
  simpa [lowerAscii, closingMark] using this

/-! What is read from the end of the opening tag on. -/

section
variable {name p q b : Text} (hraw : isRawText name = true)
  (hp : ¬ closingMark name <:+: lowerAscii p) (hq : lowerAscii q = closingMark name)
include hraw hp hq

/-- The content ends at the first mark. -/
theorem splitOnFirst?_mark (r : Text) :
    splitOnFirst? (closingMark name) (lowerAscii (p ++ (q ++ r))) =
      some (lowerAscii p, lowerAscii r) := by
  rw [lowerAscii_append, lowerAscii_append, hq]
  exact splitOnFirst?_of_head (not_mem_closingMark hraw) hp _

variable (hb : ∀ c ∈ b, isTagBlank c = true)
include hb

theorem parse_rawText_of_closed :
    parse (rawElement name p (q ++ (b ++ ['>']))) =
      .ok (rawDocument name p (q ++ (b ++ ['>']))) := by
  have htag := isTag_bare (isTagName_of_isRawText hraw)
  have hempty : (false || isVoid name) = false := isVoid_of_isRawText hraw
  have hlexeme := htag.isLexeme_rawText hempty hraw (length_of_lowerAscii hq)
    (fun t => splitOnFirst?_mark hraw hp hq (b ++ '>' :: t)) hb
  have hparse := parse_written ⟨.leaf hlexeme .nil, rfl⟩
  simp only [Forest.written, List.append_nil] at hparse
  rw [rawElement, hparse, Forest.nodesAt, Node.shift_zero, byteSize_bareTag]
  rfl

section
variable {r : Text} (hr : ∀ d ∈ r.head?, isTagBlank d = false ∧ d ≠ '>')
include hr

/-- Where the mark is not that of a closing tag, the `>` of one is missing. -/
theorem readRawText_of_mark (m n : Nat) (as : List Attribute) :
    readRawText name m as ⟨n, p ++ (q ++ (b ++ r))⟩ =
      .error (.expected .tagEnd (n + byteSize (p ++ (q ++ b)))) := by
  have hlp : (lowerAscii p).length = p.length := List.length_map _
  have hlq : (closingMark name).length = q.length := by rw [← hq, lowerAscii, List.length_map]
  have hblank := skipBlanks_append hb fun d hd => (hr d hd).1
  rw [readRawText, ← closingMark]
  simp only [splitOnFirst?_mark hraw hp hq, hlp, hlq, List.drop_left, Cursor.moveTo_append, hblank]
  split
  next s => exact absurd rfl (hr '>' rfl).2
  next => simp only [byteSize_append, Nat.add_assoc]

theorem parse_rawText_of_mark :
    parse ('<' :: (name ++ ['>']) ++ (p ++ (q ++ (b ++ r)))) =
      .error (.expected .tagEnd (byteSize name + 2 + byteSize (p ++ (q ++ b)))) := by
  have htag := isTag_bare (isTagName_of_isRawText hraw)
  have hopening := htag.readToken 0 (p ++ (q ++ (b ++ r)))
  have hstarts := startsConstruct_tag htag.name_head (['>'] ++ (p ++ (q ++ (b ++ r))))
  simp only [isVoid_of_isRawText hraw, hraw, Bool.false_or, Bool.false_eq_true, if_false, if_true,
    readRawText_of_mark hraw hp hq hb hr, byteSize_bareTag, Nat.zero_add] at hopening
  have hassoc : '<' :: (name ++ ['>']) ++ (p ++ (q ++ (b ++ r))) =
      [] ++ '<' :: (name ++ (['>'] ++ (p ++ (q ++ (b ++ r))))) := by
    simp
  rw [hassoc]
  exact parse_broken parse_nil hstarts hopening

end

end

/-- If a mark stands in a text, a first one does. -/
theorem exists_mark {name x : Text} (h : closingMark name <:+: lowerAscii x) :
    ∃ u r, x = u ++ r ∧ EndsAtMark name u ∧ ∀ d ∈ r.head?, isTagBlank d = false := by
  cases hsplit : splitOnFirst? (closingMark name) (lowerAscii x) with
  | none => exact absurd h (splitOnFirst?_eq_none_iff.mp hsplit)
  | some cut =>
    obtain ⟨content, after⟩ := cut
    obtain ⟨hlower, -⟩ := splitOnFirst?_local hsplit
    rw [List.append_assoc] at hlower
    obtain ⟨p, z, rfl, rfl, hz⟩ := List.map_eq_append_iff.mp hlower
    obtain ⟨q, t, rfl, hq, -⟩ := List.map_eq_append_iff.mp hz
    have hfirst := not_infix_of_splitOnFirst? (List.cons_ne_nil _ _) hsplit
    obtain ⟨b, r, rfl, -, -, hb, hr⟩ := exists_run isTagBlank t
    exact ⟨p ++ (q ++ b), r, by simp, ⟨p, q, b, rfl, hfirst, hq, hb⟩, hr⟩

theorem IsClosingTag.head {name closing : Text} (h : IsClosingTag name closing) :
    ∃ x, closing = '<' :: x := by
  obtain ⟨q, b, rfl, hq, -⟩ := h
  obtain ⟨c, s, rfl, hc, -⟩ := List.map_eq_cons_iff.mp hq
  obtain rfl := eq_of_toLower (by decide) hc
  exact ⟨_, rfl⟩

/-- Behind a mark in such a content and its blanks stands what does not end a tag, in the content or
in the closing tag behind it. -/
theorem not_tagEnd_behind_mark {name p q b r closing : Text} (hclosing : IsClosingTag name closing)
    (hcontent : ∀ u, IsClosingTag name u → ¬ u <:+: p ++ (q ++ b) ++ r)
    (hq : lowerAscii q = closingMark name) (hb : ∀ c ∈ b, isTagBlank c = true)
    (hr : ∀ d ∈ r.head?, isTagBlank d = false) :
    ∀ d ∈ (r ++ closing).head?, isTagBlank d = false ∧ d ≠ '>' := by
  intro d hd
  cases r with
  | nil =>
    obtain ⟨x, rfl⟩ := hclosing.head
    obtain rfl := Option.some.inj hd
    exact ⟨by decide, by decide⟩
  | cons e r =>
    obtain rfl : e = d := Option.some.inj hd
    refine ⟨hr e rfl, ?_⟩
    rintro rfl
    exact hcontent _ ⟨q, b, rfl, hq, hb⟩ ⟨p, r, by simp⟩

/-- An element with raw text around a content in which no closing tag of its own stands. It is one
node around one text exactly if `</` with its name stands nowhere in the content. Where this stands
first, in front of other characters than those that end a tag, its `>` is missing. -/
theorem parse_rawText {name content closing : Text} (hraw : isRawText name = true)
    (hclosing : IsClosingTag name closing)
    (hcontent : ∀ u, IsClosingTag name u → ¬ u <:+: content) :
    (parse (rawElement name content closing) = .ok (rawDocument name content closing) ↔
      ¬ closingMark name <:+: lowerAscii content) ∧
    ∀ u r, content = u ++ r → EndsAtMark name u → (∀ d ∈ r.head?, isTagBlank d = false) →
      parse (rawElement name content closing) =
        .error (.expected .tagEnd (byteSize name + 2 + byteSize u)) := by
  have hfail : ∀ u r, content = u ++ r → EndsAtMark name u →
      (∀ d ∈ r.head?, isTagBlank d = false) → parse (rawElement name content closing) =
        .error (.expected .tagEnd (byteSize name + 2 + byteSize u)) := by
    rintro u r rfl ⟨p, q, b, rfl, hp, hq, hb⟩ hr
    have hend := not_tagEnd_behind_mark hclosing hcontent hq hb hr
    have hparse := parse_rawText_of_mark hraw hp hq hb hend
    simpa [rawElement] using hparse
  refine ⟨⟨fun hread hmark => ?_, fun hnone => ?_⟩, hfail⟩
  · obtain ⟨u, r, hcut, hu, hr⟩ := exists_mark hmark
    cases hread.symm.trans (hfail u r hcut hu hr)
  · obtain ⟨q, b, rfl, hq, hb⟩ := hclosing
    exact parse_rawText_of_closed hraw hnone hq hb

theorem not_infix_of_notMem {name content : Text} (h : '>' ∉ content) :
    ∀ u, IsClosingTag name u → ¬ u <:+: content := by
  rintro _ ⟨q, b, rfl, -, -⟩ hinside
  exact h (hinside.subset (by simp))

/-- Quotes, braces, comments and other tags do not matter, but a tag with a longer name does. -/
theorem parse_rawText_lookalike :
    parse (rawElement "Script".toList "a < '</p \x7b<!--".toList "</Script>".toList) =
        .ok ⟨31, [.element "Script".toList ⟨0, 31⟩ [] [.text ⟨8, 22⟩]]⟩ ∧
      parse (rawElement "script".toList "'</scripts'".toList "</script>".toList) =
        .error (.expected .tagEnd 17) := by
  have hupper : IsClosingTag "Script".toList "</Script>".toList :=
    ⟨"</Script".toList, [], rfl, by decide, List.forall_mem_nil _⟩
  have hlower : IsClosingTag "script".toList "</script>".toList :=
    ⟨"</script".toList, [], rfl, by decide, List.forall_mem_nil _⟩
  constructor
  · have hnone : ¬ closingMark "Script".toList <:+: lowerAscii "a < '</p \x7b<!--".toList :=
      splitOnFirst?_eq_none_iff.mp (by decide +kernel)
    have hdocument : rawDocument "Script".toList "a < '</p \x7b<!--".toList "</Script>".toList =
        ⟨31, [.element "Script".toList ⟨0, 31⟩ [] [.text ⟨8, 22⟩]]⟩ := rfl
    obtain ⟨hread, -⟩ := parse_rawText (by decide) hupper
      (not_infix_of_notMem (by decide : '>' ∉ "a < '</p \x7b<!--".toList))
    rw [hread.mpr hnone, hdocument]
  · have hnone : ¬ closingMark "script".toList <:+: lowerAscii "'".toList :=
      splitOnFirst?_eq_none_iff.mp (by decide +kernel)
    obtain ⟨-, hfail⟩ := parse_rawText (by decide) hlower
      (not_infix_of_notMem (by decide : '>' ∉ "'</scripts'".toList))
    rw [hfail "'</script".toList "s'".toList rfl
      ⟨"'".toList, "</script".toList, [], rfl, hnone, by decide, List.forall_mem_nil _⟩ ?_]
    · rfl
    · rintro d hd
      obtain rfl := Option.some.inj hd
      decide

end MarkupHighlight.Markup
