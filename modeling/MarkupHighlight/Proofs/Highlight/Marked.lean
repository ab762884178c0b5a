import MarkupHighlight.Highlight.Html
import MarkupHighlight.Proofs.Text.Cutting

/-!
Reading coloured code back. `Marked` is the grammar of texts with nested `span` tags,
`openingTags` counts the tags that open one, and `deleteTags` and `decodeEntities` give the code
that such a text shows. A tree of spans is written as a text of that grammar (`marked_renderAll`)
that shows the texts of the tree in order (`decodeEntities_deleteTags`).
-/
namespace MarkupHighlight

def entities : List Text :=
  ["&amp;".toList, "&lt;".toList, "&gt;".toList, "&quot;".toList, "&#x27;".toList]

/-- The characters that stand in text only as an entity. -/
def isReserved (c : Char) : Bool := ['&', '<', '>', '\x22', '\x27'].contains c

def isClassChar (c : Char) : Bool := c.isAlphanum || c == '-' || c == '_' || c == ' '

def spanLead : Text := "<span class=\"hljs-".toList

def spanEnd : Text := "</span>".toList

/-- Escaped text with `span` tags around parts of it, each closed where it was opened. -/
inductive Marked : Text → Prop
  | nil : Marked []
  | plain {c : Char} {s : Text} (hc : isReserved c = false) (hs : Marked s) : Marked (c :: s)
  | entity {e s : Text} (he : e ∈ entities) (hs : Marked s) : Marked (e ++ s)
  | span {scope inner s : Text} (hscope : scope.all isClassChar = true) (hinner : Marked inner)
      (hs : Marked s) :
      Marked (spanLead ++ (scope ++ '\x22' :: '>' :: (inner ++ (spanEnd ++ s))))

/-- Number of places where a `span` is opened. -/
def openingTags : Text → Nat
  | [] => 0
  | c :: s => (if (afterLead? spanLead (c :: s)).isSome then 1 else 0) + openingTags s

mutual

/-- What is left without the tags, each of which ends at the first `>`. -/
def deleteTags : Text → Text
  | [] => []
  | c :: s => if c = '<' then deleteTag s else c :: deleteTags s

def deleteTag : Text → Text
  | [] => []
  | c :: s => if c = '>' then deleteTags s else deleteTag s

end

def decodeEntities : Text → Text
  | '&' :: 'a' :: 'm' :: 'p' :: ';' :: s => '&' :: decodeEntities s
  | '&' :: 'l' :: 't' :: ';' :: s => '<' :: decodeEntities s
  | '&' :: 'g' :: 't' :: ';' :: s => '>' :: decodeEntities s
  | '&' :: 'q' :: 'u' :: 'o' :: 't' :: ';' :: s => '\x22' :: decodeEntities s
  | '&' :: '#' :: 'x' :: '2' :: '7' :: ';' :: s => '\x27' :: decodeEntities s
  | c :: s => c :: decodeEntities s
  | [] => []

/-! Escaped text. -/

theorem escapeHtml_append (s t : Text) : escapeHtml (s ++ t) = escapeHtml s ++ escapeHtml t :=
  List.flatMap_append

theorem isReserved_iff {c : Char} :
    isReserved c = true ↔ c = '&' ∨ c = '<' ∨ c = '>' ∨ c = '\x22' ∨ c = '\x27' := by
  simp [isReserved]

theorem escapeHtmlChar_plain {c : Char} (h : isReserved c = false) : escapeHtmlChar c = [c] := by
  have hne : ¬ (c = '&' ∨ c = '<' ∨ c = '>' ∨ c = '\x22' ∨ c = '\x27') := by
    rw [← isReserved_iff, h]
    decide
  simp only [not_or] at hne
  simp [escapeHtmlChar, hne]

theorem escapeHtmlChar_mem_entities {c : Char} (h : isReserved c = true) :
    escapeHtmlChar c ∈ entities := by
  rcases isReserved_iff.mp h with rfl | rfl | rfl | rfl | rfl <;> decide

theorem marked_escapeHtml (s : Text) : Marked (escapeHtml s) := by
  induction s with
  | nil => exact .nil
  | cons c s ih =>
    rw [escapeHtml, List.flatMap_cons]
    cases h : isReserved c with
    | false =>
      rw [escapeHtmlChar_plain h]
      exact .plain h ih
    | true => exact .entity (escapeHtmlChar_mem_entities h) ih

theorem lt_notMem_escapeHtml (s : Text) : '<' ∉ escapeHtml s := by
  have hentities : ∀ e ∈ entities, '<' ∉ e := by decide
  intro hmem
  obtain ⟨c, -, hc⟩ := List.mem_flatMap.mp hmem
  cases h : isReserved c with
  | false =>
    rw [escapeHtmlChar_plain h, List.mem_singleton] at hc
    subst hc
    revert h
    decide
  | true => exact hentities _ (escapeHtmlChar_mem_entities h) hc

theorem decodeEntities_plain {c : Char} (h : isReserved c = false) (s : Text) :
    decodeEntities (c :: s) = c :: decodeEntities s := by
  have hamp : c ≠ '&' := by
    rintro rfl
    revert h
    decide
  rw [decodeEntities] <;> simp [hamp]

theorem decodeEntities_escapeHtmlChar {c : Char} (h : isReserved c = true) (s : Text) :
    decodeEntities (escapeHtmlChar c ++ s) = c :: decodeEntities s := by
  rcases isReserved_iff.mp h with rfl | rfl | rfl | rfl | rfl <;> rfl

/-- Escaping is undone exactly. -/
theorem decodeEntities_escapeHtml (s : Text) : decodeEntities (escapeHtml s) = s := by
  induction s with
  | nil => rfl
  | cons c s ih =>
    rw [escapeHtml, List.flatMap_cons, ← escapeHtml]
    cases h : isReserved c with
    | false => rw [escapeHtmlChar_plain h, List.singleton_append, decodeEntities_plain h, ih]
    | true => rw [decodeEntities_escapeHtmlChar h, ih]

/-! Tags in a text. -/

theorem Marked.append {s t : Text} (hs : Marked s) (ht : Marked t) : Marked (s ++ t) := by
  induction hs with
  | nil => exact ht
  | plain hc _ ih => exact .plain hc ih
  | entity he _ ih =>
    rw [List.append_assoc]
    exact .entity he ih
  | span hscope hinner _ _ ih =>
    simp only [List.append_assoc, List.cons_append]
    exact .span hscope hinner ih

theorem deleteTags_append {w : Text} (h : '<' ∉ w) (s : Text) :
    deleteTags (w ++ s) = w ++ deleteTags s := by
  induction w with
  | nil => rfl
  | cons c w ih =>
    simp only [List.mem_cons, not_or] at h
    rw [List.cons_append, deleteTags, if_neg (Ne.symm h.1), ih h.2, List.cons_append]

theorem deleteTag_append {w : Text} (h : '>' ∉ w) (s : Text) :
    deleteTag (w ++ '>' :: s) = deleteTags s := by
  induction w with
  | nil => rw [List.nil_append, deleteTag, if_pos rfl]
  | cons c w ih =>
    simp only [List.mem_cons, not_or] at h
    rw [List.cons_append, deleteTag, if_neg (Ne.symm h.1), ih h.2]

theorem openingTags_append {w : Text} (h : '<' ∉ w) (s : Text) :
    openingTags (w ++ s) = openingTags s := by
  induction w with
  | nil => rfl
  | cons c w ih =>
    simp only [List.mem_cons, not_or] at h
    have hnot : afterLead? spanLead (c :: (w ++ s)) = none := if_neg h.1
    rw [List.cons_append, openingTags, hnot, ih h.2]
    simp

/-! Trees of spans. -/

/-- The class that a scope gives a span can be written between quotes. -/
def isClassName (scope : String) : Bool := scope.toList.all isClassChar

mutual

def Html.Classed : Html → Prop
  | .text _ => True
  | .span scope children => isClassName scope = true ∧ ClassedAll children

def ClassedAll : List Html → Prop
  | [] => True
  | h :: hs => h.Classed ∧ ClassedAll hs

end

mutual

/-- The text that a tree shows. -/
def Html.plain : Html → Text
  | .text s => s
  | .span _ children => plainAll children

def plainAll : List Html → Text
  | [] => []
  | h :: hs => h.plain ++ plainAll hs

end

mutual

/-- Number of spans. -/
def Html.spans : Html → Nat
  | .text _ => 0
  | .span _ children => spansAmong children + 1

def spansAmong : List Html → Nat
  | [] => 0
  | h :: hs => h.spans + spansAmong hs

end

theorem spansAmong_append (hs ks : List Html) :
    spansAmong (hs ++ ks) = spansAmong hs + spansAmong ks := by
  induction hs with
  | nil => rw [List.nil_append, spansAmong, Nat.zero_add]
  | cons h hs ih => rw [List.cons_append, spansAmong, spansAmong, ih, Nat.add_assoc]

theorem plainAll_append (hs ks : List Html) : plainAll (hs ++ ks) = plainAll hs ++ plainAll ks := by
  induction hs with
  | nil => rfl
  | cons h hs ih => simp only [List.cons_append, plainAll, ih, List.append_assoc]

theorem classedAll_append {hs ks : List Html} :
    ClassedAll (hs ++ ks) ↔ ClassedAll hs ∧ ClassedAll ks := by
  induction hs with
  | nil => simp [ClassedAll]
  | cons h hs ih => simp only [List.cons_append, ClassedAll, ih, and_assoc]

theorem spanLead_eq : spanLead = '<' :: "span class=\"hljs-".toList := rfl

theorem toList_append_append (a b c : String) :
    (a ++ b ++ c).toList = a.toList ++ (b.toList ++ c.toList) := by
  simp only [String.toList_append, List.append_assoc]

theorem openSpan_eq (scope : String) :
    openSpan scope = spanLead ++ (scope.toList ++ ['\x22', '>']) :=
  toList_append_append _ scope _

/-- A class name keeps clear of the signs of a tag. -/
theorem notMem_of_isClassName {scope : String} (h : isClassName scope = true) {c : Char}
    (hc : isClassChar c = false) : c ∉ scope.toList := by
  intro hmem
  rw [List.all_eq_true.mp h c hmem] at hc
  cases hc

theorem deleteTags_openSpan {scope : String} (h : isClassName scope = true) (s : Text) :
    deleteTags (openSpan scope ++ s) = deleteTags s := by
  have hgt := notMem_of_isClassName h (c := '>') (by decide)
  have hinner : '>' ∉ "span class=\"hljs-".toList ++ (scope.toList ++ ['\x22']) := by
    simp only [List.mem_append, not_or]
    exact ⟨by decide, hgt, by decide⟩
  have hsplit : openSpan scope ++ s =
      '<' :: ("span class=\"hljs-".toList ++ (scope.toList ++ ['\x22']) ++ '>' :: s) := by
    rw [openSpan_eq, spanLead_eq]
    generalize "span class=\"hljs-".toList = lead
    simp
  rw [hsplit, deleteTags, if_pos rfl, deleteTag_append hinner]

theorem deleteTags_closeSpan (s : Text) : deleteTags (closeSpan ++ s) = deleteTags s := rfl

theorem openingTags_openSpan {scope : String} (h : isClassName scope = true) (s : Text) :
    openingTags (openSpan scope ++ s) = openingTags s + 1 := by
  have hlt := notMem_of_isClassName h (c := '<') (by decide)
  have hrest : '<' ∉ "span class=\"hljs-".toList ++ (scope.toList ++ ['\x22', '>']) := by
    simp only [List.mem_append, not_or]
    exact ⟨by decide, hlt, by decide⟩
  have hlead : (afterLead? spanLead (openSpan scope ++ s)).isSome = true := by
    rw [openSpan_eq, List.append_assoc, afterLead?_append]
    rfl
  have hsplit : openSpan scope ++ s =
      '<' :: ("span class=\"hljs-".toList ++ (scope.toList ++ ['\x22', '>']) ++ s) := by
    rw [openSpan_eq, spanLead_eq, List.cons_append, List.cons_append]
  rw [hsplit] at hlead ⊢
  rw [openingTags, if_pos hlead, openingTags_append hrest]
  omega

theorem openingTags_closeSpan (s : Text) : openingTags (closeSpan ++ s) = openingTags s := by
  have h : afterLead? spanLead ('<' :: ("/span>".toList ++ s)) = none := rfl
  have hrest : '<' ∉ "/span>".toList := by decide
  have hsplit : closeSpan ++ s = '<' :: ("/span>".toList ++ s) := rfl
  rw [hsplit, openingTags, h, openingTags_append hrest]
  simp

mutual

theorem Html.marked_render : (h : Html) → h.Classed → Marked h.render
  | .text s, _ => marked_escapeHtml s
  | .span scope children, h => by
      have hspan := Marked.span h.1 (marked_renderAll children h.2) .nil
      rw [List.append_nil] at hspan
      rw [Html.render, openSpan_eq, show closeSpan = spanEnd from rfl]
      simpa using hspan

theorem marked_renderAll : (hs : List Html) → ClassedAll hs → Marked (renderAll hs)
  | [], _ => .nil
  | h :: hs, hc => (h.marked_render hc.1).append (marked_renderAll hs hc.2)

end

mutual

theorem Html.openingTags_render : (h : Html) → h.Classed → (s : Text) →
    openingTags (h.render ++ s) = h.spans + openingTags s
  | .text t, _, s => by
      rw [Html.render, openingTags_append (lt_notMem_escapeHtml t), Html.spans, Nat.zero_add]
  | .span scope children, h, s => by
      rw [Html.render, List.append_assoc, List.append_assoc, openingTags_openSpan h.1,
        openingTags_renderAll children h.2, openingTags_closeSpan, Html.spans]
      omega

theorem openingTags_renderAll : (hs : List Html) → ClassedAll hs → (s : Text) →
    openingTags (renderAll hs ++ s) = spansAmong hs + openingTags s
  | [], _, s => by simp [renderAll, spansAmong]
  | h :: hs, hc, s => by
      rw [renderAll, List.append_assoc, h.openingTags_render hc.1, openingTags_renderAll hs hc.2,
        spansAmong, Nat.add_assoc]

end

mutual

theorem Html.deleteTags_render : (h : Html) → h.Classed → (s : Text) →
    deleteTags (h.render ++ s) = escapeHtml h.plain ++ deleteTags s
  | .text t, _, s => by
      rw [Html.render, deleteTags_append (lt_notMem_escapeHtml t), Html.plain]
  | .span scope children, h, s => by
      rw [Html.render, List.append_assoc, List.append_assoc, deleteTags_openSpan h.1,
        deleteTags_renderAll children h.2, deleteTags_closeSpan, Html.plain]

theorem deleteTags_renderAll : (hs : List Html) → ClassedAll hs → (s : Text) →
    deleteTags (renderAll hs ++ s) = escapeHtml (plainAll hs) ++ deleteTags s
  | [], _, _ => rfl
  | h :: hs, hc, s => by
      rw [renderAll, List.append_assoc, h.deleteTags_render hc.1, deleteTags_renderAll hs hc.2,
        plainAll, escapeHtml_append, List.append_assoc]

end

theorem decodeEntities_deleteTags {hs : List Html} (h : ClassedAll hs) :
    decodeEntities (deleteTags (renderAll hs)) = plainAll hs := by
  have hdelete := deleteTags_renderAll hs h []
  rw [List.append_nil, deleteTags, List.append_nil] at hdelete
  rw [hdelete, decodeEntities_escapeHtml]

end MarkupHighlight
