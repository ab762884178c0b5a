import MarkupHighlight.Proofs.Markup.Parsing
import MarkupHighlight.Proofs.Markup.Tags
import MarkupHighlight.Proofs.Script.Balanced

/-!
Documents as one prints them, and back: `parse_print` says that parsing a printed tree gives that
tree, with every span where it was printed.
-/
namespace MarkupHighlight.Markup
open Script

/-- Siblings in the order in which they are printed. -/
inductive Tree
  | nil
  | text (s : Text) (rest : Tree)
  | comment (body : Text) (rest : Tree)
  | interpolation (code : Text) (rest : Tree)
  | tag (name arguments : Text) (rest : Tree)
  | empty (name : Text) (attributes : List PlainAttribute) (gap : Text) (rest : Tree)
  | element (name : Text) (attributes : List PlainAttribute) (children rest : Tree)
  deriving Repr

def commentText (body : Text) : Text := '<' :: '!' :: '-' :: '-' :: (body ++ ['-', '-', '>'])

def bracedText (code : Text) : Text := '{' :: (code ++ ['}'])

def emptyTag (name : Text) (attributes : List PlainAttribute) (gap : Text) : Text :=
  plainTag name attributes (gap ++ ['/', '>'])

def openingTag (name : Text) (attributes : List PlainAttribute) : Text :=
  plainTag name attributes ['>']

def closingTag (name : Text) : Text := '<' :: '/' :: (name ++ ['>'])

namespace Tree

def print : Tree → Text
  | nil => []
  | text s rest => s ++ rest.print
  | comment body rest => commentText body ++ rest.print
  | interpolation code rest => bracedText code ++ rest.print
  | tag name arguments rest => bracedText (name ++ arguments) ++ rest.print
  | empty name attributes gap rest => emptyTag name attributes gap ++ rest.print
  | element name attributes children rest =>
      openingTag name attributes ++ (children.print ++ (closingTag name ++ rest.print))

/-- The nodes of siblings that are printed from byte `n` on. -/
def nodesAt (n : Nat) : Tree → List Node
  | nil => []
  | text s rest => .text ⟨n, n + byteSize s⟩ :: rest.nodesAt (n + byteSize s)
  | comment body rest =>
      let stop := n + byteSize (commentText body)
      .comment ⟨n, stop⟩ :: rest.nodesAt stop
  | interpolation code rest =>
      let stop := n + byteSize (bracedText code)
      .interpolation ⟨n, stop⟩ (.classify (trim code)) :: rest.nodesAt stop
  | tag name arguments rest =>
      let stop := n + byteSize (bracedText (name ++ arguments))
      .tag name ⟨n, stop⟩ :: rest.nodesAt stop
  | empty name attributes gap rest =>
      let stop := n + byteSize (emptyTag name attributes gap)
      .element name ⟨n, stop⟩ (attributesAt (n + byteSize ('<' :: name)) attributes) [] ::
        rest.nodesAt stop
  | element name attributes children rest =>
      let stop := n + byteSize (openingTag name attributes ++ (children.print ++ closingTag name))
      .element name ⟨n, stop⟩ (attributesAt (n + byteSize ('<' :: name)) attributes)
        (children.nodesAt (n + byteSize (openingTag name attributes))) :: rest.nodesAt stop

def startsText : Tree → Bool
  | text .. => true
  | _ => false

/-- Every part has the form that makes it read as what it is, and no two texts are adjacent. -/
inductive WellFormed : Tree → Prop
  | nil : WellFormed .nil
  | text {s : Text} {rest : Tree} (hne : s ≠ []) (hs : ∀ c ∈ s, c ≠ '<' ∧ c ≠ '{')
      (hrest : rest.startsText = false) (rest_wf : rest.WellFormed) : WellFormed (.text s rest)
  | comment {body : Text} {rest : Tree} (hbody : ¬ ['-', '-', '>'] <:+: body)
      (rest_wf : rest.WellFormed) : WellFormed (.comment body rest)
  | interpolation {code : Text} {rest : Tree} (hcode : Balanced (.code 0) code)
      (hsign : ∀ c s, trimStart code = c :: s → isTagSign c = false)
      (rest_wf : rest.WellFormed) : WellFormed (.interpolation code rest)
  | tag {name arguments : Text} {rest : Tree} (hcode : Balanced (.code 0) (name ++ arguments))
      (hsign : ∃ c s, name = c :: s ∧ isTagSign c = true) (hname : ∀ c ∈ name, isBlank c = false)
      (harguments : ∀ c s, arguments = c :: s → isBlank c = true) (rest_wf : rest.WellFormed) :
      WellFormed (.tag name arguments rest)
  | empty {name gap : Text} {attributes : List PlainAttribute} {rest : Tree}
      (hname : IsTagName name) (hattributes : ∀ a ∈ attributes, a.WellFormed)
      (hgap : ∀ c ∈ gap, isTagBlank c = true) (rest_wf : rest.WellFormed) :
      WellFormed (.empty name attributes gap rest)
  | element {name : Text} {attributes : List PlainAttribute} {children rest : Tree}
      (hname : IsPlainName name) (hattributes : ∀ a ∈ attributes, a.WellFormed)
      (children_wf : children.WellFormed) (rest_wf : rest.WellFormed) :
      WellFormed (.element name attributes children rest)

end Tree

/-! The printed parts as lexemes. -/

theorem isPlain_of_chars {s : Text} (hs : ∀ c ∈ s, c ≠ '<' ∧ c ≠ '{') : isPlain s = true := by
  induction s with
  | nil => rfl
  | cons c s ih =>
    have hc := hs c (List.mem_cons_self ..)
    have hstart : startsConstruct (c :: s) = false := by
      rw [← Bool.not_eq_true]
      intro h
      rcases head_of_startsConstruct h with rfl | rfl
      · exact hc.2 rfl
      · exact hc.1 rfl
    rw [isPlain, hstart, ih fun d hd => hs d (List.mem_cons_of_mem _ hd)]
    rfl

/-- The end of a comment's body is the first one, since no other starts inside it. -/
theorem afterComment?_body {body : Text} (h : ¬ ['-', '-', '>'] <:+: body) (t : Text) :
    afterComment? (body ++ ['-', '-', '>'] ++ t) = some t := by
  induction body with
  | nil => rfl
  | cons c body ih =>
    have hbody : ¬ ['-', '-', '>'] <:+: body := by
      intro hin
      exact h (hin.trans (List.suffix_cons c body).isInfix)
    have hstep : ∀ r, c = '-' → body ++ ['-', '-', '>'] ++ t = '-' :: '>' :: r → False := by
      rintro r rfl hr
      obtain _ | ⟨d, _ | ⟨e, body⟩⟩ := body
      · simp at hr
      · simp at hr
      · simp only [List.cons_append, List.cons.injEq] at hr
        obtain ⟨rfl, rfl, -⟩ := hr
        exact h ⟨[], body, rfl⟩
    rw [List.cons_append, List.cons_append, afterComment?.eq_3 c _ hstep, ih hbody]

theorem bracedNode_interpolation {code : Text}
    (hsign : ∀ c s, trimStart code = c :: s → isTagSign c = false) (span : Span) :
    bracedNode span code = .interpolation span (.classify (trim code)) := by
  unfold bracedNode
  split
  · rfl
  · rename_i c s hcode
    rw [hsign c s hcode]
    rfl

theorem bracedNode_tag {name arguments : Text}
    (hsign : ∃ c s, name = c :: s ∧ isTagSign c = true) (hname : ∀ c ∈ name, isBlank c = false)
    (harguments : ∀ c s, arguments = c :: s → isBlank c = true) (span : Span) :
    bracedNode span (name ++ arguments) = .tag name span := by
  obtain ⟨c, s, rfl, hc⟩ := hsign
  have hblank := hname c (List.mem_cons_self ..)
  have htrim : trimStart (c :: s ++ arguments) = c :: (s ++ arguments) := by
    simp [trimStart, hblank]
  have hend : (c :: s ++ arguments).takeWhile (fun d => !isBlank d) = c :: s := by
    have hall : ∀ d ∈ c :: s, (!isBlank d) = true := by
      intro d hd
      rw [hname d hd]
      rfl
    cases arguments with
    | nil => rw [List.append_nil, List.takeWhile_eq_self_iff.mpr hall]
    | cons d arguments => exact takeWhile_run hall (by rw [harguments d arguments rfl]; rfl) _
  unfold bracedNode
  rw [htrim]
  simp only [hc, if_true]
  exact congrArg (Node.tag · span) hend

theorem isLexeme_commentText {body : Text} (h : ¬ ['-', '-', '>'] <:+: body) :
    IsLexeme (commentText body) (.node (.comment ⟨0, byteSize (commentText body)⟩)) :=
  isLexeme_comment (afterComment?_body h)

theorem isLexeme_bracedText {code : Text} (h : Balanced (.code 0) code) :
    IsLexeme (bracedText code) (.node (bracedNode ⟨0, byteSize (bracedText code)⟩ code)) := by
  have hread (t : Text) : afterBrace (code ++ ['}'] ++ t) = some t := by
    rw [List.append_assoc]
    exact afterBrace_balanced h t
  have hlexeme := isLexeme_braced hread
  rw [List.dropLast_concat] at hlexeme
  exact hlexeme

/-! The printed tree as a forest. -/

namespace Tree

def toForest : Tree → Forest
  | nil => .nil
  | text s rest => .plain s rest.toForest
  | comment body rest =>
      .leaf (commentText body) (.comment ⟨0, byteSize (commentText body)⟩) rest.toForest
  | interpolation code rest =>
      .leaf (bracedText code)
        (.interpolation ⟨0, byteSize (bracedText code)⟩ (.classify (trim code))) rest.toForest
  | tag name arguments rest =>
      .leaf (bracedText (name ++ arguments))
        (.tag name ⟨0, byteSize (bracedText (name ++ arguments))⟩) rest.toForest
  | empty name attributes gap rest =>
      .leaf (emptyTag name attributes gap)
        (.element name ⟨0, byteSize (emptyTag name attributes gap)⟩
          (attributesAt (byteSize ('<' :: name)) attributes) []) rest.toForest
  | element name attributes children rest =>
      .closed (openingTag name attributes) name (attributesAt (byteSize ('<' :: name)) attributes)
        children.toForest (closingTag name) rest.toForest

theorem written_toForest (t : Tree) : t.toForest.written = t.print := by
  induction t with
  | nil => rfl
  | text _ _ ih | comment _ _ ih | interpolation _ _ ih | tag _ _ _ ih | empty _ _ _ _ ih =>
    rw [toForest, Forest.written, ih, print]
  | element _ _ _ _ ih ih_rest => rw [toForest, Forest.written, ih, ih_rest, print]

theorem unclosed_toForest (t : Tree) : t.toForest.unclosed = [] := by
  induction t with
  | nil => rfl
  | text _ _ ih | comment _ _ ih | interpolation _ _ ih | tag _ _ _ ih | empty _ _ _ _ ih
  | element _ _ _ _ _ ih => rw [toForest, Forest.unclosed, ih]

theorem nodesAt_toForest (t : Tree) (n : Nat) : t.toForest.nodesAt n = t.nodesAt n := by
  induction t generalizing n with
  | nil => rfl
  | text _ _ ih => rw [toForest, Forest.nodesAt, ih, nodesAt]
  | comment _ _ ih | interpolation _ _ ih | tag _ _ _ ih =>
    rw [toForest, Forest.nodesAt, ih, nodesAt]
    rfl
  | empty _ _ _ _ ih =>
    rw [toForest, Forest.nodesAt, ih, nodesAt, attributesAt_add]
    rfl
  | element _ _ _ _ ih ih_rest =>
    rw [toForest, Forest.nodesAt, ih, ih_rest, nodesAt, attributesAt_add, written_toForest]

theorem startsPlain_toForest (t : Tree) : t.toForest.startsPlain = t.startsText := by
  cases t <;> rfl

theorem WellFormed.sound {t : Tree} (h : t.WellFormed) : t.toForest.Sound := by
  induction h with
  | nil => exact .nil
  | text hne hs hrest _ ih =>
    rw [← startsPlain_toForest] at hrest
    exact .plain hne (isPlain_of_chars hs) hrest ih
  | comment hbody _ ih => exact .leaf (isLexeme_commentText hbody) ih
  | interpolation hcode hsign _ ih =>
    have hlexeme := isLexeme_bracedText hcode
    rw [bracedNode_interpolation hsign] at hlexeme
    exact .leaf hlexeme ih
  | tag hcode hsign hname harguments _ ih =>
    have hlexeme := isLexeme_bracedText hcode
    rw [bracedNode_tag hsign hname harguments] at hlexeme
    exact .leaf hlexeme ih
  | empty hname hattributes hgap _ ih =>
    exact .leaf (isLexeme_selfClosingTag hattributes hname hgap) ih
  | element hname hattributes _ _ ih ih_rest =>
    refine .closed (isLexeme_plainTag hattributes hname) ih ?_ (isLexeme_bareCloseTag hname) ih_rest
    rw [unclosed_toForest]
    exact List.not_mem_nil

end Tree

/-- Parsing undoes printing, for documents of any depth and width. -/
theorem parse_print {t : Tree} (h : t.WellFormed) :
    parse t.print = .ok ⟨byteSize t.print, t.nodesAt 0⟩ := by
  have hparse := parse_written ⟨h.sound, t.unclosed_toForest⟩
  rw [t.written_toForest, t.nodesAt_toForest] at hparse
  exact hparse

/-- A paragraph with both kinds of attributes and one child of every kind. -/
theorem parse_print_paragraph :
    parse "<p id=\"a b\" hidden>Hi \x7bf('\x7d')\x7d<!--c--><br /><b></b>\x7b#if x\x7d</p>".toList =
      .ok ⟨62, [.element "p".toList ⟨0, 62⟩
        [⟨"id".toList, ⟨3, 11⟩, some [.text "a b".toList]⟩, ⟨"hidden".toList, ⟨12, 18⟩, none⟩]
        [.text ⟨19, 22⟩, .interpolation ⟨22, 30⟩ (.other "f('\x7d')".toList),
          .comment ⟨30, 38⟩, .element "br".toList ⟨38, 44⟩ [] [],
          .element "b".toList ⟨44, 51⟩ [] [], .tag "#if".toList ⟨51, 58⟩]]⟩ := by
  have hquoted : Balanced (.code 1) "'\x7d'".toList :=
    .nested (.quote 1 (q := '\x27') rfl) (.pass rfl (.nil _)) (.quote _) (.nil _)
  have hcall : Balanced (.code 0) "f('\x7d')".toList :=
    .pass rfl (.group (c := '(') rfl (e := ')') rfl hquoted (.nil _))
  have hif : Balanced (.code 0) "#if x".toList :=
    .pass rfl (.pass rfl (.pass rfl (.pass rfl (.pass rfl (.nil _)))))
  have hkeys : ∀ a ∈ ([⟨"id".toList, some "a b".toList⟩, ⟨"hidden".toList, none⟩] :
      List PlainAttribute), a.WellFormed := by
    refine List.forall_mem_cons.mpr ⟨⟨⟨by decide, List.all_eq_true.mp (by decide)⟩, ?_⟩,
      List.forall_mem_singleton.mpr ⟨⟨by decide, List.all_eq_true.mp (by decide)⟩, nofun⟩⟩
    intro v hv
    cases hv
    exact List.all_eq_true.mp (by decide)
  have hp : IsPlainName "p".toList :=
    ⟨List.all_eq_true.mp (by decide), ⟨'p', [], rfl, by decide⟩, by decide, by decide⟩
  have hbr : IsTagName "br".toList := ⟨List.all_eq_true.mp (by decide), ⟨'b', _, rfl, by decide⟩⟩
  have hb : IsPlainName "b".toList :=
    ⟨List.all_eq_true.mp (by decide), ⟨'b', [], rfl, by decide⟩, by decide, by decide⟩
  have hi : ∀ c ∈ "Hi ".toList, c ≠ '<' ∧ c ≠ '{' := by simp
  have hsharp : ∀ c ∈ "#if".toList, isBlank c = false := by simp [isBlank]
  have hgap : ∀ c ∈ [' '], isTagBlank c = true := List.all_eq_true.mp (by decide)
  have htree : (Tree.element "p".toList
      [⟨"id".toList, some "a b".toList⟩, ⟨"hidden".toList, none⟩]
      (.text "Hi ".toList (.interpolation "f('\x7d')".toList (.comment "c".toList
        (.empty "br".toList [] [' '] (.element "b".toList [] .nil
          (.tag "#if".toList " x".toList .nil)))))) .nil).WellFormed := by
    refine .element hp hkeys (.text nofun hi rfl ?_) .nil
    refine .interpolation hcall (fun c s h => ?_) (.comment (fun h => ?_) ?_)
    · cases h
      rfl
    · exact absurd h.length_le (by decide)
    · refine .empty hbr nofun hgap (.element hb nofun .nil ?_)
      refine .tag hif ⟨'#', _, rfl, rfl⟩ hsharp (fun c s h => ?_) .nil
      cases h
      rfl
  exact parse_print htree

end MarkupHighlight.Markup
