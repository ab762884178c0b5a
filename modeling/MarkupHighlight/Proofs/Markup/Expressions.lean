import MarkupHighlight.Proofs.Block.Spelled
import MarkupHighlight.Proofs.Markup.TagLayout
import MarkupHighlight.Proofs.Script.LineBreaks

/-!
Expressions in the braces of a document. Each of them is what its text is classified as
(`classified_of_parse`). A quoted literal in braces is one such expression, wherever it stands,
unless it has a line break of two characters in it: then the document cannot be read
(`readToken_quotedLiteral`).
-/
namespace MarkupHighlight.Markup
open Script

/-! One construct behind a document. -/

section
variable {a : Text} {d : Document} (ha : parse a = .ok d)
include ha

/-- A construct that is a node of its own, between two documents. -/
theorem parse_between {u : Text} {v : Node} (hu : IsLexeme u (.node v)) {b : Text} {e : Document}
    (hb : parse b = .ok e) :
    parse (a ++ (u ++ b)) =
      .ok ⟨byteSize (a ++ (u ++ b)), d.children ++
        v.shift (byteSize a) :: shiftAll (byteSize a + byteSize u) e.children⟩ := by
  obtain ⟨f, hf, rfl, rfl⟩ := parse_eq_ok_iff.mp ha
  obtain ⟨g, hg, rfl, rfl⟩ := parse_eq_ok_iff.mp hb
  have hbehind : (Forest.leaf u v g).Complete := ⟨.leaf hu hg.sound, hg.unclosed⟩
  have hfront := Outline.run_forest hf.sound {} 0 (hu.settled g.written)
  have hrest := Outline.run_forest hbehind.sound (Outline.absorb {} 0 f) (byteSize f.written)
    (.inl rfl : Settled [])
  have htop := Outline.absorb_top hf.unclosed (o := {}) rfl 0
  have hbottom := Outline.absorb_top hbehind.unclosed (o := Outline.absorb {} 0 f)
    (by rw [htop]) (byteSize f.written)
  rw [List.append_nil, Outline.run_nil, hbottom, htop] at hrest
  rw [Nat.zero_add] at hfront
  have hsize : byteSize f.written + byteSize u = byteSize f.written + byteSize u + 0 := rfl
  rw [parse_eq_run, hfront]
  simp only [Forest.written] at hrest
  rw [htop, hrest, hsize, ← Forest.nodesAt_add]
  simp [Except.bind, Outline.finish, Forest.nodesAt]

/-- A construct that cannot be read fails the document at the place where it stands. -/
theorem parse_broken {u : Text} (hu : startsConstruct u = true) {e : Error}
    (hread : readToken ⟨byteSize a, u⟩ = .error e) : parse (a ++ u) = .error e := by
  obtain ⟨f, hf, rfl, rfl⟩ := parse_eq_ok_iff.mp ha
  have hne : u ≠ [] := by
    rintro rfl
    cases hu
  have hrun := Outline.run_forest hf.sound {} 0 (.inr hu)
  rw [Nat.zero_add] at hrun
  rw [parse_eq_run, hrun, Outline.run_failure hne hread]
  rfl

end

/-! Quoted literals. -/

/-- A quoted literal between braces, as it is written. -/
def quotedBraces (quote : Char) (items : List QuotedItem) : Text :=
  '{' :: (quotedLiteral quote items ++ ['}'])

theorem exists_delimiter {q : Char} (hq : isQuote q = true) : ∃ d : Delimiter, d.char = q := by
  simp only [isQuote, Bool.or_eq_true, beq_iff_eq] at hq
  rcases hq with rfl | rfl
  · exact ⟨.single, rfl⟩
  · exact ⟨.double, rfl⟩

section
variable {q : Char} (hq : isQuote q = true) {items : List QuotedItem} (hfit : ∀ i ∈ items, i.Fits q)
include hq hfit

theorem isLexeme_quotedBraces (hnarrow : .wideLineBreak ∉ items) :
    IsLexeme (quotedBraces q items) (.node (.interpolation ⟨0, byteSize (quotedBraces q items)⟩
      (.literal (unescape (quotedBody items))))) := by
  have hafter (t : Text) : afterBrace (quotedLiteral q items ++ ['}'] ++ t) = some t := by
    have hread := afterBrace_quotedLiteral hfit hq t
    rwa [if_neg hnarrow, ← List.singleton_append, ← List.append_assoc] at hread
  have hclassify := classify_quotedLiteral hfit hq hnarrow
  have hlexeme := isLexeme_braced hafter
  obtain ⟨d, rfl⟩ := exists_delimiter hq
  rw [List.dropLast_concat, quotedLiteral, ← Delimiter.enclose, bracedNode_enclose] at hlexeme
  rw [quotedLiteral, ← Delimiter.enclose] at hclassify
  rw [hclassify] at hlexeme
  exact hlexeme

theorem readToken_wideLineBreak (hwide : .wideLineBreak ∈ items) (n : Nat) (t : Text) :
    readToken ⟨n, quotedBraces q items ++ t⟩ = .error (.unterminated .expression n) := by
  have hafter := afterBrace_quotedLiteral hfit hq t
  rw [if_pos hwide] at hafter
  have hbraces : quotedBraces q items ++ t = '{' :: (quotedLiteral q items ++ '}' :: t) := by
    simp [quotedBraces]
  rw [hbraces, readToken]
  simp only [readBraced, hafter]

/-- A quoted literal is taken whole by the scanner, and is in braces one expression with the decoded
body as its value, exactly if no line break of two characters is in it. One that has such a break
cannot be read in any document, though the decoder knows what it stands for. -/
theorem readToken_quotedLiteral :
    (∀ t, afterQuoted q (quotedBody items ++ q :: t) =
      if .wideLineBreak ∈ items then none else some t) ∧
    (.wideLineBreak ∉ items →
      IsLexeme (quotedBraces q items) (.node (.interpolation ⟨0, byteSize (quotedBraces q items)⟩
        (.literal (unescape (quotedBody items))))) ∧
      ∀ a b d e, parse a = .ok d → parse b = .ok e →
        parse (a ++ (quotedBraces q items ++ b)) =
          .ok ⟨byteSize (a ++ (quotedBraces q items ++ b)), d.children ++
            .interpolation ⟨byteSize a, byteSize a + byteSize (quotedBraces q items)⟩
              (.literal (unescape (quotedBody items))) ::
            shiftAll (byteSize a + byteSize (quotedBraces q items)) e.children⟩) ∧
    (.wideLineBreak ∈ items →
      (∀ n t, readToken ⟨n, quotedBraces q items ++ t⟩ = .error (.unterminated .expression n)) ∧
      ∀ a b d, parse a = .ok d →
        parse (a ++ (quotedBraces q items ++ b)) =
          .error (.unterminated .expression (byteSize a))) := by
  refine ⟨fun t => afterQuoted_quotedBody hfit hq t, fun hnarrow => ?_, fun hwide => ?_⟩
  · have hlexeme := isLexeme_quotedBraces hq hfit hnarrow
    refine ⟨hlexeme, fun a b d e ha hb => ?_⟩
    exact parse_between ha hlexeme hb
  · refine ⟨readToken_wideLineBreak hq hfit hwide, fun a b d ha => ?_⟩
    exact parse_broken ha rfl (readToken_wideLineBreak hq hfit hwide _ b)

end

/-- A line break behind a backslash, of one character and of two. -/
theorem readToken_quotedLiteral_break :
    parse "\x7b'a\\\nb'\x7d".toList =
      .ok ⟨8, [.interpolation ⟨0, 8⟩ (.literal "ab".toList)]⟩ ∧
    parse "\x7b'a\\\r\nb'\x7d".toList = .error (.unterminated .expression 0) := by
  have hempty : parse [] = .ok ⟨0, []⟩ := parse_written .nil
  have hvalue : unescape (quotedBody [.raw 'a', .escape '\n', .raw 'b']) = "ab".toList := by
    decide +kernel
  have hone : ∀ i ∈ [QuotedItem.raw 'a', .escape '\n', .raw 'b'], i.Fits '\x27' := by
    simp [QuotedItem.Fits]
  have htwo : ∀ i ∈ [QuotedItem.raw 'a', .wideLineBreak, .raw 'b'], i.Fits '\x27' := by
    simp [QuotedItem.Fits]
  obtain ⟨-, hread, -⟩ := readToken_quotedLiteral rfl hone
  obtain ⟨-, -, hfail⟩ := readToken_quotedLiteral rfl htwo
  rw [hvalue] at hread
  obtain ⟨-, hparse⟩ := hread (by decide)
  exact ⟨hparse [] [] _ _ hempty hempty, (hfail (by decide)).2 [] [] _ hempty⟩

/-! Whatever stands in braces. -/

mutual

/-- Every expression shown at a node or below it is what some text is classified as. -/
def Node.Classified : Node → Prop
  | .element _ _ _ children => ClassifiedAll children
  | .interpolation _ e => ∃ s, e = .classify s
  | .text _ | .comment _ | .tag _ _ => True

def ClassifiedAll : List Node → Prop
  | [] => True
  | v :: vs => v.Classified ∧ ClassifiedAll vs

end

mutual

theorem Node.Classified.shift (n : Nat) : {v : Node} → v.Classified → (v.shift n).Classified
  | .element _ _ _ children, h => ClassifiedAll.shift n (show ClassifiedAll children from h)
  | .interpolation _ _, h => h
  | .text _, h | .comment _, h | .tag _ _, h => h

theorem ClassifiedAll.shift (n : Nat) : {vs : List Node} → ClassifiedAll vs →
    ClassifiedAll (shiftAll n vs)
  | [], h => h
  | _ :: _, h => ⟨h.1.shift n, h.2.shift n⟩

end

mutual

theorem Node.Classified.children {w : Node} : {v : Node} → v.Classified → w ∈ v.preorder →
    ClassifiedAll w.children
  | .element name span attributes children, h, hw => by
      rw [Node.preorder] at hw
      rcases List.mem_cons.mp hw with rfl | hw
      · exact h
      · have hchildren : ClassifiedAll children := h
        exact hchildren.children hw
  | .interpolation _ _, _, hw => by cases hw
  | .text _, _, hw | .comment _, _, hw | .tag _ _, _, hw => by
      rw [List.mem_singleton.mp hw]
      trivial

theorem ClassifiedAll.children {w : Node} : {vs : List Node} → ClassifiedAll vs →
    w ∈ preorderAll vs → ClassifiedAll w.children
  | [], _, hw => by cases hw
  | _ :: _, h, hw => (List.mem_append.mp hw).elim h.1.children h.2.children

end

theorem ClassifiedAll.exists_of_firstInterpolation {vs : List Node} (h : ClassifiedAll vs)
    {e : Expression} (he : firstInterpolation? vs = some e) : ∃ s, e = .classify s := by
  induction vs with
  | nil => cases he
  | cons v vs ih =>
    rw [firstInterpolation?, List.findSome?_cons] at he
    cases v with
    | interpolation span e' =>
      obtain rfl := Option.some.inj he
      exact h.1
    | _ => exact ih h.2 he

theorem classified_bracedNode (span : Span) (inner : Text) :
    (bracedNode span inner).Classified := by
  unfold bracedNode
  split
  · exact ⟨_, rfl⟩
  · split
    · trivial
    · exact ⟨_, rfl⟩

section
variable {c c' : Cursor} {v : Node}

theorem classified_of_readRawText {name : Text} {start : Nat} {attributes : List Attribute}
    (h : readRawText name start attributes c = .ok (.node v, c')) : v.Classified := by
  obtain ⟨content, -, -, -, -, -, -, hv⟩ := rawText_of_readRawText h
  obtain rfl := Token.node.inj hv
  unfold rawContent
  split <;> simp [Node.Classified, ClassifiedAll]

theorem classified_of_readOpenTag {s : Text} (h : readOpenTag c s = .ok (.node v, c')) :
    v.Classified := by
  unfold readOpenTag at h
  dsimp only at h
  split at h
  next => cases h
  next =>
    split at h
    next =>
      obtain ⟨hv, -⟩ := Prod.mk.inj (Except.ok.inj h)
      obtain rfl := Token.node.inj hv
      trivial
    next =>
      split at h
      next => exact classified_of_readRawText h
      next => cases h

theorem classified_of_readBraced {s : Text} (h : readBraced c s = .ok (.node v, c')) :
    v.Classified := by
  unfold readBraced at h
  split at h
  next => cases h
  next =>
    obtain ⟨hv, -⟩ := Prod.mk.inj (Except.ok.inj h)
    obtain rfl := Token.node.inj hv
    exact classified_bracedNode _ _

theorem readCloseTag_ne_node {s : Text} : readCloseTag c s ≠ .ok (.node v, c') := by
  unfold readCloseTag
  dsimp only
  split
  next => simp
  next => split <;> simp

theorem classified_of_readToken (h : readToken c = .ok (.node v, c')) : v.Classified := by
  unfold readToken at h
  split at h
  next =>
    split at h
    next => cases h
    next =>
      obtain ⟨hv, -⟩ := Prod.mk.inj (Except.ok.inj h)
      obtain rfl := Token.node.inj hv
      trivial
  next => exact absurd h readCloseTag_ne_node
  next => exact classified_of_readBraced h
  next =>
    split at h
    next => exact classified_of_readOpenTag h
    next =>
      obtain ⟨hv, -⟩ := Prod.mk.inj (Except.ok.inj h)
      obtain rfl := Token.node.inj hv
      trivial
  next =>
    obtain ⟨hv, -⟩ := Prod.mk.inj (Except.ok.inj h)
    obtain rfl := Token.node.inj hv
    trivial

end

theorem IsLexeme.classified {u : Text} {v : Node} (h : IsLexeme u (.node v)) : v.Classified := by
  have hread := h.reads 0 []
  rw [Token.shift, Node.shift_zero] at hread
  exact classified_of_readToken hread

theorem Forest.Sound.classified {f : Forest} (hf : f.Sound) (n : Nat) :
    ClassifiedAll (f.nodesAt n) := by
  induction hf generalizing n with
  | nil => trivial
  | plain _ _ _ _ ih => exact ⟨trivial, ih _⟩
  | leaf hs _ ih => exact ⟨hs.classified.shift n, ih _⟩
  | closed _ _ _ _ _ ih ih_rest => exact ⟨ih _, ih_rest _⟩
  | hanging _ _ ih => exact ⟨ih _, trivial⟩

/-- The expressions of a document are what the texts in its braces are classified as. -/
theorem classified_of_parse {s : Text} {d : Document} (h : parse s = .ok d) :
    ClassifiedAll d.children := by
  obtain ⟨f, hf, -, rfl⟩ := parse_eq_ok_iff.mp h
  exact hf.sound.classified 0

end MarkupHighlight.Markup
