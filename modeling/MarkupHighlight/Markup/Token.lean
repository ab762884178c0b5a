import MarkupHighlight.Markup.Attribute

/-!
The flat reading of a document: whole nodes, opening tags and closing tags, in order. A reading
keeps the tokens that stand before a failure, because a closing tag among them may fail first.
-/
namespace MarkupHighlight.Markup
open Script

/-- Elements that have neither content nor a closing tag. -/
def voidElements : List String :=
  ["area", "base", "br", "col", "command", "embed", "hr", "img", "input", "keygen", "link",
    "meta", "param", "source", "track", "wbr"]

/-- Elements whose content is one text. -/
def rawTextElements : List String := ["script", "style"]

def isVoid (name : Text) : Bool := voidElements.any fun v => v.toList == lowerAscii name

def isRawText (name : Text) : Bool := rawTextElements.any fun v => v.toList == lowerAscii name

/-- A node that is complete where it is read has no opening tag of its own in the token list. -/
inductive Token
  | node (n : Node)
  | openTag (name : Text) (start : Nat) (attributes : List Attribute)
  | closeTag (name : Text) (span : Span)
  deriving Repr

/-- The first characters of a comment, a tag or an expression. -/
def startsConstruct : Text → Bool
  | '{' :: _ => true
  | '<' :: '/' :: _ => true
  | '<' :: '!' :: '-' :: '-' :: _ => true
  | '<' :: c :: _ => c.isAlpha
  | _ => false

def afterText : Text → Text
  | [] => []
  | c :: s => if startsConstruct (c :: s) then c :: s else afterText s

/-- What follows the first `-->`. -/
def afterComment? : Text → Option Text
  | [] => none
  | '-' :: '-' :: '>' :: s => some s
  | _ :: s => afterComment? s

def isTagNameChar (c : Char) : Bool := !isTagBlank c && c != '/' && c != '>'

/-- The attributes of the tag that starts at `start` and whether the tag closes itself. -/
def readAttributes (start : Nat) (c : Cursor) : Except Error (List Attribute × Bool × Cursor) :=
  let c₁ := c.skipBlanks
  match _h : c.rest.dropWhile isTagBlank with
  | [] => .error (.unterminated .tag start)
  | '>' :: s => .ok ([], false, c₁.moveTo s)
  | '/' :: '>' :: s => .ok ([], true, c₁.moveTo s)
  | '/' :: s => readAttributes start (c₁.moveTo s)
  | _ =>
      match _h' : readAttribute c₁ with
      | .error e => .error e
      | .ok (a, c₂) => (readAttributes start c₂).map fun (as, r) => (a :: as, r)
  termination_by c.rest.length
  decreasing_by
    · have := length_dropWhile_le isTagBlank c.rest
      rw [_h, List.length_cons] at this
      rw [Cursor.rest_moveTo]
      omega
    · have := length_dropWhile_le isTagBlank c.rest
      have hlt : c₂.rest.length < (c.rest.dropWhile isTagBlank).length :=
        readAttribute_shorter _h'
      omega

/-- The content and closing tag of a raw text element, whose opening tag ends at `c`. The content
ends at the first `</` with the element's name, in any letter case. -/
def readRawText (name : Text) (start : Nat) (attributes : List Attribute) (c : Cursor) :
    Except Error (Token × Cursor) :=
  let close := '<' :: '/' :: lowerAscii name
  match splitOnFirst? close (lowerAscii c.rest) with
  | none => .error (.unclosedElement name start)
  | some (content, _) =>
      let inner := c.moveTo (c.rest.drop content.length)
      let c₁ := (inner.moveTo (inner.rest.drop close.length)).skipBlanks
      match c₁.rest with
      | '>' :: s =>
          let c₂ := c₁.moveTo s
          let children := if content.isEmpty then [] else [.text ⟨c.offset, inner.offset⟩]
          .ok (.node (.element name ⟨start, c₂.offset⟩ attributes children), c₂)
      | _ => .error (.expected .tagEnd c₁.offset)

/-- Reads from the `<` of an opening tag; `s` is what follows the `<`. -/
def readOpenTag (c : Cursor) (s : Text) : Except Error (Token × Cursor) :=
  let name := s.takeWhile isTagNameChar
  match readAttributes c.offset (c.moveTo (s.dropWhile isTagNameChar)) with
  | .error e => .error e
  | .ok (attributes, selfClosing, c₁) =>
      if selfClosing || isVoid name then
        .ok (.node (.element name ⟨c.offset, c₁.offset⟩ attributes []), c₁)
      else if isRawText name then readRawText name c.offset attributes c₁
      else .ok (.openTag name c.offset attributes, c₁)

/-- Reads from the `</` of a closing tag; `s` is what follows it. -/
def readCloseTag (c : Cursor) (s : Text) : Except Error (Token × Cursor) :=
  let name := s.takeWhile isTagNameChar
  if name.isEmpty then .error (.expected .tagName (c.offset + 2))
  else
    match (s.dropWhile isTagNameChar).dropWhile isTagBlank with
    | '>' :: r =>
        let c₁ := c.moveTo r
        .ok (.closeTag name ⟨c.offset, c₁.offset⟩, c₁)
    | _ => .error (.unterminated .closingTag c.offset)

/-- The first character of a block tag, as against an expression to show. -/
def isTagSign (c : Char) : Bool := c == '#' || c == ':' || c == '/' || c == '@'

/-- The node that a pair of braces around `inner` stands for. -/
def bracedNode (span : Span) (inner : Text) : Node :=
  match trimStart inner with
  | [] => .interpolation span (.classify (trim inner))
  | c :: s =>
      if isTagSign c then .tag ((c :: s).takeWhile fun d => !isBlank d) span
      else .interpolation span (.classify (trim inner))

/-- Reads from a `{`; `s` is what follows it. -/
def readBraced (c : Cursor) (s : Text) : Except Error (Token × Cursor) :=
  match afterBrace s with
  | none => .error (.unterminated .expression c.offset)
  | some r =>
      let c₁ := c.moveTo r
      .ok (.node (bracedNode ⟨c.offset, c₁.offset⟩ (enclosed s r)), c₁)

/-- Reads the token at a place where text is left. -/
def readToken (c : Cursor) : Except Error (Token × Cursor) :=
  match c.rest with
  | '<' :: '!' :: '-' :: '-' :: s =>
      match afterComment? s with
      | none => .error (.unterminated .comment c.offset)
      | some r =>
          let c₁ := c.moveTo r
          .ok (.node (.comment ⟨c.offset, c₁.offset⟩), c₁)
  | '<' :: '/' :: s => readCloseTag c s
  | '{' :: s => readBraced c s
  | d :: s =>
      if startsConstruct (d :: s) then readOpenTag c s
      else
        let c₁ := c.moveTo (afterText s)
        .ok (.node (.text ⟨c.offset, c₁.offset⟩), c₁)
  | [] => .ok (.node (.text ⟨c.offset, c.offset⟩), c)

theorem length_afterText_le (s : Text) : (afterText s).length ≤ s.length := by
  fun_induction afterText s <;> simp_all <;> omega

theorem length_afterComment?_le {s r : Text} (h : afterComment? s = some r) :
    r.length ≤ s.length := by
  fun_induction afterComment? s <;> simp_all <;> omega

theorem readAttributes_shorter {n : Nat} {c c' : Cursor} {as : List Attribute} {b : Bool}
    (h : readAttributes n c = .ok (as, b, c')) : c'.rest.length < c.rest.length := by
  have hd (c : Cursor) := length_dropWhile_le isTagBlank c.rest
  fun_induction readAttributes n c generalizing as with
  | case6 c c₁ a c₂ ha =>
      rename_i ih
      have hlt := readAttribute_shorter ha
      have := hd c
      cases hr : readAttributes n c₂ with
      | error e => simp [hr, Except.map] at h
      | ok v =>
          obtain ⟨as', b', c''⟩ := v
          simp only [hr, Except.map, Except.ok.injEq, Prod.mk.injEq] at h
          obtain ⟨-, rfl, rfl⟩ := h
          have := ih hr
          simp only [c₁, Cursor.skipBlanks, Cursor.rest_moveTo] at hlt
          omega
  | _ => grind

theorem readRawText_le {name : Text} {n : Nat} {as : List Attribute} {c c' : Cursor} {t : Token}
    (h : readRawText name n as c = .ok (t, c')) : c'.rest.length ≤ c.rest.length := by
  unfold readRawText at h
  dsimp only at h
  split at h
  · simp at h
  · rename_i content _ _
    split at h
    · rename_i s hs
      have := length_dropWhile_le isTagBlank
        ((c.rest.drop content.length).drop ('<' :: '/' :: lowerAscii name).length)
      simp only [Cursor.skipBlanks, Cursor.rest_moveTo] at hs
      simp only [Except.ok.injEq, Prod.mk.injEq] at h
      grind
    · simp at h

theorem readCloseTag_le {c c' : Cursor} {s : Text} {t : Token}
    (h : readCloseTag c s = .ok (t, c')) : c'.rest.length ≤ s.length := by
  unfold readCloseTag at h
  dsimp only at h
  have := length_dropWhile_le isTagNameChar s
  have := length_dropWhile_le isTagBlank (s.dropWhile isTagNameChar)
  grind

theorem readBraced_le {c c' : Cursor} {s : Text} {t : Token}
    (h : readBraced c s = .ok (t, c')) : c'.rest.length ≤ s.length := by
  unfold readBraced at h
  split at h
  · simp at h
  · rename_i hr
    have := afterBrace_length hr
    grind

theorem readOpenTag_le {c c' : Cursor} {s : Text} {t : Token}
    (h : readOpenTag c s = .ok (t, c')) : c'.rest.length ≤ s.length := by
  unfold readOpenTag at h
  dsimp only at h
  have hs := length_dropWhile_le isTagNameChar s
  split at h
  · simp at h
  · rename_i c₁ ha
    have := readAttributes_shorter ha
    simp only [Cursor.rest_moveTo] at this
    split at h
    · grind
    · split at h
      · have := readRawText_le h
        omega
      · grind

/-- A token takes at least one character. -/
theorem readToken_shorter {c c' : Cursor} {t : Token} (hc : c.rest ≠ [])
    (h : readToken c = .ok (t, c')) : c'.rest.length < c.rest.length := by
  unfold readToken at h
  split at h
  · split at h
    · simp at h
    · rename_i hr
      have := length_afterComment?_le hr
      grind
  · have := readCloseTag_le h
    grind
  · have := readBraced_le h
    grind
  · rename_i d s _ _ _ hs
    split at h
    · have := readOpenTag_le h
      grind
    · have := length_afterText_le s
      grind
  · contradiction

/-- The tokens of a document up to the first one that cannot be read, and what is wrong there. -/
structure Reading where
  tokens : List Token
  failure : Option Error
  deriving Repr

def readTokens (c : Cursor) : Reading :=
  if _hc : c.rest = [] then ⟨[], none⟩
  else
    match _h : readToken c with
    | .error e => ⟨[], some e⟩
    | .ok (t, c') =>
        let more := readTokens c'
        ⟨t :: more.tokens, more.failure⟩
  termination_by c.rest.length
  decreasing_by exact readToken_shorter _hc _h

end MarkupHighlight.Markup
