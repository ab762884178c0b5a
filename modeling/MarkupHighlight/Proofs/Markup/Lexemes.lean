import MarkupHighlight.Markup.Walk
import MarkupHighlight.Proofs.Markup.Attributes

/-!
The tokens of a document. Comments, tags and expressions are read alike wherever they stand and
whatever follows them (`readToken_local`). A text node ends where one of those starts, so it needs
to know that what follows is settled.
-/
namespace MarkupHighlight.Markup
open Script

/-! Text between constructs. -/

/-- No construct starts in the text. -/
def isPlain : Text → Bool
  | [] => true
  | c :: s => !startsConstruct (c :: s) && isPlain s

/-- The text is empty or starts with a construct. -/
def Settled (t : Text) : Prop := t = [] ∨ startsConstruct t = true

/-- Texts that start a construct or not, depending on what follows. -/
def cutOpenings : List Text := [['<'], ['<', '!'], ['<', '!', '-']]

theorem startsConstruct_append {v : Text} (hv : v ≠ []) (hcut : v ∉ cutOpenings) (t : Text) :
    startsConstruct (v ++ t) = startsConstruct v := by
  simp only [cutOpenings, List.mem_cons, not_or] at hcut
  fun_cases startsConstruct v with
  | case1 | case2 | case3 => simp [startsConstruct]
  | case4 c s hslash hcomment =>
    obtain _ | ⟨d, _ | ⟨e, s⟩⟩ := s
    all_goals rw [startsConstruct.eq_def]; split <;> simp_all
  | case5 hbrace hslash hcomment htag =>
    obtain _ | ⟨c, _ | ⟨d, s⟩⟩ := v
    all_goals rw [startsConstruct.eq_def]; split <;> simp_all

theorem startsConstruct_append_of_starts {v : Text} (hv : startsConstruct v = true) (t : Text) :
    startsConstruct (v ++ t) = true := by
  have hcut : v ∉ cutOpenings := by
    intro h
    simp only [cutOpenings, List.mem_cons, List.not_mem_nil, or_false] at h
    rcases h with rfl | rfl | rfl <;> simp [startsConstruct] at hv
  have hne : v ≠ [] := by
    rintro rfl
    simp [startsConstruct] at hv
  rw [startsConstruct_append hne hcut, hv]

theorem head_of_startsConstruct {c : Char} {s : Text} (h : startsConstruct (c :: s) = true) :
    c = '{' ∨ c = '<' := by
  unfold startsConstruct at h
  split at h <;> simp_all

theorem Settled.startsConstruct_append {v t : Text} (ht : Settled t) (hv : v ≠ []) :
    startsConstruct (v ++ t) = startsConstruct v := by
  by_cases hcut : v ∈ cutOpenings
  · rcases ht with rfl | ht
    · rw [List.append_nil]
    · obtain _ | ⟨c, t⟩ := t
      · rw [List.append_nil]
      · simp only [cutOpenings, List.mem_cons, List.not_mem_nil, or_false] at hcut
        rcases hcut with rfl | rfl | rfl <;> rcases head_of_startsConstruct ht with rfl | rfl <;>
          simp [startsConstruct]
  · exact MarkupHighlight.Markup.startsConstruct_append hv hcut t

theorem isPlain_append_of_not_cut {u v : Text} (hcut : ∀ w ∈ cutOpenings, ¬ w <:+ u) :
    isPlain (u ++ v) = (isPlain u && isPlain v) := by
  induction u with
  | nil => simp [isPlain]
  | cons c u ih =>
    have hstart := startsConstruct_append (List.cons_ne_nil c u)
      (fun h => hcut _ h List.suffix_rfl) v
    have hrest := ih fun w hw h => hcut w hw (h.trans (List.suffix_cons c u))
    rw [List.cons_append, isPlain, isPlain, ← List.cons_append, hstart, hrest, Bool.and_assoc]

theorem afterText_append {u t : Text} (hu : isPlain u = true) (ht : Settled t) :
    afterText (u ++ t) = t := by
  induction u with
  | nil =>
    cases t with
    | nil => rfl
    | cons c t =>
      have hstart : startsConstruct (c :: t) = true := by simpa [Settled] using ht
      rw [List.nil_append, afterText, if_pos hstart]
  | cons c u ih =>
    simp only [isPlain, Bool.and_eq_true, Bool.not_eq_true'] at hu
    have hstart := ht.startsConstruct_append (List.cons_ne_nil c u)
    rw [List.cons_append] at hstart ⊢
    rw [afterText, hstart, hu.1, if_neg Bool.false_ne_true, ih hu.2]

theorem afterText_cut (s : Text) :
    ∃ u, s = u ++ afterText s ∧ isPlain u = true ∧ Settled (afterText s) := by
  induction s with
  | nil => exact ⟨[], rfl, rfl, .inl rfl⟩
  | cons c s ih =>
    unfold afterText
    split
    next h => exact ⟨[], rfl, rfl, .inr h⟩
    next h =>
      obtain ⟨u, hs, hu, ht⟩ := ih
      refine ⟨c :: u, congrArg (c :: ·) hs, ?_, ht⟩
      have hstart := ht.startsConstruct_append (List.cons_ne_nil c u)
      rw [List.cons_append, ← hs] at hstart
      rw [isPlain, ← hstart, hu]
      simpa using h

/-! The rules of the reader, one for each kind of construct. -/

theorem readToken_plain {u t : Text} (hne : u ≠ []) (hu : isPlain u = true) (ht : Settled t)
    (n : Nat) :
    readToken ⟨n, u ++ t⟩ = .ok (.node (.text ⟨n, n + byteSize u⟩), ⟨n + byteSize u, t⟩) := by
  obtain ⟨c, u, rfl⟩ := List.exists_cons_of_ne_nil hne
  have hmove := Cursor.moveTo_append n (c :: u) t
  simp only [isPlain, Bool.and_eq_true, Bool.not_eq_true'] at hu
  have hstart := ht.startsConstruct_append (List.cons_ne_nil c u)
  rw [hu.1, List.cons_append] at hstart
  rw [List.cons_append] at hmove ⊢
  unfold readToken
  split
  next heq => simp_all [startsConstruct]
  next heq => simp_all [startsConstruct]
  next heq => simp_all [startsConstruct]
  next heq =>
    obtain ⟨rfl, rfl⟩ := List.cons.inj heq
    rw [hstart, if_neg Bool.false_ne_true, afterText_append hu.2 ht, hmove]
  next heq => cases heq

theorem readToken_comment {u t : Text} (hu : afterComment? (u ++ t) = some t) (n : Nat) :
    readToken ⟨n, '<' :: '!' :: '-' :: '-' :: (u ++ t)⟩ =
      .ok (.node (.comment ⟨n, n + byteSize ('<' :: '!' :: '-' :: '-' :: u)⟩),
        ⟨n + byteSize ('<' :: '!' :: '-' :: '-' :: u), t⟩) := by
  have hmove := Cursor.moveTo_append n ('<' :: '!' :: '-' :: '-' :: u) t
  simp only [List.cons_append] at hmove
  simp only [readToken, hu, hmove]

theorem readToken_braced {u t : Text} (hu : afterBrace (u ++ t) = some t) (n : Nat) :
    readToken ⟨n, '{' :: (u ++ t)⟩ =
      .ok (.node (bracedNode ⟨n, n + byteSize ('{' :: u)⟩ u.dropLast),
        ⟨n + byteSize ('{' :: u), t⟩) := by
  have hmove := Cursor.moveTo_append n ('{' :: u) t
  simp only [List.cons_append] at hmove
  simp only [readToken, readBraced, hu, hmove, enclosed_append]

theorem readToken_closeTag {name b t : Text} (hname : name ≠ [])
    (hn : ∀ c ∈ name, isTagNameChar c = true) (hb : ∀ c ∈ b, isTagBlank c = true) (n : Nat) :
    readToken ⟨n, '<' :: '/' :: (name ++ (b ++ '>' :: t))⟩ =
      .ok (.closeTag name ⟨n, n + byteSize ('<' :: '/' :: (name ++ (b ++ ['>'])))⟩,
        ⟨n + byteSize ('<' :: '/' :: (name ++ (b ++ ['>']))), t⟩) := by
  have hmove := Cursor.moveTo_append n ('<' :: '/' :: (name ++ (b ++ ['>']))) t
  simp only [List.cons_append, List.append_assoc, List.nil_append] at hmove
  obtain ⟨d, x, hx, hd⟩ : ∃ d x, b ++ '>' :: t = d :: x ∧ isTagNameChar d = false := by
    cases b with
    | nil => exact ⟨'>', t, rfl, by decide⟩
    | cons d b =>
      have := hb d (List.mem_cons_self ..)
      exact ⟨d, b ++ '>' :: t, rfl, by simp [isTagNameChar, this]⟩
  have hdrop := dropWhile_run hn hd x
  have htake := takeWhile_run hn hd x
  rw [← hx] at hdrop htake
  simp only [readToken, readCloseTag, htake, hdrop, dropWhile_run hb (d := '>') (by decide),
    hmove]
  rw [if_neg (by simpa using hname)]

/-- The children of an element whose content, one text or none, starts at `n`. -/
def rawContent (n : Nat) (content : Text) : List Node :=
  if content.isEmpty then [] else [.text ⟨n, n + byteSize content⟩]

@[simp] theorem shiftAll_rawContent (m n : Nat) (content : Text) :
    shiftAll n (rawContent m content) = rawContent (n + m) content := by
  unfold rawContent
  split <;> simp [shiftAll, Node.shift, Span.shift, Nat.add_assoc]

theorem readRawText_closed {name x y b t : Text} (hy : y.length = name.length + 2)
    (hx : splitOnFirst? ('<' :: '/' :: lowerAscii name) (lowerAscii (x ++ (y ++ (b ++ '>' :: t)))) =
      some (lowerAscii x, lowerAscii (b ++ '>' :: t)))
    (hb : ∀ c ∈ b, isTagBlank c = true) (m n : Nat) (as : List Attribute) :
    readRawText name m as ⟨n, x ++ (y ++ (b ++ '>' :: t))⟩ =
      .ok (.node (.element name ⟨m, n + byteSize (x ++ (y ++ (b ++ ['>'])))⟩ as (rawContent n x)),
        ⟨n + byteSize (x ++ (y ++ (b ++ ['>']))), t⟩) := by
  have hlx : (lowerAscii x).length = x.length := List.length_map _
  have hly : ('<' :: '/' :: lowerAscii name).length = y.length := by simp [lowerAscii, hy]
  have hempty : (lowerAscii x).isEmpty = x.isEmpty := by cases x <;> rfl
  have hlast := Cursor.moveTo_append (n + byteSize x + byteSize y + byteSize b) ['>'] t
  rw [List.singleton_append] at hlast
  simp only [readRawText, hx, hlx, hly, List.drop_left, Cursor.moveTo_append,
    skipBlanks_run hb (d := '>') (by decide), hlast, hempty, rawContent]
  simp only [byteSize_append, Nat.add_assoc]

theorem readOpenTag_eq {name x : Text} {d : Char} (hn : ∀ c ∈ name, isTagNameChar c = true)
    (hd : isTagNameChar d = false) {n : Nat} {as : List Attribute} {closed : Bool} {c : Cursor}
    (h : readAttributes n ⟨n + byteSize ('<' :: name), d :: x⟩ = .ok (as, closed, c)) :
    readOpenTag ⟨n, '<' :: (name ++ d :: x)⟩ (name ++ d :: x) =
      if closed || isVoid name then .ok (.node (.element name ⟨n, c.offset⟩ as []), c)
      else if isRawText name then readRawText name n as c
      else .ok (.openTag name n as, c) := by
  have hmove := Cursor.moveTo_append n ('<' :: name) (d :: x)
  rw [List.cons_append] at hmove
  simp only [readOpenTag, takeWhile_run hn hd, dropWhile_run hn hd, hmove, h]

theorem readToken_openTag {c : Char} (hc : c.isAlpha = true) (n : Nat) (s : Text) :
    readToken ⟨n, '<' :: c :: s⟩ = readOpenTag ⟨n, '<' :: c :: s⟩ (c :: s) := by
  have hstart : startsConstruct ('<' :: c :: s) = true := by
    unfold startsConstruct
    split <;> simp_all
  have hc₁ : c ≠ '!' := by
    rintro rfl
    simp at hc
  have hc₂ : c ≠ '/' := by
    rintro rfl
    simp at hc
  unfold readToken
  split
  next heq => simp_all
  next heq => simp_all
  next heq => simp_all
  next heq =>
    obtain ⟨rfl, rfl⟩ := List.cons.inj heq
    rw [if_pos hstart]
  next heq => cases heq

/-! Lexemes. -/

def Node.children : Node → List Node
  | .element _ _ _ children => children
  | _ => []

/-- A node whose children, if any, are texts. -/
def Node.IsLeaf (v : Node) : Prop := ∀ w ∈ v.children, w.kind = .text

theorem Node.isLeaf_of_children {v : Node} (h : v.children = []) : v.IsLeaf := by
  intro w hw
  rw [h] at hw
  cases hw

/-- How the spans of a token relate to the number of bytes it was read from. -/
def Token.Covers (size : Nat) : Token → Prop
  | .node v => v.span = ⟨0, size⟩ ∧ v.IsLeaf
  | .openTag _ start _ => start = 0
  | .closeTag _ span => span = ⟨0, size⟩

/-- `u` is read as the token `t`, wherever it stands and whatever follows it. -/
structure IsLexeme (u : Text) (t : Token) : Prop where
  starts : startsConstruct u = true
  reads : ∀ n rest, readToken ⟨n, u ++ rest⟩ = .ok (t.shift n, ⟨n + byteSize u, rest⟩)
  covers : t.Covers (byteSize u)

theorem IsLexeme.ne_nil {u : Text} {t : Token} (h : IsLexeme u t) : u ≠ [] := by
  rintro rfl
  simpa [startsConstruct] using h.starts

theorem IsLexeme.settled {u : Text} {t : Token} (h : IsLexeme u t) (rest : Text) :
    Settled (u ++ rest) :=
  .inr (startsConstruct_append_of_starts h.starts rest)

theorem afterComment?_eq (s : Text) :
    afterComment? s = (splitOnFirst? ['-', '-', '>'] s).map (·.2) := by
  fun_induction afterComment? s with
  | case1 => rfl
  | case2 s => simp [splitOnFirst?, afterLead?]
  | case3 c s hs ih =>
    have hlead : afterLead? ['-', '-', '>'] (c :: s) = none := by
      rw [Option.eq_none_iff_forall_ne_some]
      intro r hr
      obtain ⟨rfl, rfl⟩ := List.cons.inj (afterLead?_eq_some_iff.mp hr)
      exact hs r rfl rfl
    rw [splitOnFirst?, hlead, ih, Option.map_map]
    rfl

theorem afterComment?_local {s r : Text} (h : afterComment? s = some r) :
    ∃ u, s = u ++ r ∧ ∀ t, afterComment? (u ++ t) = some t := by
  rw [afterComment?_eq] at h
  obtain ⟨⟨p, r⟩, hs, rfl⟩ := Option.map_eq_some_iff.mp h
  obtain ⟨hs, hlocal⟩ := splitOnFirst?_local hs
  exact ⟨_, hs, fun t => by rw [afterComment?_eq, hlocal, Option.map_some]⟩

theorem isLexeme_comment {u : Text} (hu : ∀ t, afterComment? (u ++ t) = some t) :
    IsLexeme ('<' :: '!' :: '-' :: '-' :: u)
      (.node (.comment ⟨0, byteSize ('<' :: '!' :: '-' :: '-' :: u)⟩)) where
  starts := rfl
  reads n t := by
    simp only [List.cons_append]
    rw [readToken_comment (hu t)]
    rfl
  covers := ⟨rfl, Node.isLeaf_of_children rfl⟩

theorem bracedNode_shift (n : Nat) (span : Span) (inner : Text) :
    (bracedNode span inner).shift n = bracedNode (span.shift n) inner := by
  unfold bracedNode
  split
  next => rfl
  next => split <;> rfl

theorem bracedNode_covers (size : Nat) (inner : Text) :
    (Token.node (bracedNode ⟨0, size⟩ inner)).Covers size := by
  unfold bracedNode
  split
  next => exact ⟨rfl, Node.isLeaf_of_children rfl⟩
  next => split <;> exact ⟨rfl, Node.isLeaf_of_children rfl⟩

theorem isLexeme_braced {u : Text} (hu : ∀ t, afterBrace (u ++ t) = some t) :
    IsLexeme ('{' :: u) (.node (bracedNode ⟨0, byteSize ('{' :: u)⟩ u.dropLast)) where
  starts := rfl
  reads n t := by
    rw [List.cons_append, readToken_braced (hu t), Token.shift, bracedNode_shift]
    rfl
  covers := bracedNode_covers _ _

theorem isLexeme_closeTag {name b : Text} (hname : name ≠ [])
    (hn : ∀ c ∈ name, isTagNameChar c = true) (hb : ∀ c ∈ b, isTagBlank c = true) :
    IsLexeme ('<' :: '/' :: (name ++ (b ++ ['>'])))
      (.closeTag name ⟨0, byteSize ('<' :: '/' :: (name ++ (b ++ ['>'])))⟩) where
  starts := rfl
  reads n t := by
    simp only [List.cons_append, List.append_assoc, List.nil_append]
    rw [readToken_closeTag hname hn hb]
    rfl
  covers := rfl

theorem startsConstruct_tag {name : Text} (hhead : ∃ c s, name = c :: s ∧ c.isAlpha = true)
    (u : Text) : startsConstruct ('<' :: (name ++ u)) = true := by
  obtain ⟨c, s, rfl, hc⟩ := hhead
  rw [List.cons_append]
  unfold startsConstruct
  split <;> simp_all

/-- `name` and `body` are those of a tag with the given attributes, wherever it stands. -/
structure IsTag (name body : Text) (attributes : List Attribute) (closed : Bool) : Prop where
  name_chars : ∀ c ∈ name, isTagNameChar c = true
  name_head : ∃ c s, name = c :: s ∧ c.isAlpha = true
  body_head : ∃ d x, body = d :: x ∧ isTagNameChar d = false
  reads : ∀ m n t, readAttributes m ⟨n, body ++ t⟩ =
    .ok (attributes.map (.shift n), closed, ⟨n + byteSize body, t⟩)

section
variable {name u : Text} {as : List Attribute} {closed : Bool} (h : IsTag name u as closed)
include h

/-- Reading a tag with the given name and attributes, whatever comes of it. -/
theorem IsTag.readToken (n : Nat) (t : Text) :
    readToken ⟨n, '<' :: (name ++ (u ++ t))⟩ =
      let as' := as.map (.shift (n + byteSize ('<' :: name)))
      let c : Cursor := ⟨n + byteSize ('<' :: (name ++ u)), t⟩
      if closed || isVoid name then .ok (.node (.element name ⟨n, c.offset⟩ as' []), c)
      else if isRawText name then readRawText name n as' c
      else .ok (.openTag name n as', c) := by
  obtain ⟨c, s, rfl, hc⟩ := h.name_head
  obtain ⟨d, x, rfl, hd⟩ := h.body_head
  have hopen := readOpenTag_eq (x := x ++ t) h.name_chars hd (h.reads n _ t)
  rw [List.cons_append, readToken_openTag hc]
  simpa only [List.cons_append, List.append_assoc, byteSize_cons, byteSize_append, Nat.add_assoc]
    using hopen

theorem IsTag.isLexeme_emptyElement (hempty : (closed || isVoid name) = true) :
    IsLexeme ('<' :: (name ++ u)) (.node (.element name ⟨0, byteSize ('<' :: (name ++ u))⟩
      (as.map (.shift (byteSize ('<' :: name)))) [])) where
  starts := startsConstruct_tag h.name_head u
  reads n t := by
    rw [List.cons_append, List.append_assoc, h.readToken n t]
    simp only [if_pos hempty]
    simp [Token.shift, Node.shift, shiftAll, Span.shift]
  covers := ⟨rfl, Node.isLeaf_of_children rfl⟩

theorem IsTag.isLexeme_openTag (hempty : (closed || isVoid name) = false)
    (hraw : isRawText name = false) :
    IsLexeme ('<' :: (name ++ u))
      (.openTag name 0 (as.map (.shift (byteSize ('<' :: name))))) where
  starts := startsConstruct_tag h.name_head u
  reads n t := by
    rw [List.cons_append, List.append_assoc, h.readToken n t]
    simp [hempty, hraw, Token.shift]
  covers := rfl

theorem IsTag.isLexeme_rawText (hempty : (closed || isVoid name) = false) (hraw : isRawText name = true)
    {x y b : Text} (hy : y.length = name.length + 2)
    (hx : ∀ t, splitOnFirst? ('<' :: '/' :: lowerAscii name)
      (lowerAscii (x ++ (y ++ (b ++ '>' :: t)))) = some (lowerAscii x, lowerAscii (b ++ '>' :: t)))
    (hb : ∀ c ∈ b, isTagBlank c = true) :
    IsLexeme ('<' :: (name ++ u) ++ (x ++ (y ++ (b ++ ['>']))))
      (.node (.element name ⟨0, byteSize ('<' :: (name ++ u) ++ (x ++ (y ++ (b ++ ['>']))))⟩
        (as.map (.shift (byteSize ('<' :: name)))) (rawContent (byteSize ('<' :: (name ++ u))) x)))
      where
  starts := startsConstruct_append_of_starts (startsConstruct_tag h.name_head u) _
  reads n t := by
    have hread := readRawText_closed hy (hx t) hb n (n + byteSize ('<' :: (name ++ u)))
      (as.map (.shift (n + byteSize ('<' :: name))))
    have htag := h.readToken n (x ++ (y ++ (b ++ '>' :: t)))
    simp only [hempty, hraw, Bool.false_eq_true, if_false, if_true, hread] at htag
    simp only [List.cons_append, List.append_assoc, List.nil_append] at htag ⊢
    rw [htag]
    simp [Token.shift, Node.shift, Span.shift, Nat.add_assoc]
  covers := ⟨rfl, by
    intro v hv
    unfold rawContent at hv
    split at hv
    next => cases hv
    next => rw [List.mem_singleton.mp hv]; rfl⟩

end

/-! Every construct that is read is a lexeme. -/

theorem readRawText_local {name : Text} {m n : Nat} {as : List Attribute} {s : Text} {t : Token}
    {c' : Cursor} (h : readRawText name m as ⟨n, s⟩ = .ok (t, c')) :
    ∃ x y b, s = x ++ (y ++ (b ++ '>' :: c'.rest)) ∧ y.length = name.length + 2 ∧
      (∀ c ∈ b, isTagBlank c = true) ∧
      ∀ r, splitOnFirst? ('<' :: '/' :: lowerAscii name)
        (lowerAscii (x ++ (y ++ (b ++ '>' :: r)))) =
          some (lowerAscii x, lowerAscii (b ++ '>' :: r)) := by
  unfold readRawText at h
  dsimp only at h
  split at h
  next => cases h
  next content after hsplit =>
    obtain ⟨hlower, hlocal⟩ := splitOnFirst?_local hsplit
    rw [List.append_assoc] at hlower
    obtain ⟨x, z, rfl, rfl, hz⟩ := List.map_eq_append_iff.mp hlower
    obtain ⟨y, r, rfl, hy, rfl⟩ := List.map_eq_append_iff.mp hz
    have hlen : ('<' :: '/' :: lowerAscii name).length = y.length := by
      rw [← hy, List.length_map]
    have hyl : y.length = name.length + 2 := by simp [← hlen, lowerAscii]
    split at h
    next s hs =>
      simp only [List.length_map, hlen, List.drop_left, Cursor.moveTo_append, Cursor.skipBlanks,
        Cursor.rest_moveTo] at hs
      obtain ⟨b, rfl, hb, -, -⟩ := cut_run hs
      obtain ⟨-, rfl⟩ := Prod.mk.inj (Except.ok.inj h)
      refine ⟨x, y, b, rfl, hyl, hb, fun r => ?_⟩
      have := hlocal (lowerAscii (b ++ '>' :: r))
      rw [← hy] at this ⊢
      simpa [lowerAscii] using this
    next => cases h

theorem alpha_of_startsConstruct {d : Char} {s : Text} (h : startsConstruct (d :: s) = true)
    (hcomment : ∀ x, d = '<' → s ≠ '!' :: '-' :: '-' :: x) (hslash : ∀ x, d = '<' → s ≠ '/' :: x)
    (hbrace : d ≠ '{') : d = '<' ∧ ∃ c x, s = c :: x ∧ c.isAlpha = true := by
  unfold startsConstruct at h
  split at h <;> simp_all

theorem isTagNameChar_of_isAlphanum {c : Char} (h : c.isAlphanum = true) :
    isTagNameChar c = true := by
  have hne (d : Char) (hd : d.isAlphanum = false) : c ≠ d := by
    rintro rfl
    simp [h] at hd
  simp [isTagNameChar, isTagBlank, hne ' ' (by decide), hne '\t' (by decide),
    hne '\n' (by decide), hne '\x0c' (by decide), hne '\r' (by decide), hne '/' (by decide),
    hne '>' (by decide)]

theorem isTagNameChar_of_isAlpha {c : Char} (h : c.isAlpha = true) : isTagNameChar c = true :=
  isTagNameChar_of_isAlphanum (by simp [Char.isAlphanum, h])

section
variable {c c' : Cursor} {s : Text} {t : Token}

theorem readCloseTag_local (hs : c.rest = '<' :: '/' :: s) (h : readCloseTag c s = .ok (t, c')) :
    ∃ u t₀, c.rest = u ++ c'.rest ∧ IsLexeme u t₀ := by
  unfold readCloseTag at h
  dsimp only at h
  split at h
  next => cases h
  next hname =>
    split at h
    next r hr =>
      obtain ⟨-, rfl⟩ := Prod.mk.inj (Except.ok.inj h)
      obtain ⟨b, hb, hblank, -, -⟩ := cut_run hr
      have hs' : s = s.takeWhile isTagNameChar ++ (b ++ '>' :: r) := by
        rw [← hb, List.takeWhile_append_dropWhile]
      refine ⟨_, _, ?_, isLexeme_closeTag (by simpa using hname)
        (List.all_eq_true.mp List.all_takeWhile) hblank⟩
      simpa [hs] using hs'
    next => cases h

theorem readBraced_local (hs : c.rest = '{' :: s) (h : readBraced c s = .ok (t, c')) :
    ∃ u t₀, c.rest = u ++ c'.rest ∧ IsLexeme u t₀ := by
  unfold readBraced at h
  split at h
  next => cases h
  next r hr =>
    obtain ⟨-, rfl⟩ := Prod.mk.inj (Except.ok.inj h)
    obtain ⟨u, rfl, hu⟩ := afterBrace_local hr
    exact ⟨_, _, hs, isLexeme_braced hu⟩

/-- What is read as the attributes behind a name is the body of a tag. -/
theorem isTag_of_readAttributes {e : Char} {m : Nat} {c₀ : Cursor} {as : List Attribute}
    {closed : Bool} (he : e.isAlpha = true) (hrest : c₀.rest = (e :: s).dropWhile isTagNameChar)
    (h : readAttributes m c₀ = .ok (as, closed, c)) :
    ∃ body as₀, IsTag ((e :: s).takeWhile isTagNameChar) body as₀ closed ∧
      e :: s = (e :: s).takeWhile isTagNameChar ++ (body ++ c.rest) := by
  obtain ⟨u, as₀, hu, htag⟩ := exists_readsTag h
  rw [hrest] at hu
  obtain ⟨d, y, rfl⟩ := List.exists_cons_of_ne_nil (List.ne_nil_of_mem htag.mem_tagEnd)
  obtain ⟨-, -, -, hd, -⟩ := cut_run hu
  refine ⟨d :: y, as₀, ?_, ?_⟩
  · exact {
      name_chars := List.all_eq_true.mp List.all_takeWhile
      name_head := ⟨e, s.takeWhile isTagNameChar,
        List.takeWhile_cons_of_pos (isTagNameChar_of_isAlpha he), he⟩
      body_head := ⟨d, y, rfl, hd⟩
      reads := htag.reads }
  · rw [← hu, List.takeWhile_append_dropWhile]

/-- What is read from an opening tag on is a tag first. -/
theorem isTag_of_readOpenTag {e : Char} (hs : c.rest = '<' :: e :: s) (he : e.isAlpha = true)
    (h : readOpenTag c (e :: s) = .ok (t, c')) :
    ∃ name body as closed r, IsTag name body as closed ∧ c.rest = '<' :: (name ++ (body ++ r)) := by
  unfold readOpenTag at h
  dsimp only at h
  split at h
  next => cases h
  next as closed c₁ has =>
    obtain ⟨body, as₀, htag, hbody⟩ := isTag_of_readAttributes he (Cursor.rest_moveTo ..) has
    exact ⟨_, body, as₀, closed, c₁.rest, htag, by rw [hs, ← hbody]⟩

theorem readOpenTag_local {e : Char} (hs : c.rest = '<' :: e :: s) (he : e.isAlpha = true)
    (h : readOpenTag c (e :: s) = .ok (t, c')) : ∃ u t₀, c.rest = u ++ c'.rest ∧ IsLexeme u t₀ := by
  obtain ⟨name, body, as, closed, r, htag, hrest⟩ := isTag_of_readOpenTag hs he h
  obtain ⟨n, rest⟩ := c
  obtain rfl : rest = '<' :: e :: s := hs
  have hread := htag.readToken n r
  simp only at hrest
  rw [← hrest, readToken_openTag he, h] at hread
  dsimp only at hread
  split at hread
  next hempty =>
    obtain ⟨-, rfl⟩ := Prod.mk.inj (Except.ok.inj hread)
    exact ⟨_, _, by simpa using hrest, htag.isLexeme_emptyElement hempty⟩
  next hempty =>
    rw [Bool.not_eq_true] at hempty
    split at hread
    next hraw =>
      obtain ⟨v, z, b, hr, hz, hb, hv⟩ := readRawText_local hread.symm
      refine ⟨_, _, ?_, htag.isLexeme_rawText hempty hraw hz hv hb⟩
      rw [hrest, hr]
      simp
    next hraw =>
      obtain ⟨-, rfl⟩ := Prod.mk.inj (Except.ok.inj hread)
      rw [Bool.not_eq_true] at hraw
      exact ⟨_, _, by simpa using hrest, htag.isLexeme_openTag hempty hraw⟩

theorem readToken_local (hc : startsConstruct c.rest = true) (h : readToken c = .ok (t, c')) :
    ∃ u t₀, c.rest = u ++ c'.rest ∧ IsLexeme u t₀ := by
  unfold readToken at h
  split at h
  next s hs =>
    split at h
    next => cases h
    next r hr =>
      obtain ⟨-, rfl⟩ := Prod.mk.inj (Except.ok.inj h)
      obtain ⟨u, rfl, hu⟩ := afterComment?_local hr
      exact ⟨_, _, hs, isLexeme_comment hu⟩
  next s hs => exact readCloseTag_local hs h
  next s hs => exact readBraced_local hs h
  next d s hcomment hslash hbrace hs =>
    rw [hs] at hc
    rw [if_pos hc] at h
    obtain ⟨rfl, e, x, rfl, he⟩ := alpha_of_startsConstruct hc hcomment hslash hbrace
    exact readOpenTag_local hs he h
  next hs => simp [hs, startsConstruct] at hc

end

end MarkupHighlight.Markup
