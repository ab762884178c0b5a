import MarkupHighlight.Proofs.Bytes.Attributes

/-!
Tokens read at byte offsets. `readToken_agrees` says that the token at a byte is the one the
characters from there on give, and that it ends at a character.
-/
namespace MarkupHighlight.Bytewise
open Script Markup

/-- A tag is opened at byte `i`. -/
def atTagOpen (s : Text) (i : Nat) : Bool :=
  peek s i == some '<' && (peek s (i + 1)).any Char.isAlpha

def readComment (s : Text) (start : Nat) : Run (Token × Nat) := do
  let rest ← cut s (start + 4) (byteSize s)
  let some (body, _) := splitOnFirst? ['-', '-', '>'] rest
    | throw (.refused (.unterminated .comment start))
  let stop := start + 4 + byteSize body + 3
  return (.node (.comment ⟨start, stop⟩), stop)

/-- A text does not end at this byte. -/
def isTextByte (s : Text) (b : Char) (i : Nat) : Run Bool := do
  if b = '{' ∨ atTagOpen s i then return false
  else if ← startsAt s i ['<', '/'] then return false
  else return !(← startsAt s i ['<', '!', '-', '-'])

/-- Reads a text, whose first byte belongs to it whatever it is. -/
def readText (s : Text) (start : Nat) : Run (Token × Nat) := do
  let stop ← skipWhile s (isTextByte s) (start + 1)
  return (.node (.text ⟨start, stop⟩), stop)

def readTagName (s : Text) (start : Nat) : Run (Text × Nat) := do
  let stop ← skipWhile s (fun b _ => .ok (isTagNameChar b)) start
  return (← cut s start stop, stop)

/-- Reads the content and the closing tag of the raw text element that starts at `start`, from the
end of its opening tag on. -/
def readRawText (s name : Text) (start : Nat) (attributes : List Attribute) (i : Nat) :
    Run (Token × Nat) := do
  let close := '<' :: '/' :: lowerAscii name
  let rest ← cut s i (byteSize s)
  let some (content, _) := splitOnFirst? close (lowerAscii rest)
    | throw (.refused (.unclosedElement name start))
  let inner := i + byteSize content
  let children := if i < inner then [.text ⟨i, inner⟩] else []
  let j ← skipBlanks s (inner + byteSize close)
  if peek s j = some '>' then
    return (.node (.element name ⟨start, j + 1⟩ attributes children), j + 1)
  else throw (.refused (.expected .tagEnd j))

def readOpenTag (s : Text) (start : Nat) : Run (Token × Nat) := do
  let (name, nameEnd) ← readTagName s (start + 1)
  let ((attributes, closed), i) ← readAttributes s start [] nameEnd
  if closed || isVoid name then return (.node (.element name ⟨start, i⟩ attributes []), i)
  else if isRawText name then readRawText s name start attributes i
  else return (.openTag name start attributes, i)

def readCloseTag (s : Text) (start : Nat) : Run (Token × Nat) := do
  let (name, nameEnd) ← readTagName s (start + 2)
  if name.isEmpty then throw (.refused (.expected .tagName nameEnd))
  else
    let i ← skipBlanks s nameEnd
    if peek s i = some '>' then return (.closeTag name ⟨start, i + 1⟩, i + 1)
    else throw (.refused (.unterminated .closingTag start))

/-- Reads a block tag or an expression to show. -/
def readBraced (s : Text) (start : Nat) : Run (Token × Nat) := do
  let ((e, inner), stop) ← readBraces s start
  let trimmed := trimStart inner
  if trimmed.head?.any isTagSign then
    return (.node (.tag (trimmed.takeWhile fun c => !isBlank c) ⟨start, stop⟩), stop)
  else return (.node (.interpolation ⟨start, stop⟩ e), stop)

/-- Reads the token at a byte of the text. -/
def readToken (s : Text) (i : Nat) : Run (Token × Nat) := do
  if ← startsAt s i ['<', '!', '-', '-'] then readComment s i
  else if ← startsAt s i ['<', '/'] then readCloseTag s i
  else if atTagOpen s i then readOpenTag s i
  else if peek s i = some '{' then readBraced s i
  else readText s i

/-! What starts at a byte. -/

theorem low_closeLead : ∀ a ∈ ['<', '/'], Low a := by simp [Low]

theorem low_commentLead : ∀ a ∈ ['<', '!', '-', '-'], Low a := by simp [Low]

/-- A tag is opened at the front of the text. -/
def opensTag (t : Text) : Bool := t.head? == some '<' && t.tail.head?.any Char.isAlpha

theorem startsConstruct_eq (t : Text) : startsConstruct t =
    (t.head? == some '{' || opensTag t || (afterLead? ['<', '/'] t).isSome ||
      (afterLead? ['<', '!', '-', '-'] t).isSome) := by
  fun_cases startsConstruct t with
  | case1 | case2 | case3 => simp [afterLead?]
  | case4 c s hslash hcomment =>
    have hclose : afterLead? ['<', '/'] ('<' :: c :: s) = none := by
      simp [afterLead?, Ne.symm hslash]
    have hnone : afterLead? ['<', '!', '-', '-'] ('<' :: c :: s) = none := by
      rw [Option.eq_none_iff_forall_ne_some]
      intro r hr
      have := afterLead?_eq_some_iff.mp hr
      simp_all
    simp [opensTag, hclose, hnone]
  | case5 t hbrace _ _ halpha =>
    rcases t with _ | ⟨c, _ | ⟨d, t⟩⟩
    · rfl
    · have hc : c ≠ '{' := fun hc => hbrace [] (by rw [hc])
      simp [opensTag, afterLead?, hc]
    · have hbrace : c ≠ '{' := fun hc => hbrace (d :: t) (by rw [hc])
      have hc : c ≠ '<' := fun hc => halpha d t (by rw [hc])
      simp [opensTag, afterLead?, hbrace, hc, Ne.symm hc]

theorem exists_of_opensTag {t : Text} (h : opensTag t = true) :
    ∃ c r, t = '<' :: c :: r ∧ c.isAlpha = true := by
  match t with
  | [] | [_] => simp [opensTag] at h
  | a :: c :: r =>
    obtain ⟨rfl, hc⟩ : a = '<' ∧ c.isAlpha = true := by simpa [opensTag] using h
    exact ⟨c, r, rfl, hc⟩

theorem low_of_isAlpha {c : Char} (h : c.isAlpha = true) : Low c := by
  unfold Char.isAlpha Char.isUpper Char.isLower at h
  simp only [Bool.or_eq_true, Bool.and_eq_true, decide_eq_true_eq, UInt32.le_iff_toNat_le,
    ge_iff_le] at h
  have hZ : 'Z'.val.toNat = 90 := rfl
  have hz : 'z'.val.toNat = 122 := rfl
  change c.val.toNat < 128
  omega

theorem uniform_isAlpha : Uniform Char.isAlpha := by
  intro b c hb hc
  have hfalse {d : Char} (hd : ¬ Low d) : d.isAlpha = false :=
    Bool.eq_false_iff.mpr (mt low_of_isAlpha hd)
  rw [hfalse hb, hfalse hc]

theorem uniform_isTagNameChar : Uniform isTagNameChar :=
  (uniform_isTagBlank.not.and (uniform_beq (by decide)).not).and (uniform_beq (by decide)).not

section
variable {s t : Text} {i : Nat}

theorem atTagOpen_eq (h : Tail s i t) : atTagOpen s i = opensTag t := by
  have hopen := h.peek_eq_some_iff (by decide : Low '<')
  by_cases hhead : t.head? = some '<'
  · obtain ⟨r, rfl⟩ := List.head?_eq_some_iff.mp hhead
    rw [atTagOpen, hopen.mpr rfl, (h.next_low (by decide)).any_peek uniform_isAlpha]
    rfl
  · rw [atTagOpen, opensTag, beq_eq_false_iff_ne.mpr hhead,
      beq_eq_false_iff_ne.mpr (mt hopen.mp hhead)]
    rfl

/-! Comments and texts. -/

theorem readComment_agrees (h : Tail s i ('<' :: '!' :: '-' :: '-' :: t)) :
    Agrees s (readComment s i) (Markup.readToken ⟨i, '<' :: '!' :: '-' :: '-' :: t⟩) := by
  have hbody : Tail s (i + 4) t := h.append (u := ['<', '!', '-', '-'])
  rw [readComment, hbody.cut_rest, ok_bind]
  simp only [Markup.readToken, afterComment?_eq]
  cases hsplit : splitOnFirst? ['-', '-', '>'] t with
  | none => exact .refused _
  | some x =>
    obtain ⟨body, r⟩ := x
    obtain ⟨rfl, -⟩ := splitOnFirst?_local hsplit
    have hstop : Tail s (i + 4 + byteSize body + 3) r := by
      rw [List.append_assoc] at hbody
      exact hbody.append.append
    have hsuffix : r <:+ '<' :: '!' :: '-' :: '-' :: (body ++ ['-', '-', '>'] ++ r) :=
      ⟨['<', '!', '-', '-'] ++ (body ++ ['-', '-', '>']), rfl⟩
    simp only [Option.map_some, h.moveTo_eq hsuffix, hstop.offsetOf_eq]
    exact .ok _ hstop

theorem isTextByte_inside {b : Char} (hb : peek s i = some b) (hlow : ¬ Low b) :
    isTextByte s b i = .ok true := by
  have hbound := Nat.le_of_lt (lt_byteSize_of_peek hb)
  have hne {a : Char} (ha : Low a) : (peek s i == some a) = false := by
    rw [hb, beq_eq_false_iff_ne, ne_eq, Option.some.injEq]
    exact ne_of_not_low hlow ha
  have hbrace := ne_of_not_low hlow (by decide : Low '{')
  simp [isTextByte, atTagOpen, startsAt, startsWith, hbound, hbrace, hne (by decide : Low '<')]

theorem isTextByte_eq {c b : Char} (h : Tail s i (c :: t)) (hb : peek s i = some b) :
    isTextByte s b i = .ok (!startsConstruct (c :: t)) := by
  have hbrace := h.peek_eq_some_iff (by decide : Low '{')
  rw [hb, Option.some.injEq] at hbrace
  have hhead : ((c :: t).head? == some '{') = (b == '{') := by
    rw [Bool.eq_iff_iff, beq_iff_eq, beq_iff_eq, hbrace]
  rw [isTextByte, atTagOpen_eq h, h.startsAt_eq low_closeLead, h.startsAt_eq low_commentLead,
    startsConstruct_eq, hhead]
  by_cases hopens : b = '{' ∨ opensTag (c :: t)
  · have hstarts : (b == '{' || opensTag (c :: t)) = true := by simpa using hopens
    rw [if_pos hopens, hstarts, Bool.true_or, Bool.true_or]
    rfl
  · have hstarts : (b == '{' || opensTag (c :: t)) = false := by simpa using hopens
    rw [if_neg hopens, hstarts]
    cases (afterLead? ['<', '/'] (c :: t)).isSome <;> rfl

theorem readText_eq {c : Char} (h : Tail s i (c :: t)) : readText s i =
    .ok (.node (.text ⟨i, offsetOf s (afterText t)⟩), offsetOf s (afterText t)) := by
  have hrest : skipWhile s (isTextByte s) (i + 1) =
      skipWhile s (isTextByte s) (i + c.utf8Size) := by
    refine h.pass_rest fun _ j b _ hb hlow => ?_
    rw [skipWhile_byte hb, isTextByte_inside hb hlow]
    rfl
  have hskip : skipWhile s (isTextByte s) (i + c.utf8Size) = .ok (offsetOf s (afterText t)) :=
    h.next.skipWhile_eq startsConstruct rfl (fun c t => by rw [afterText])
      (fun _ _ _ _ h hb => isTextByte_eq h hb)
      fun _ _ _ _ _ _ hb hlow => isTextByte_inside hb hlow
  rw [readText, hrest, hskip]
  rfl

/-! Tags. -/

theorem before_dropWhile (p : Char → Bool) (t : Text) :
    before t (t.dropWhile p) = t.takeWhile p := by
  have h := before_append (t.takeWhile p) (t.dropWhile p)
  rwa [List.takeWhile_append_dropWhile] at h

theorem readTagName_eq (h : Tail s i t) : readTagName s i =
    .ok (t.takeWhile isTagNameChar, offsetOf s (t.dropWhile isTagNameChar)) := by
  rw [readTagName, h.skipRun_eq uniform_isTagNameChar, ok_bind,
    h.cut_before (List.dropWhile_suffix _), before_dropWhile]
  rfl

theorem utf8Size_toLower (c : Char) : c.toLower.utf8Size = c.utf8Size := by
  unfold Char.toLower
  split
  next h =>
    have hle := UInt32.le_iff_toNat_le.mp h.2
    have hZ : 'Z'.val.toNat = 90 := rfl
    have h32 : ('a'.val - 'A'.val).toNat = 32 := rfl
    have hlow : Low c := show c.val.toNat < 128 by omega
    rw [hlow.utf8Size]
    apply Low.utf8Size
    change (c.val + ('a'.val - 'A'.val)).toNat < 128
    rw [UInt32.toNat_add]
    omega
  next => rfl

theorem byteSize_lowerAscii (t : Text) : byteSize (lowerAscii t) = byteSize t := by
  induction t with
  | nil => rfl
  | cons c t ih =>
    rw [lowerAscii, List.map_cons, byteSize_cons, utf8Size_toLower, ← lowerAscii, ih, byteSize_cons]

/-- A tag has to end here. -/
theorem tagEnd_agrees {e : Error} {reading : Except Error (Token × Cursor)} (f : Nat → Token)
    (h : Tail s i t)
    (hend : ∀ u, t = '>' :: u → Tail s (i + 1) u → reading = .ok (f (i + 1), ⟨i + 1, u⟩))
    (hnot : (∀ u, t ≠ '>' :: u) → reading = .error e) :
    Agrees s (if peek s i = some '>' then pure (f (i + 1), i + 1) else throw (.refused e))
      reading := by
  have hpeek := h.peek_eq_some_iff (by decide : Low '>')
  by_cases hhead : t.head? = some '>'
  · obtain ⟨u, rfl⟩ := List.head?_eq_some_iff.mp hhead
    have hstop := h.next_low (by decide)
    rw [if_pos (hpeek.mpr rfl), hend u rfl hstop]
    exact .ok _ hstop
  · rw [if_neg (mt hpeek.mp hhead), hnot fun u hu => hhead (by rw [hu]; rfl)]
    exact .refused e

/-- In front of the closing tag of a raw text element stands its content. -/
theorem readRawText_agrees (name : Text) (start : Nat) (attributes : List Attribute)
    (h : Tail s i t) : Agrees s (readRawText s name start attributes i)
      (Markup.readRawText name start attributes ⟨i, t⟩) := by
  rw [readRawText, h.cut_rest, ok_bind, Markup.readRawText]
  generalize '<' :: '/' :: lowerAscii name = close
  cases hsplit : splitOnFirst? close (lowerAscii t) with
  | none => exact .refused _
  | some x =>
    obtain ⟨lower, after⟩ := x
    obtain ⟨hlower, -⟩ := splitOnFirst?_local hsplit
    rw [List.append_assoc] at hlower
    obtain ⟨content, u, rfl, rfl, hu⟩ := List.map_eq_append_iff.mp hlower
    obtain ⟨y, r, rfl, rfl, rfl⟩ := List.map_eq_append_iff.mp hu
    -- the parts were found in the lower case text, and have the same sizes in the text itself
    change Tail s i (content ++ (y ++ r)) at h
    have hrest : Tail s (i + byteSize content + byteSize y) r := h.append.append
    have hblanks := (hrest.suffix (List.dropWhile_suffix isTagBlank)).1
    have hcontent := byteSize_lowerAscii content
    have hy := byteSize_lowerAscii y
    unfold lowerAscii at hcontent hy
    simp only [hcontent, hy, skipBlanks_eq hrest, ok_bind, List.length_map, List.drop_left,
      Cursor.moveTo_append, hrest.skipBlanks_cursor]
    have hchildren :
        (if i < i + byteSize content then [Node.text ⟨i, i + byteSize content⟩] else []) =
        if (content.map Char.toLower).isEmpty then [] else [.text ⟨i, i + byteSize content⟩] := by
      cases content with
      | nil => simp
      | cons c content =>
        rw [if_pos (Nat.lt_add_of_pos_right (byteSize_pos (List.cons_ne_nil c content)))]
        rfl
    rw [hchildren]
    generalize (if (content.map Char.toLower).isEmpty then [] else _) = children
    refine tagEnd_agrees (fun stop => .node (.element name ⟨start, stop⟩ attributes children))
      hblanks (fun u hu hstop => ?_) fun hnot => ?_
    · rw [hu] at hblanks hstop ⊢
      simp only [hblanks.moveTo_eq (List.suffix_cons '>' u), hstop.offsetOf_eq]
    · split
      next u hu => exact absurd hu (hnot u)
      next => rfl

theorem readOpenTag_agrees (h : Tail s i ('<' :: t)) :
    Agrees s (readOpenTag s i) (Markup.readOpenTag ⟨i, '<' :: t⟩ t) := by
  have hname := h.next_low (by decide)
  have hsuffix := List.dropWhile_suffix isTagNameChar (l := t)
  have hread := readAttributes_agrees i (hname.suffix hsuffix).1 []
  rw [readOpenTag, readTagName_eq hname, ok_bind, Markup.readOpenTag,
    h.moveTo_eq (hsuffix.trans (List.suffix_cons '<' t))]
  simp only
  cases hl : Markup.readAttributes i
      ⟨offsetOf s (t.dropWhile isTagNameChar), t.dropWhile isTagNameChar⟩ with
  | error e =>
    rw [hl] at hread
    rw [hread.of_error]
    exact .refused e
  | ok x =>
    obtain ⟨attributes, closed, stop, r⟩ := x
    rw [hl] at hread
    obtain ⟨hrun, hrest⟩ := hread.of_ok
    rw [hrun, List.nil_append]
    simp only [ok_bind]
    split
    next => exact .ok _ hrest
    next =>
      split
      next => exact readRawText_agrees _ i attributes hrest
      next => exact .ok _ hrest

theorem readCloseTag_agrees (h : Tail s i ('<' :: '/' :: t)) :
    Agrees s (readCloseTag s i) (Markup.readCloseTag ⟨i, '<' :: '/' :: t⟩ t) := by
  have hname : Tail s (i + 2) t := h.append (u := ['<', '/'])
  have hsuffix := List.dropWhile_suffix isTagNameChar (l := t)
  have hbehind := (hname.suffix hsuffix).1
  rw [readCloseTag, readTagName_eq hname, ok_bind, Markup.readCloseTag]
  simp only
  split
  next hempty =>
    have hwhole := List.takeWhile_append_dropWhile (p := isTagNameChar) (l := t)
    rw [List.isEmpty_iff.mp hempty, List.nil_append] at hwhole
    rw [hwhole, hname.offsetOf_eq]
    exact .refused _
  next =>
    have hblanks := (hbehind.suffix (List.dropWhile_suffix isTagBlank)).1
    rw [skipBlanks_eq hbehind, ok_bind]
    refine tagEnd_agrees (fun stop => .closeTag _ ⟨i, stop⟩) hblanks (fun u hu hstop => ?_)
      fun hnot => ?_
    · have htail : u <:+ '<' :: '/' :: t :=
        ((List.suffix_cons '>' u).trans (hu ▸ List.dropWhile_suffix isTagBlank)).trans
          (hsuffix.trans ⟨['<', '/'], rfl⟩)
      rw [hu] at hstop ⊢
      simp only [h.moveTo_eq htail, hstop.offsetOf_eq]
    · split
      next u hu => exact absurd hu (hnot u)
      next => rfl

theorem bracedNode_eq (span : Span) (inner : Text) : bracedNode span inner =
    if (trimStart inner).head?.any isTagSign then
      .tag ((trimStart inner).takeWhile fun c => !isBlank c) span
    else .interpolation span (.classify (trim inner)) := by
  unfold bracedNode
  cases trimStart inner <;> rfl

theorem readBraced_agrees (h : Tail s i ('{' :: t)) :
    Agrees s (readBraced s i) (Markup.readBraced ⟨i, '{' :: t⟩ t) := by
  rw [readBraced, readBraces_eq h, Markup.readBraced]
  cases hr : afterBrace t with
  | none => exact .refused _
  | some r =>
    have hsuffix := (suffix_of_afterBrace hr).trans (List.suffix_cons '{' t)
    have hrest := (h.suffix hsuffix).1
    simp only [h.moveTo_eq hsuffix, ok_bind, bracedNode_eq]
    split <;> exact .ok _ hrest

theorem readToken_text {c : Char} (hc : startsConstruct (c :: t) = false) (n : Nat) :
    Markup.readToken ⟨n, c :: t⟩ =
      .ok (.node (.text ⟨n, ((⟨n, c :: t⟩ : Cursor).moveTo (afterText t)).offset⟩),
        (⟨n, c :: t⟩ : Cursor).moveTo (afterText t)) := by
  unfold Markup.readToken
  split
  next heq => simp_all [startsConstruct]
  next heq => simp_all [startsConstruct]
  next heq => simp_all [startsConstruct]
  next heq =>
    obtain ⟨rfl, rfl⟩ := List.cons.inj heq
    rw [hc, if_neg Bool.false_ne_true]
  next heq => cases heq

theorem afterText_suffix (t : Text) : afterText t <:+ t := by
  fun_induction afterText t with
  | case3 c t _ ih => exact ih.trans (List.suffix_cons c t)
  | _ => exact List.suffix_rfl

/-- The token at a byte is the one that the characters from there on give. -/
theorem readToken_agrees (h : Tail s i t) (ht : t ≠ []) :
    Agrees s (readToken s i) (Markup.readToken ⟨i, t⟩) := by
  have hcomment : startsAt s i ['<', '!', '-', '-'] = _ := h.startsAt_eq low_commentLead
  have hclose : startsAt s i ['<', '/'] = _ := h.startsAt_eq low_closeLead
  have hbrace := h.peek_eq_some_iff (by decide : Low '{')
  have hstarts := startsConstruct_eq t
  rw [readToken, hcomment, ok_bind, hclose, ok_bind, atTagOpen_eq h]
  split
  next hlead =>
    obtain ⟨r, hr⟩ := Option.isSome_iff_exists.mp hlead
    obtain rfl := afterLead?_eq_some_iff.mp hr
    exact readComment_agrees h
  split
  next hlead =>
    obtain ⟨r, hr⟩ := Option.isSome_iff_exists.mp hlead
    obtain rfl := afterLead?_eq_some_iff.mp hr
    exact readCloseTag_agrees h
  split
  next hopens =>
    obtain ⟨c, r, rfl, hc⟩ := exists_of_opensTag hopens
    rw [readToken_openTag hc]
    exact readOpenTag_agrees h
  split
  next hhead =>
    obtain ⟨r, rfl⟩ := List.head?_eq_some_iff.mp (hbrace.mp hhead)
    exact readBraced_agrees h
  next hno₁ hno₂ hno₃ hno₄ =>
    -- the four tests failed, and together they are `startsConstruct`
    obtain ⟨c, r, rfl⟩ := List.exists_cons_of_ne_nil ht
    have hplain : startsConstruct (c :: r) = false := by
      rw [hbrace] at hno₄
      simp_all
    have hsuffix := (afterText_suffix r).trans (List.suffix_cons c r)
    rw [readText_eq h, readToken_text hplain]
    simp only [h.moveTo_eq hsuffix]
    exact .ok _ (h.suffix hsuffix).1

end

end MarkupHighlight.Bytewise
