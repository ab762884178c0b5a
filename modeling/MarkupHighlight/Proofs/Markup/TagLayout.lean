import MarkupHighlight.Proofs.Edit.Overwriting
import MarkupHighlight.Proofs.Markup.Tags
import Mathlib.Data.List.Basic

/-!
How the text of a tag is laid out: where its name, its attributes and its end stand.
-/
namespace MarkupHighlight.Markup
open Script

/-- The attributes of a tag, read from byte `n` on to behind its `>`, with blanks and slashes around
them. The tag closes itself if its last slash stands right before the `>`. -/
inductive AttributesIn : Nat → Text → List Attribute → Bool → Prop
  | tagEnd (n : Nat) {gap : Text} (hgap : ∀ c ∈ gap, isTagBlank c = true ∨ c = '/') :
      AttributesIn n (gap ++ ['>']) [] (gap.getLast? == some '/')
  | next {n : Nat} {gap u rest : Text} {a : Attribute} {as : List Attribute} {closed : Bool}
      (hgap : ∀ c ∈ gap, isTagBlank c = true ∨ c = '/') (hne : u ≠ [])
      (hspan : a.span = ⟨n + byteSize gap, n + byteSize gap + byteSize u⟩)
      (hrest : AttributesIn (n + byteSize gap + byteSize u) rest as closed) :
      AttributesIn n (gap ++ (u ++ rest)) (a :: as) closed

theorem AttributesIn.mem_tagEnd {n : Nat} {u : Text} {as : List Attribute} {closed : Bool}
    (h : AttributesIn n u as closed) : '>' ∈ u := by
  induction h with
  | tagEnd => simp
  | next _ _ _ _ ih => simp [ih]

/-- More blanks and slashes in front change nothing, unless a slash comes to stand before the
`>`. -/
theorem AttributesIn.skip {n : Nat} {gap u : Text} {as : List Attribute} {closed : Bool}
    (hgap : ∀ c ∈ gap, isTagBlank c = true ∨ c = '/') (hu : ∀ x, u ≠ '>' :: x)
    (h : AttributesIn (n + byteSize gap) u as closed) : AttributesIn n (gap ++ u) as closed := by
  cases h with
  | @tagEnd _ gap' hgap' =>
    have hne : gap' ≠ [] := by
      rintro rfl
      exact hu [] rfl
    have hlast : (gap ++ gap').getLast? = gap'.getLast? := List.getLast?_append_of_ne_nil gap hne
    rw [← List.append_assoc, ← hlast]
    exact .tagEnd n (List.forall_mem_append.mpr ⟨hgap, hgap'⟩)
  | @next _ gap' u rest a as _ hgap' hne hspan hrest =>
    rw [← List.append_assoc]
    have hsize : n + byteSize gap + byteSize gap' = n + byteSize (gap ++ gap') := by
      rw [byteSize_append, Nat.add_assoc]
    rw [hsize] at hspan hrest
    exact .next (List.forall_mem_append.mpr ⟨hgap, hgap'⟩) hne hspan hrest

theorem span_of_readAttribute {c c' : Cursor} {a : Attribute} (h : readAttribute c = .ok (a, c')) :
    a.span = ⟨c.offset, c'.offset⟩ := by
  unfold readAttribute at h
  dsimp only at h
  split at h
  · split at h
    · cases h
    · obtain ⟨rfl, rfl⟩ := Prod.mk.inj (Except.ok.inj h)
      rfl
  · split at h
    · cases h
    · split at h
      · rename_i r _
        generalize readValue c.offset _ = v at h
        cases v with
        | error e => cases h
        | ok v =>
          obtain ⟨rfl, rfl⟩ := Prod.mk.inj (Except.ok.inj h)
          rfl
      · obtain ⟨rfl, rfl⟩ := Prod.mk.inj (Except.ok.inj h)
        rfl

theorem blank_or_slash {w : Text} (hw : ∀ c ∈ w, isTagBlank c = true) :
    ∀ c ∈ w ++ ['/'], isTagBlank c = true ∨ c = '/' := by
  intro c hc
  rcases List.mem_append.mp hc with hc | hc
  · exact .inl (hw c hc)
  · exact .inr (List.mem_singleton.mp hc)

theorem ReadsAttribute.span {v rest : Text} {a : Attribute} (h : ReadsAttribute v rest a) :
    a.span = ⟨0, byteSize v⟩ := by
  have hspan := span_of_readAttribute (h.reads 0 [])
  rwa [Attribute.shift_zero, Nat.zero_add] at hspan

/-- What is read step by step is laid out as a tag. -/
theorem ReadsTag.attributesIn {u : Text} {as : List Attribute} {closed : Bool}
    (h : ReadsTag u as closed) (n : Nat) :
    AttributesIn n u (as.map (.shift n)) closed := by
  induction h generalizing n with
  | @tagEnd b hb =>
    have hlast : (b.getLast? == some '/') = false := by
      rw [beq_eq_false_iff_ne]
      intro heq
      exact absurd (hb _ (List.mem_of_getLast? heq)) (by decide)
    rw [← hlast]
    exact .tagEnd n fun d hd => .inl (hb d hd)
  | @selfClosing b hb =>
    have hlast : ((b ++ ['/']).getLast? == some '/') = true := by simp
    have hcut : b ++ ['/', '>'] = b ++ ['/'] ++ ['>'] := by simp
    rw [← hlast, hcut]
    exact .tagEnd n (blank_or_slash hb)
  | @slash b rest as closed hb hrest _ ih =>
    have hskip := (ih (n + byteSize (b ++ ['/']))).skip (blank_or_slash hb) hrest
    simpa [Function.comp_def, Nat.add_assoc] using hskip
  | @next b v rest a as closed hb ha _ ih =>
    have hrest := ih (n + byteSize b + byteSize v)
    have hspan : ((a.shift (byteSize b)).shift n).span =
        ⟨n + byteSize b, n + byteSize b + byteSize v⟩ := by
      simp [Attribute.shift, Span.shift, ha.span, Nat.add_assoc]
    have hall := AttributesIn.next (fun e he => .inl (hb e he)) ha.ne_nil hspan hrest
    simpa [Function.comp_def, Nat.add_assoc] using hall

/-- What is read as the attributes of a tag is laid out as such. -/
theorem attributesIn_of_readAttributes {m : Nat} {c c' : Cursor} {as : List Attribute}
    {closed : Bool} (h : readAttributes m c = .ok (as, closed, c')) :
    ∃ u, c.rest = u ++ c'.rest ∧ c'.offset = c.offset + byteSize u ∧
      AttributesIn c.offset u as closed := by
  obtain ⟨u, as₀, hu, htag⟩ := exists_readsTag h
  obtain ⟨n, s⟩ := c
  obtain rfl : s = u ++ c'.rest := hu
  have hread := h.symm.trans (htag.reads m n c'.rest)
  simp only [Except.ok.injEq, Prod.mk.injEq] at hread
  obtain ⟨rfl, -, hc'⟩ := hread
  exact ⟨u, rfl, congrArg Cursor.offset hc', htag.attributesIn n⟩

section
variable {n : Nat} {u : Text} {as : List Attribute} {closed : Bool}

theorem AttributesIn.bounds (h : AttributesIn n u as closed) {a : Attribute} (ha : a ∈ as) :
    n ≤ a.span.start ∧ a.span.start < a.span.stop ∧ a.span.stop < n + byteSize u := by
  induction h with
  | tagEnd => cases ha
  | next hgap hne hspan hrest ih =>
    have hpos := byteSize_pos hne
    have hend := byteSize_pos (List.ne_nil_of_mem hrest.mem_tagEnd)
    simp only [byteSize_append]
    rcases List.mem_cons.mp ha with rfl | ha
    · rw [hspan]
      simp only
      omega
    · have := ih ha
      omega

theorem AttributesIn.disjoint (h : AttributesIn n u as closed) :
    as.Pairwise fun a b => a.span.stop ≤ b.span.start := by
  induction h with
  | tagEnd => exact .nil
  | next _ _ hspan hrest ih =>
    refine .cons (fun b hb => ?_) ih
    rw [hspan]
    exact (hrest.bounds hb).1

theorem AttributesIn.isCut (h : AttributesIn n u as closed) {x : Text} (hx : byteSize x = n)
    (y : Text) {a : Attribute} (ha : a ∈ as) : IsCut (x ++ (u ++ y)) a.span := by
  induction h generalizing x with
  | tagEnd => cases ha
  | @next n gap u rest _ _ _ _ hne hspan hrest ih =>
    subst hx
    rcases List.mem_cons.mp ha with rfl | ha
    · refine ⟨x ++ gap, u, rest ++ y, by simp, hne, ?_⟩
      rw [hspan]
      simp [Nat.add_assoc]
    · have := ih (x := x ++ (gap ++ u)) (by simp [Nat.add_assoc]) ha
      simpa using this

end

/-! The texts of tokens. -/

/-- A token and the text it is read from, which starts at byte `n`. -/
inductive Token.LaidOut (n : Nat) : Text → Token → Prop
  | leaf {u : Text} {v : Node} (hkind : v.kind ≠ .element) (hspan : v.span = ⟨n, n + byteSize u⟩) :
      LaidOut n u (.node v)
  | empty {name body : Text} {as : List Attribute} {closed : Bool} (hname : IsTagName name)
      (hbody : AttributesIn (n + byteSize ('<' :: name)) body as closed)
      (hempty : (closed || isVoid name) = true) :
      LaidOut n ('<' :: (name ++ body))
        (.node (.element name ⟨n, n + byteSize ('<' :: (name ++ body))⟩ as []))
  | rawText {name body content name' blanks : Text} {as : List Attribute} (hname : IsTagName name)
      (hbody : AttributesIn (n + byteSize ('<' :: name)) body as false)
      (hvoid : isVoid name = false) (hraw : isRawText name = true)
      (hname' : lowerAscii name' = lowerAscii name)
      (hblanks : ∀ c ∈ blanks, isTagBlank c = true) :
      LaidOut n ('<' :: (name ++ body) ++
          (content ++ ('<' :: '/' :: name' ++ (blanks ++ ['>']))))
        (.node (.element name ⟨n, n + byteSize ('<' :: (name ++ body) ++
            (content ++ ('<' :: '/' :: name' ++ (blanks ++ ['>']))))⟩ as
          (rawContent (n + byteSize ('<' :: (name ++ body))) content)))
  | openTag {name body : Text} {as : List Attribute} (hname : IsTagName name)
      (hbody : AttributesIn (n + byteSize ('<' :: name)) body as false)
      (hvoid : isVoid name = false) : LaidOut n ('<' :: (name ++ body)) (.openTag name n as)
  | closeTag {name blanks : Text} (hblanks : ∀ c ∈ blanks, isTagBlank c = true) :
      LaidOut n ('<' :: '/' :: name ++ (blanks ++ ['>']))
        (.closeTag name ⟨n, n + byteSize ('<' :: '/' :: name ++ (blanks ++ ['>']))⟩)

theorem bracedNode_kind (span : Span) (inner : Text) : (bracedNode span inner).kind ≠ .element := by
  unfold bracedNode
  split
  · simp [Node.kind]
  · split <;> simp [Node.kind]

theorem bracedNode_span (span : Span) (inner : Text) : (bracedNode span inner).span = span := by
  unfold bracedNode
  split
  · rfl
  · split <;> rfl

theorem Cursor.moveTo_of_rest {c : Cursor} {u t : Text} (h : c.rest = u ++ t) :
    c.moveTo t = ⟨c.offset + byteSize u, t⟩ := by
  obtain ⟨n, r⟩ := c
  obtain rfl : r = u ++ t := h
  exact Cursor.moveTo_append n u t

section
variable {c c' : Cursor} {s : Text} {t : Token}

theorem laidOut_of_readCloseTag (hs : c.rest = '<' :: '/' :: s)
    (h : readCloseTag c s = .ok (t, c')) :
    ∃ u, c.rest = u ++ c'.rest ∧ c'.offset = c.offset + byteSize u ∧ t.LaidOut c.offset u := by
  unfold readCloseTag at h
  dsimp only at h
  split at h
  · cases h
  · split at h
    · rename_i r hr
      obtain ⟨b, hb, hblank, -, -⟩ := cut_run hr
      have hrest : c.rest = ('<' :: '/' :: s.takeWhile isTagNameChar ++ (b ++ ['>'])) ++ r := by
        rw [hs, List.append_assoc, List.append_assoc, List.singleton_append, ← hb,
          List.cons_append, List.cons_append, List.takeWhile_append_dropWhile]
      rw [Cursor.moveTo_of_rest hrest] at h
      cases h
      exact ⟨_, hrest, rfl, .closeTag hblank⟩
    · cases h

theorem laidOut_of_readBraced (hs : c.rest = '{' :: s) (h : readBraced c s = .ok (t, c')) :
    ∃ u, c.rest = u ++ c'.rest ∧ c'.offset = c.offset + byteSize u ∧ t.LaidOut c.offset u := by
  unfold readBraced at h
  split at h
  · cases h
  · rename_i r hr
    obtain ⟨u, rfl, -⟩ := afterBrace_local hr
    have hrest : c.rest = ('{' :: u) ++ r := hs
    rw [Cursor.moveTo_of_rest hrest] at h
    cases h
    exact ⟨_, hrest, rfl, .leaf (bracedNode_kind _ _) (bracedNode_span _ _)⟩

/-- Only an upper case letter becomes another character, and that a lower case one. -/
theorem eq_of_toLower {d e : Char} (he : e.isLower = false) (h : d.toLower = e) : d = e := by
  subst h
  by_cases hd : 65 ≤ d.toNat ∧ d.toNat ≤ 90
  · have hlower : d.toLower.val = d.val + 32 := by
      unfold Char.toLower
      rw [dif_pos (by simpa [UInt32.le_iff_toNat_le] using hd)]
      rfl
    have hnat : d.toLower.toNat = d.toNat + 32 := by
      have h32 : (32 : UInt32).toNat = 32 := rfl
      have hval : d.val.toNat = d.toNat := rfl
      rw [Char.toNat, hlower, UInt32.toNat_add]
      omega
    have hnot : 97 ≤ d.toLower.toNat → 122 < d.toLower.toNat := by
      change (decide (d.toLower.val ≥ 97) && decide (d.toLower.val ≤ 122)) = false at he
      simpa [UInt32.le_iff_toNat_le] using he
    omega
  · unfold Char.toLower
    rw [dif_neg (by simpa [UInt32.le_iff_toNat_le] using hd)]

/-- The content of a raw text element and its closing tag, whose name may have other letter
cases. -/
theorem rawText_of_readRawText {name : Text} {m n : Nat} {as : List Attribute}
    (h : readRawText name m as ⟨n, s⟩ = .ok (t, c')) :
    ∃ content name' blanks, lowerAscii name' = lowerAscii name ∧
      (∀ d ∈ blanks, isTagBlank d = true) ∧
      s = content ++ ('<' :: '/' :: name' ++ (blanks ++ ['>'])) ++ c'.rest ∧
      c'.offset = n + byteSize (content ++ ('<' :: '/' :: name' ++ (blanks ++ ['>']))) ∧
      t = .node (.element name ⟨m, c'.offset⟩ as (rawContent n content)) := by
  obtain ⟨x, y, b, rfl, hy, hb, hx⟩ := readRawText_local h
  rw [readRawText_closed hy (hx _) hb] at h
  obtain ⟨hsplit, -⟩ := splitOnFirst?_local (hx c'.rest)
  have hlower : lowerAscii x ++ (lowerAscii y ++ lowerAscii (b ++ '>' :: c'.rest)) =
      lowerAscii x ++ ('<' :: '/' :: lowerAscii name ++ lowerAscii (b ++ '>' :: c'.rest)) := by
    simpa [lowerAscii] using hsplit
  have hy' := List.append_cancel_right (List.append_cancel_left hlower)
  obtain _ | ⟨d, _ | ⟨e, name'⟩⟩ := y
  · cases hy
  · cases hy
  · simp only [lowerAscii, List.map_cons, List.cons.injEq] at hy'
    obtain ⟨hd, he, hname⟩ := hy'
    obtain rfl := eq_of_toLower (by decide) hd
    obtain rfl := eq_of_toLower (by decide) he
    obtain ⟨rfl, hc⟩ := Prod.mk.inj (Except.ok.inj h)
    have hoffset := congrArg Cursor.offset hc
    exact ⟨x, name', b, hname, hb, by simp, hoffset.symm, by rw [← hoffset]⟩

theorem laidOut_of_readOpenTag {e : Char} (hs : c.rest = '<' :: e :: s) (he : e.isAlpha = true)
    (h : readOpenTag c (e :: s) = .ok (t, c')) :
    ∃ u, c.rest = u ++ c'.rest ∧ c'.offset = c.offset + byteSize u ∧ t.LaidOut c.offset u := by
  unfold readOpenTag at h
  dsimp only at h
  have hname : IsTagName ((e :: s).takeWhile isTagNameChar) :=
    ⟨List.all_eq_true.mp List.all_takeWhile, e, s.takeWhile isTagNameChar,
      List.takeWhile_cons_of_pos (isTagNameChar_of_isAlpha he), he⟩
  have hcut : c.rest = ('<' :: (e :: s).takeWhile isTagNameChar) ++
      (e :: s).dropWhile isTagNameChar := by
    rw [hs, List.cons_append, List.takeWhile_append_dropWhile]
  rw [Cursor.moveTo_of_rest hcut] at h
  generalize (e :: s).takeWhile isTagNameChar = name at h hname hcut
  split at h
  · cases h
  · rename_i as closed c₁ has
    obtain ⟨body, hbody, hoffset, hlayout⟩ := attributesIn_of_readAttributes has
    simp only at hbody hoffset hlayout
    have hrest : c.rest = '<' :: (name ++ body) ++ c₁.rest := by
      rw [hcut, hbody]
      simp
    have hoffset' : c₁.offset = c.offset + byteSize ('<' :: (name ++ body)) := by
      rw [hoffset]
      simp [Nat.add_assoc]
    split at h
    · rename_i hempty
      obtain ⟨rfl, rfl⟩ := Prod.mk.inj (Except.ok.inj h)
      refine ⟨_, hrest, hoffset', ?_⟩
      rw [hoffset']
      exact .empty hname hlayout hempty
    · rename_i hempty
      obtain ⟨rfl, hvoid⟩ : closed = false ∧ isVoid name = false := by simpa using hempty
      split at h
      · rename_i hraw
        obtain ⟨content, name', blanks, hname', hblanks, hc₁, hc', rfl⟩ := rawText_of_readRawText h
        have hstop : c'.offset = c.offset + byteSize ('<' :: (name ++ body) ++
            (content ++ ('<' :: '/' :: name' ++ (blanks ++ ['>'])))) := by
          rw [hc', hoffset', byteSize_append ('<' :: (name ++ body)), Nat.add_assoc]
        refine ⟨_, by rw [hrest, hc₁, ← List.append_assoc], hstop, ?_⟩
        rw [hstop, hoffset']
        exact .rawText hname hlayout hvoid hraw hname' hblanks
      · obtain ⟨rfl, rfl⟩ := Prod.mk.inj (Except.ok.inj h)
        exact ⟨_, hrest, hoffset', .openTag hname hlayout hvoid⟩

/-- What is read as a token is laid out as such. -/
theorem laidOut_of_readToken (hc : startsConstruct c.rest = true) (h : readToken c = .ok (t, c')) :
    ∃ u, c.rest = u ++ c'.rest ∧ c'.offset = c.offset + byteSize u ∧ t.LaidOut c.offset u := by
  unfold readToken at h
  split at h
  next s hs =>
    split at h
    next => cases h
    next r hr =>
      obtain ⟨u, rfl, -⟩ := afterComment?_local hr
      have hrest : c.rest = '<' :: '!' :: '-' :: '-' :: u ++ r := hs
      rw [Cursor.moveTo_of_rest hrest] at h
      cases h
      exact ⟨_, hrest, rfl, .leaf (by simp [Node.kind]) rfl⟩
  next s hs => exact laidOut_of_readCloseTag hs h
  next s hs => exact laidOut_of_readBraced hs h
  next d s hcomment hslash hbrace hs =>
    rw [hs] at hc
    rw [if_pos hc] at h
    obtain ⟨rfl, e, x, rfl, he⟩ := alpha_of_startsConstruct hc hcomment hslash hbrace
    exact laidOut_of_readOpenTag hs he h
  next hs => simp [hs, startsConstruct] at hc

end

/-- The text of a lexeme that stands at byte `n`. -/
theorem IsLexeme.laidOut {u : Text} {t : Token} (h : IsLexeme u t) (n : Nat) :
    (t.shift n).LaidOut n u := by
  have hread := h.reads n []
  rw [List.append_nil] at hread
  obtain ⟨v, hv, -, hlayout⟩ := laidOut_of_readToken h.starts hread
  obtain rfl : u = v := by simpa using hv
  exact hlayout

/-- A lexeme that starts as an opening tag is one, or an empty element, or the element of a raw text
that such a tag starts. -/
theorem IsLexeme.exists_tag {c : Char} {s : Text} {t : Token} (h : IsLexeme ('<' :: c :: s) t)
    (hc : c.isAlpha = true) :
    ∃ name body as closed, IsTag name body as closed ∧
      ('<' :: c :: s = '<' :: (name ++ body) ∧ (closed || isVoid name) = true ∧
          t = .node (.element name ⟨0, byteSize ('<' :: (name ++ body))⟩
            (as.map (.shift (byteSize ('<' :: name)))) []) ∨
        '<' :: c :: s = '<' :: (name ++ body) ∧ (closed || isVoid name) = false ∧
          isRawText name = false ∧
          t = .openTag name 0 (as.map (.shift (byteSize ('<' :: name)))) ∨
        isRawText name = true ∧
          ∃ span as children, t = .node (.element name span as children)) := by
  have hread := h.reads 0 []
  rw [List.append_nil, Token.shift_zero] at hread
  have hopen := hread
  rw [readToken_openTag hc] at hopen
  obtain ⟨name, body, as, closed, r, htag, hrest⟩ := isTag_of_readOpenTag rfl hc hopen
  refine ⟨name, body, as, closed, htag, ?_⟩
  simp only at hrest
  rw [hrest, htag.readToken] at hread
  dsimp only at hread
  rw [Nat.zero_add, Nat.zero_add] at hread
  split at hread
  next hempty =>
    obtain ⟨rfl, hend⟩ := Prod.mk.inj (Except.ok.inj hread)
    obtain rfl : r = [] := congrArg Cursor.rest hend
    exact .inl ⟨by rw [hrest, List.append_nil], hempty, rfl⟩
  next hempty =>
    split at hread
    next hraw =>
      obtain ⟨content, blanks, tag, -, -, -, -, rfl⟩ := rawText_of_readRawText hread
      exact .inr (.inr ⟨hraw, _, _, _, rfl⟩)
    next hraw =>
      obtain ⟨rfl, hend⟩ := Prod.mk.inj (Except.ok.inj hread)
      obtain rfl : r = [] := congrArg Cursor.rest hend
      rw [Bool.not_eq_true] at hempty hraw
      exact .inr (.inl ⟨by rw [hrest, List.append_nil], hempty, hraw, rfl⟩)

end MarkupHighlight.Markup
