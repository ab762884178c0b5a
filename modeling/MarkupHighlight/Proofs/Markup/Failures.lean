import MarkupHighlight.Proofs.Bytes.Attributes
import MarkupHighlight.Proofs.Markup.RawText

/-!
What the errors of the parser point at. `Reaches` says at which places of a document a reader
stands, and what it takes the next characters for. `pointsAt_of_parse` says that every error points
at such a place and that what stands there cannot be read on, for the reason the error gives.
-/
namespace MarkupHighlight.Markup
open Script

/-- What the next characters belong to. -/
inductive Stage
  | document
  | tag
  | value
  | quoted (quote : Char)

/-- `key` is the name of an attribute in front of `t`. -/
structure IsKeyBefore (key t : Text) : Prop where
  ne_nil : key ≠ []
  ends : afterRun endsAttributeName (key ++ t) = t
  not_brace : ∀ x, key ≠ '{' :: x
  not_slash : ∀ x, key ≠ '/' :: x

/-- A reader that has read `front` stands in front of `t`. -/
inductive Reaches : Stage → Text → Text → Prop
  | document {f : Forest} {t : Text} (hf : f.Sound) (ht : startsConstruct t = true) :
      Reaches .document f.written t
  | tagName {front name t : Text} (h : Reaches .document front ('<' :: (name ++ t)))
      (hname : IsTagName name) (ht : ∀ d ∈ t.head?, isTagNameChar d = false) :
      Reaches .tag (front ++ '<' :: name) t
  | blanks {front b t : Text} (h : Reaches .tag front (b ++ t))
      (hb : ∀ c ∈ b, isTagBlank c = true) : Reaches .tag (front ++ b) t
  | slash {front t : Text} (h : Reaches .tag front ('/' :: t)) (ht : ∀ x, t ≠ '>' :: x) :
      Reaches .tag (front ++ ['/']) t
  | attribute {front u t : Text} {a : Attribute} (h : Reaches .tag front (u ++ t))
      (hslash : ∀ x, u ≠ '/' :: x)
      (hread : readAttribute ⟨byteSize front, u ++ t⟩ = .ok (a, ⟨byteSize (front ++ u), t⟩)) :
      Reaches .tag (front ++ u) t
  | key {front key b b' t : Text} (h : Reaches .tag front (key ++ (b ++ '=' :: (b' ++ t))))
      (hkey : IsKeyBefore key (b ++ '=' :: (b' ++ t))) (hb : ∀ c ∈ b, isTagBlank c = true)
      (hb' : ∀ c ∈ b', isTagBlank c = true) (ht : ∀ d ∈ t.head?, isTagBlank d = false) :
      Reaches .value (front ++ (key ++ (b ++ '=' :: b'))) t
  | quote {q : Char} {front t : Text} (h : Reaches .value front (q :: t)) (hq : isQuote q = true) :
      Reaches (.quoted q) (front ++ [q]) t
  | text {q : Char} {front w t : Text} (h : Reaches (.quoted q) front (w ++ t))
      (hw : ∀ c ∈ w, isValueChar q c = true) : Reaches (.quoted q) (front ++ w) t
  | expression {q : Char} {front u t : Text} (h : Reaches (.quoted q) front ('{' :: (u ++ t)))
      (hu : afterBrace (u ++ t) = some t) : Reaches (.quoted q) (front ++ '{' :: u) t

/-- What stands behind `front`, where an error points at, and why it is one. What has no end is read
up to the end of the text. -/
def PointsAt (front t : Text) : Error → Prop
  | .unclosedElement name _ =>
      Reaches .document front t ∧ ∃ body as rest, t = '<' :: (name ++ (body ++ rest)) ∧
        IsTag name body as false ∧ isVoid name = false ∧
          if isRawText name = true then ¬ closingMark name <:+: lowerAscii rest
          else ∃ d, parse rest = .ok d
  | .unexpectedClosingTag name _ =>
      ∃ (f : Forest) (b rest : Text), f.Sound ∧ f.written = front ∧ name ∉ f.unclosed ∧
        t = '<' :: '/' :: (name ++ (b ++ '>' :: rest)) ∧ ∀ c ∈ b, isTagBlank c = true
  | .unterminated .comment _ =>
      Reaches .document front t ∧
        ∃ rest, t = '<' :: '!' :: '-' :: '-' :: rest ∧ ¬ ['-', '-', '>'] <:+: rest
  | .unterminated .expression _ =>
      (∃ stage, Reaches stage front t) ∧ ∃ rest, t = '{' :: rest ∧ afterBrace rest = none
  | .unterminated .closingTag _ =>
      Reaches .document front t ∧ ∃ name b rest, t = '<' :: '/' :: (name ++ (b ++ rest)) ∧
        name ≠ [] ∧ (∀ c ∈ name, isTagNameChar c = true) ∧
          (∀ d ∈ (b ++ rest).head?, isTagNameChar d = false) ∧
            (∀ c ∈ b, isTagBlank c = true) ∧ ∀ d ∈ rest.head?, isTagBlank d = false ∧ d ≠ '>'
  | .unterminated .tag _ =>
      Reaches .document front t ∧ (∃ c rest, t = '<' :: c :: rest ∧ c.isAlpha = true) ∧
        Reaches .tag (front ++ t) []
  | .unterminated .attributeValue _ =>
      (Reaches .value front t ∧ ∃ q rest, t = q :: rest ∧ isQuote q = true ∧
        Reaches (.quoted q) (front ++ t) []) ∨
      Reaches .tag front t ∧ (∃ key b b', t = key ++ (b ++ '=' :: b') ∧
        IsKeyBefore key (b ++ '=' :: b') ∧ (∀ c ∈ b, isTagBlank c = true) ∧
          ∀ c ∈ b', isTagBlank c = true) ∧ Reaches .value (front ++ t) []
  | .expected .attributeName _ => Reaches .tag front t ∧ ∃ rest, t = '=' :: rest
  | .expected .tagName _ =>
      ∃ front', front = front' ++ ['<', '/'] ∧ Reaches .document front' ('<' :: '/' :: t) ∧
        ∀ d ∈ t.head?, isTagNameChar d = false
  | .expected .tagEnd _ =>
      ∃ front' name body as u, front = front' ++ '<' :: (name ++ (body ++ u)) ∧
        Reaches .document front' ('<' :: (name ++ (body ++ (u ++ t)))) ∧
          IsTag name body as false ∧ isRawText name = true ∧ EndsAtMark name u ∧
            ∀ d ∈ t.head?, isTagBlank d = false ∧ d ≠ '>'

/-- The error points at a place of the text, and at its cause. -/
def Located (s : Text) (e : Error) : Prop :=
  ∃ front t, s = front ++ t ∧ byteSize front = e.offset ∧ PointsAt front t e

/-! Inside a tag. -/

theorem eq_error_of_map {α β : Type} {f : α → β} {x : Except Error α} {e : Error}
    (h : x.map f = .error e) : x = .error e := by
  cases x with
  | error e' =>
    obtain rfl := Except.error.inj h
    rfl
  | ok a => cases h

theorem located_brace {stage : Stage} {front rest : Text} (h : Reaches stage front ('{' :: rest))
    (hnone : afterBrace rest = none) :
    Located (front ++ '{' :: rest) (.unterminated .expression (byteSize front)) :=
  ⟨front, '{' :: rest, rfl, rfl, ⟨stage, h⟩, rest, rfl, hnone⟩

/-- An error in a quoted value, which starts behind `start`. -/
theorem located_of_readChunks {q : Char} {start rest : Text} (hq : isQuote q = true)
    (hvalue : Reaches .value start (q :: rest)) {front : Text} {c : Cursor} {e : Error}
    (htext : start ++ q :: rest = front ++ c.rest) (hreach : Reaches (.quoted q) front c.rest)
    (hoffset : c.offset = byteSize front) (h : readChunks q (byteSize start) c = .error e) :
    Located (front ++ c.rest) e := by
  fun_induction readChunks q (byteSize start) c generalizing front with
  | case2 | case5 => cases h
  | case1 c hend =>
    obtain rfl := Except.error.inj h
    have hwhole : ∀ d ∈ c.rest, isValueChar q d = true := List.dropWhile_eq_nil_iff.mp hend
    rw [← List.append_nil c.rest] at hreach
    refine ⟨start, q :: rest, htext.symm, rfl, .inl ⟨hvalue, q, rest, rfl, hq, ?_⟩⟩
    rw [htext]
    exact hreach.text hwhole
  | case3 c d s hs hd brace =>
    rename_i hnone
    obtain rfl := Except.error.inj h
    obtain ⟨w, hc, hw, hstop, -⟩ := cut_run hs
    obtain rfl : d = '{' := by simpa [hd] using hstop
    have hbrace : brace.offset = byteSize (front ++ w) := by
      rw [show brace = _ from Cursor.moveTo_of_rest hc, hoffset, byteSize_append]
    rw [hc] at hreach ⊢
    rw [hbrace, ← List.append_assoc]
    exact located_brace (hreach.text hw) hnone
  | case4 c d s hs hd brace r hr e' hmore =>
    rename_i ih
    obtain ⟨w, hc, hw, hstop, -⟩ := cut_run hs
    obtain rfl : d = '{' := by simpa [hd] using hstop
    obtain ⟨u, rfl, hu⟩ := afterBrace_local hr
    have hbehind : brace.moveTo r = ⟨byteSize (front ++ w ++ '{' :: u), r⟩ := by
      rw [show brace = _ from Cursor.moveTo_of_rest hc, ← List.cons_append, Cursor.moveTo_append,
        hoffset]
      simp only [byteSize_append]
    have hsame : front ++ c.rest = front ++ w ++ '{' :: u ++ r := by simp [hc]
    rw [hc] at hreach
    rw [hsame] at htext ⊢
    rw [hbehind] at ih hmore
    exact ih htext ((hreach.text hw).expression (hu r)) rfl (hmore.trans h)

/-- An error in the value of an attribute that starts behind `front`. -/
theorem located_of_readValue {front key b b' t : Text} {e : Error}
    (htag : Reaches .tag front (key ++ (b ++ '=' :: (b' ++ t))))
    (hkey : IsKeyBefore key (b ++ '=' :: (b' ++ t))) (hb : ∀ c ∈ b, isTagBlank c = true)
    (hb' : ∀ c ∈ b', isTagBlank c = true) (ht : ∀ d ∈ t.head?, isTagBlank d = false)
    (h : readValue (byteSize front) ⟨byteSize (front ++ (key ++ (b ++ '=' :: b'))), t⟩ =
      .error e) :
    Located (front ++ (key ++ (b ++ '=' :: (b' ++ t)))) e := by
  have hvalue := htag.key hkey hb hb' ht
  have hsame : front ++ (key ++ (b ++ '=' :: (b' ++ t))) =
      front ++ (key ++ (b ++ '=' :: b')) ++ t := by
    simp
  rw [readValue] at h
  split at h
  next hnil =>
    obtain rfl : t = [] := hnil
    obtain rfl := Except.error.inj h
    rw [List.append_nil] at hkey htag ⊢
    exact ⟨front, _, rfl, rfl, .inr ⟨htag, ⟨key, b, b', rfl, hkey, hb, hb'⟩, hvalue⟩⟩
  next s hs =>
    obtain rfl : t = '{' :: s := hs
    split at h
    next hnone =>
      obtain rfl := Except.error.inj h
      rw [hsame]
      exact located_brace hvalue hnone
    next => cases h
  next d s hd hs =>
    obtain rfl : t = d :: s := hs
    split at h
    next hq =>
      rw [Cursor.moveTo_cons] at h
      have hlocated := located_of_readChunks hq hvalue (by simp) (hvalue.quote hq)
        (by simp [Nat.add_assoc]) (eq_error_of_map h)
      rw [hsame]
      simpa using hlocated
    next => cases h

theorem eq_of_before_eq_nil {s r : Text} (hsuffix : r <:+ s) (h : before s r = []) : r = s := by
  obtain ⟨u, rfl⟩ := hsuffix
  rw [before_append] at h
  rw [h, List.nil_append]

section
variable {front t : Text} (htag : Reaches .tag front t)
include htag

/-- Where no name stands, and the tag does not end, a `=` stands. -/
theorem located_of_no_name {d : Char} {s : Text} (ht : t = d :: s) (hblank : isTagBlank d = false)
    (hend : d ≠ '>') (hslash : d ≠ '/')
    (hempty : before t (afterRun endsAttributeName t) = []) :
    Located (front ++ t) (.expected .attributeName (byteSize front)) := by
  have hstop := eq_of_before_eq_nil (Bytewise.afterRun_suffix endsAttributeName t) hempty
  subst ht
  rw [afterRun.eq_3 _ _ _ fun _ h => absurd h hslash] at hstop
  split at hstop
  next hends =>
    obtain rfl : d = '=' := by simpa [endsAttributeName, hblank, hend] using hends
    exact ⟨front, _, rfl, rfl, htag, s, rfl⟩
  next =>
    have := length_afterRun_le endsAttributeName s
    rw [hstop, List.length_cons] at this
    omega

theorem located_of_readAttribute {d : Char} {s : Text} (ht : t = d :: s)
    (hblank : isTagBlank d = false) (hend : d ≠ '>') (hslash : d ≠ '/') {e : Error}
    (h : readAttribute ⟨byteSize front, t⟩ = .error e) : Located (front ++ t) e := by
  have hread := h
  rw [readAttribute] at h
  split at h
  next x hx =>
    obtain rfl : t = '{' :: x := hx
    split at h
    next hnone =>
      obtain rfl := Except.error.inj h
      exact located_brace htag hnone
    next => cases h
  next hbrace =>
    dsimp only at h
    split at h
    next hempty =>
      obtain rfl := Except.error.inj h
      exact located_of_no_name htag ht hblank hend hslash (List.isEmpty_iff.mp hempty)
    next hne =>
      obtain ⟨key, hcut⟩ := Bytewise.afterRun_suffix endsAttributeName t
      generalize hr : afterRun endsAttributeName t = r at h hne hcut
      subst hcut
      rw [before_append, List.isEmpty_iff] at hne
      split at h
      next x hx =>
        obtain ⟨b, rfl, hb, -, -⟩ := cut_run hx
        obtain ⟨b', t, rfl, -, -, hb', hvalue⟩ := exists_run isTagBlank x
        have hkey : IsKeyBefore key (b ++ '=' :: (b' ++ t)) := by
          refine ⟨hne, hr, ?_, ?_⟩
          · rintro y rfl
            exact hbrace _ rfl
          · rintro y rfl
            exact hslash (List.cons.inj ht).1.symm
        rw [readAttribute_valued b b' t hne hkey.not_brace hr hb hb' hvalue,
          ← byteSize_append] at hread
        exact located_of_readValue htag hkey hb hb' hvalue (eq_error_of_map hread)
      next => cases h

end

/-- An attribute that is read is some of the text. -/
theorem exists_of_readAttribute {front t : Text} {a : Attribute} {c : Cursor}
    (h : readAttribute ⟨byteSize front, t⟩ = .ok (a, c)) :
    ∃ u, t = u ++ c.rest ∧ c = ⟨byteSize (front ++ u), c.rest⟩ := by
  obtain ⟨n, r⟩ := c
  have hread := Bytewise.readAttribute_agrees (s := front ++ t) ⟨front, rfl, rfl⟩
  rw [h] at hread
  obtain ⟨-, p, hp, hsize⟩ := hread.of_ok
  have hshorter := readAttribute_shorter h
  rcases List.append_eq_append_iff.mp hp with ⟨u, rfl, rfl⟩ | ⟨u, rfl, hr⟩
  · exact ⟨u, rfl, by rw [hsize]⟩
  · simp only at hr hshorter
    rw [hr, List.length_append] at hshorter
    omega

/-- The place of the next attribute, if the tag does not end first. -/
theorem exists_attributeStart {front : Text} {c : Cursor} (hreach : Reaches .tag front c.rest)
    (hoffset : c.offset = byteSize front) (hnil : c.rest.dropWhile isTagBlank ≠ [])
    (hend : ∀ s, c.rest.dropWhile isTagBlank ≠ '>' :: s)
    (hslash : ∀ s, c.rest.dropWhile isTagBlank ≠ '/' :: s) :
    ∃ b d s, c.rest = b ++ d :: s ∧ c.skipBlanks = ⟨byteSize (front ++ b), d :: s⟩ ∧
      Reaches .tag (front ++ b) (d :: s) ∧ isTagBlank d = false ∧ d ≠ '>' ∧ d ≠ '/' := by
  obtain ⟨d, s, hs⟩ := List.exists_cons_of_ne_nil hnil
  obtain ⟨b, hb, hc, hskip⟩ := exists_skipBlanks (show c.skipBlanks.rest = d :: s from hs)
  obtain ⟨-, -, -, hblank, -⟩ := cut_run hs
  rw [hoffset, ← byteSize_append] at hskip
  rw [hc] at hreach
  exact ⟨b, d, s, hc, hskip, hreach.blanks hb, hblank, fun h => hend s (h ▸ hs),
    fun h => hslash s (h ▸ hs)⟩

/-- An error in the tag that starts behind `start`. -/
theorem located_of_readAttributes {start whole : Text} (hdocument : Reaches .document start whole)
    (hlead : ∃ c rest, whole = '<' :: c :: rest ∧ c.isAlpha = true) {front : Text} {c : Cursor}
    {e : Error} (htext : start ++ whole = front ++ c.rest) (hreach : Reaches .tag front c.rest)
    (hoffset : c.offset = byteSize front) (h : readAttributes (byteSize start) c = .error e) :
    Located (front ++ c.rest) e := by
  fun_induction readAttributes (byteSize start) c generalizing front with
  | case2 | case3 => cases h
  | case1 c hend =>
    obtain rfl := Except.error.inj h
    have hblank : ∀ d ∈ c.rest, isTagBlank d = true := List.dropWhile_eq_nil_iff.mp hend
    rw [← List.append_nil c.rest] at hreach
    refine ⟨start, whole, htext.symm, rfl, hdocument, hlead, ?_⟩
    rw [htext]
    exact hreach.blanks hblank
  | case4 c c₁ s hend hs =>
    rename_i ih
    obtain ⟨b, hb, hc, hskip⟩ := exists_skipBlanks (show c.skipBlanks.rest = '/' :: s from hs)
    have hbehind : c₁.moveTo s = ⟨byteSize (front ++ b ++ ['/']), s⟩ := by
      rw [show c₁ = _ from hskip, Cursor.moveTo_cons, hoffset]
      simp [Nat.add_assoc]
    have hsame : front ++ c.rest = front ++ b ++ ['/'] ++ s := by simp [hc]
    rw [hc] at hreach
    rw [hsame] at htext ⊢
    rw [hbehind] at ih h
    exact ih htext ((hreach.blanks hb).slash hend) rfl h
  | case5 c c₁ e' hread hnil hend hself =>
    rename_i hslash
    obtain rfl := Except.error.inj h
    obtain ⟨b, d, s, hc, hskip, hstart, hblank, hne, hne'⟩ :=
      exists_attributeStart hreach hoffset hnil hend hslash
    rw [show c₁ = _ from hskip] at hread
    rw [hc, ← List.append_assoc]
    exact located_of_readAttribute hstart rfl hblank hne hne' hread
  | case6 c c₁ a c₂ hread hnil hend hself hslash =>
    rename_i ih
    obtain ⟨b, d, s, hc, hskip, hstart, hblank, hne, hne'⟩ :=
      exists_attributeStart hreach hoffset hnil hend hslash
    rw [show c₁ = _ from hskip] at hread
    obtain ⟨u, hu, hc₂⟩ := exists_of_readAttribute hread
    have hsame : front ++ c.rest = front ++ b ++ u ++ c₂.rest := by simp [hc, hu]
    have hbehind : Reaches .tag (front ++ b ++ u) c₂.rest := by
      rw [hu] at hstart hread
      rw [hc₂] at hread
      refine hstart.attribute ?_ hread
      rintro x rfl
      exact hne' (List.cons.inj hu).1
    rw [hsame] at htext ⊢
    exact ih htext hbehind (congrArg Cursor.offset hc₂) (eq_error_of_map h)

/-! Constructs of the document. -/

section
variable {front : Text} {e : Error}

/-- An error in the content of an element with raw text or in its closing tag. -/
theorem located_of_readRawText {name body rest : Text} {as as' : List Attribute}
    (hreach : Reaches .document front ('<' :: (name ++ (body ++ rest))))
    (htag : IsTag name body as false) (hraw : isRawText name = true)
    (h : readRawText name (byteSize front) as'
      ⟨byteSize front + byteSize ('<' :: (name ++ body)), rest⟩ = .error e) :
    Located (front ++ '<' :: (name ++ (body ++ rest))) e := by
  by_cases hmark : closingMark name <:+: lowerAscii rest
  · obtain ⟨u, r, rfl, ⟨p, q, b, rfl, hp, hq, hb⟩, hr⟩ := exists_mark hmark
    have hend : ∀ d ∈ r.head?, isTagBlank d = false ∧ d ≠ '>' := by
      intro d hd
      refine ⟨hr d hd, ?_⟩
      rintro rfl
      obtain ⟨x, rfl⟩ := List.head?_eq_some_iff.mp hd
      have hclosed := readRawText_closed (length_of_lowerAscii hq)
        (splitOnFirst?_mark hraw hp hq (b ++ '>' :: x)) hb (byteSize front)
        (byteSize front + byteSize ('<' :: (name ++ body))) as'
      simp only [List.append_assoc] at h
      cases h.symm.trans hclosed
    have hfail := readRawText_of_mark hraw hp hq hb hend (byteSize front)
      (byteSize front + byteSize ('<' :: (name ++ body))) as'
    simp only [List.append_assoc] at h
    obtain rfl := Except.error.inj (h.symm.trans hfail)
    refine ⟨front ++ '<' :: (name ++ (body ++ (p ++ (q ++ b)))), r, by simp, ?_,
      front, name, body, as, p ++ (q ++ b), rfl, hreach, htag, hraw, ⟨p, q, b, rfl, hp, hq, hb⟩, hend⟩
    simp [Error.offset, Nat.add_assoc]
  · have hnone := splitOnFirst?_eq_none_iff.mpr hmark
    rw [closingMark] at hnone
    simp only [readRawText, hnone] at h
    obtain rfl := Except.error.inj h
    refine ⟨front, _, rfl, rfl, hreach, body, as, rest, rfl, htag, isVoid_of_isRawText hraw, ?_⟩
    rw [if_pos hraw]
    exact hmark

/-- An error in an opening tag or in the raw text behind it. -/
theorem located_of_readOpenTag {d : Char} {s : Text} (hd : d.isAlpha = true)
    (hreach : Reaches .document front ('<' :: d :: s))
    (h : readOpenTag ⟨byteSize front, '<' :: d :: s⟩ (d :: s) = .error e) :
    Located (front ++ '<' :: d :: s) e := by
  cases hread : readAttributes (byteSize front) ((⟨byteSize front, '<' :: d :: s⟩ : Cursor).moveTo
      ((d :: s).dropWhile isTagNameChar)) with
  | error e' =>
    simp only [readOpenTag, hread, Except.error.injEq] at h
    subst h
    obtain ⟨name, r, hcut, hname, hrest, hchars, hr⟩ := exists_run isTagNameChar (d :: s)
    have htag : IsTagName name := by
      refine ⟨hchars, d, s.takeWhile isTagNameChar, ?_, hd⟩
      rw [← hname, List.takeWhile_cons_of_pos (isTagNameChar_of_isAlpha hd)]
    have hcursor : (⟨byteSize front, '<' :: d :: s⟩ : Cursor).moveTo r =
        ⟨byteSize (front ++ '<' :: name), r⟩ := by
      rw [hcut, ← List.cons_append, Cursor.moveTo_append, byteSize_append]
    have hsame : front ++ '<' :: d :: s = front ++ '<' :: name ++ r := by simp [hcut]
    have hreach' := hreach
    rw [hcut] at hreach'
    rw [hrest, hcursor] at hread
    rw [hsame]
    exact located_of_readAttributes hreach ⟨d, s, rfl, hd⟩ hsame (hreach'.tagName htag hr) rfl hread
  | ok v =>
    obtain ⟨as, closed, c⟩ := v
    obtain ⟨body, as₀, htag, hcut⟩ := isTag_of_readAttributes hd (Cursor.rest_moveTo ..) hread
    generalize (d :: s).takeWhile isTagNameChar = name at htag hcut
    rw [← readToken_openTag hd, hcut, htag.readToken] at h
    rw [hcut] at hreach ⊢
    dsimp only at h
    split at h
    next => cases h
    next hempty =>
      obtain ⟨rfl, -⟩ : closed = false ∧ isVoid name = false := by simpa using hempty
      split at h
      next hraw => exact located_of_readRawText hreach htag hraw h
      next => cases h

theorem located_of_readCloseTag {s : Text} (hreach : Reaches .document front ('<' :: '/' :: s))
    (h : readCloseTag ⟨byteSize front, '<' :: '/' :: s⟩ s = .error e) :
    Located (front ++ '<' :: '/' :: s) e := by
  obtain ⟨name, t, rfl, hname, hrest, hchars, ht⟩ := exists_run isTagNameChar s
  obtain ⟨b, r, rfl, -, hdrop, hb, hr⟩ := exists_run isTagBlank t
  simp only [readCloseTag, hname, hrest, hdrop] at h
  split at h
  next hempty =>
    obtain rfl := Except.error.inj h
    obtain rfl := List.isEmpty_iff.mp hempty
    refine ⟨front ++ ['<', '/'], b ++ r, by simp, ?_, front, rfl, hreach, ht⟩
    rw [byteSize_append]
    rfl
  next hne =>
    split at h
    next => cases h
    next hend =>
      obtain rfl := Except.error.inj h
      refine ⟨front, _, rfl, rfl, hreach, name, b, r, rfl, mt List.isEmpty_iff.mpr hne, hchars, ht,
        hb, fun d hd => ⟨hr d hd, ?_⟩⟩
      rintro rfl
      obtain ⟨x, rfl⟩ := List.head?_eq_some_iff.mp hd
      exact hend x rfl

/-- An error at a place where a token starts. -/
theorem located_of_readToken {t : Text} (hreach : Reaches .document front t)
    (h : readToken ⟨byteSize front, t⟩ = .error e) : Located (front ++ t) e := by
  have hstart := startsConstruct_of_error h
  unfold readToken at h
  split at h
  next s hs =>
    obtain rfl : t = '<' :: '!' :: '-' :: '-' :: s := hs
    rw [afterComment?_eq] at h
    split at h
    next hnone =>
      obtain rfl := Except.error.inj h
      have hnone' := splitOnFirst?_eq_none_iff.mp (Option.map_eq_none_iff.mp hnone)
      exact ⟨front, _, rfl, rfl, hreach, s, rfl, hnone'⟩
    next => cases h
  next s hs =>
    obtain rfl : t = '<' :: '/' :: s := hs
    exact located_of_readCloseTag hreach h
  next s hs =>
    obtain rfl : t = '{' :: s := hs
    rw [readBraced] at h
    split at h
    next hnone =>
      obtain rfl := Except.error.inj h
      exact located_brace hreach hnone
    next => cases h
  next d s hcomment hslash hbrace hs =>
    obtain rfl : t = d :: s := hs
    rw [if_pos hstart] at h
    obtain ⟨rfl, c, x, rfl, hc⟩ := alpha_of_startsConstruct hstart hcomment hslash hbrace
    exact located_of_readOpenTag hc hreach h
  next => cases h

end

/-! Tags that do not match. -/

/-- An opening tag that is read alone is neither void nor that of raw text. -/
theorem IsLexeme.exists_openTag {u name : Text} {as : List Attribute}
    (h : IsLexeme u (.openTag name 0 as)) :
    ∃ body as₀, u = '<' :: (name ++ body) ∧ IsTag name body as₀ false ∧ isVoid name = false ∧
      isRawText name = false := by
  obtain ⟨c, s, rfl, hc⟩ : ∃ c s, u = '<' :: c :: s ∧ c.isAlpha = true := by
    cases h.laidOut 0 with
    | openTag hname =>
      obtain ⟨c, s, rfl, hc⟩ := hname.head
      exact ⟨c, _, rfl, hc⟩
  obtain ⟨name', body, as₀, closed, htag, ⟨-, -, ht⟩ | ⟨hu, hempty, hraw, ht⟩ |
    ⟨-, _, _, _, ht⟩⟩ := h.exists_tag hc
  · cases ht
  · obtain ⟨rfl, -, -⟩ := Token.openTag.inj ht
    obtain ⟨rfl, hvoid⟩ : closed = false ∧ isVoid name = false := by simpa using hempty
    exact ⟨body, as₀, hu, htag, hvoid, hraw⟩
  · cases ht
theorem IsLexeme.exists_closeTag {u name : Text} {span : Span}
    (h : IsLexeme u (.closeTag name span)) :
    ∃ b, (∀ c ∈ b, isTagBlank c = true) ∧ u = '<' :: '/' :: (name ++ (b ++ ['>'])) := by
  have hlayout := h.laidOut 0
  generalize ht : (Token.closeTag name span).shift 0 = t at hlayout
  cases hlayout with
  | closeTag hb =>
    obtain ⟨rfl, -⟩ := Token.closeTag.inj ht
    exact ⟨_, hb, rfl⟩
  | _ => cases ht

/-- A text that leaves elements open is one in front of the last opening tag of these, and one in
which every element is closed behind it. -/
theorem Forest.Sound.exists_innermost {f : Forest} (hf : f.Sound) (h : f.unclosed ≠ []) :
    ∃ (g : Forest) (opening name : Text) (as : List Attribute) (inner : Forest), g.Sound ∧
      (f.startsPlain = false → g.startsPlain = false) ∧ IsLexeme opening (.openTag name 0 as) ∧
        inner.Complete ∧ f.written = g.written ++ (opening ++ inner.written) := by
  induction hf with
  | nil => exact absurd rfl h
  | @plain s rest hne hs hrest _ ih =>
    obtain ⟨g, opening, name, as, inner, hg, hstart, hopening, hinner, hwritten⟩ := ih h
    exact ⟨.plain s g, opening, name, as, inner, .plain hne hs (hstart hrest) hg, nofun, hopening,
      hinner, by simp [written, hwritten]⟩
  | @leaf s v rest hs _ ih =>
    obtain ⟨g, opening, name, as, inner, hg, -, hopening, hinner, hwritten⟩ := ih h
    exact ⟨.leaf s v g, opening, name, as, inner, .leaf hs hg, fun _ => rfl, hopening, hinner, by
      simp [written, hwritten]⟩
  | @closed tag name' closing as' children rest htag hchildren hname hclosing _ _ ih =>
    obtain ⟨g, opening, name, as, inner, hg, -, hopening, hinner, hwritten⟩ := ih h
    exact ⟨.closed tag name' as' children closing g, opening, name, as, inner,
      .closed htag hchildren hname hclosing hg, fun _ => rfl, hopening, hinner, by
        simp [written, hwritten]⟩
  | @hanging tag name' as' children htag hchildren ih =>
    by_cases hclosed : children.unclosed = []
    · exact ⟨.nil, tag, name', as', children, .nil, fun _ => rfl, htag, ⟨hchildren, hclosed⟩, rfl⟩
    · obtain ⟨g, opening, name, as, inner, hg, -, hopening, hinner, hwritten⟩ := ih hclosed
      exact ⟨.hanging tag name' as' g, opening, name, as, inner, .hanging htag hg, fun _ => rfl,
        hopening, hinner, by simp [written, hwritten]⟩

/-- A text in which every element is closed leaves the open elements open. -/
theorem Outline.opened_absorb {f : Forest} (hf : f.unclosed = []) {o : Outline} {e : OpenElement}
    {es : List OpenElement} (ho : o.opened = e :: es) (n : Nat) :
    ∃ vs, (o.absorb n f).opened = { e with children := vs } :: es := by
  induction f generalizing o e n with
  | nil => exact ⟨e.children, ho⟩
  | plain s rest ih
  | leaf s v rest ih
  | closed opening name attributes children closing rest _ ih =>
    have hadd (v : Node) : (o.add v).opened = e.add v :: es := by simp only [Outline.add, ho]
    exact ih hf (hadd _) _
  | hanging => cases hf

theorem Outline.finish_absorb {f : Forest} (hf : f.unclosed = []) {o : Outline} {e : OpenElement}
    {es : List OpenElement} (ho : o.opened = e :: es) (n size : Nat) :
    (o.absorb n f).finish size = .error (.unclosedElement e.name e.start) := by
  obtain ⟨vs, hopened⟩ := opened_absorb hf ho n
  rw [finish, hopened]

theorem parse_unclosed {g inner : Forest} {opening name : Text} {as : List Attribute}
    (hg : g.Sound) (hopening : IsLexeme opening (.openTag name 0 as)) (hinner : inner.Complete) :
    parse (g.written ++ (opening ++ inner.written)) =
      .error (.unclosedElement name (byteSize g.written)) := by
  have hfront := Outline.run_forest hg {} 0 (hopening.settled inner.written)
  have hrest (o : Outline) (n : Nat) := Outline.run_forest hinner.sound o n (.inl rfl : Settled [])
  simp only [List.append_nil, Outline.run_nil] at hrest
  rw [parse_eq_run, hfront, Outline.run_token (by simp [hopening.ne_nil]) (hopening.reads _ _)]
  simp only [Token.shift, Outline.step, Except.bind, hrest]
  rw [Outline.finish_absorb hinner.unclosed rfl]
  simp only [Nat.zero_add, Nat.add_zero]

/-- A closing tag behind a text in which no element of its name is open. -/
theorem located_of_stray {f : Forest} {q : Stray} {qs : List Stray} {t : Text} {e : Error}
    (hf : f.Sound) (hname : q.name ∉ f.unclosed)
    (hclosing : IsLexeme q.closing (.closeTag q.name ⟨0, byteSize q.closing⟩))
    (h : parse (f.written ++ (strayText (q :: qs) ++ t)) = .error e) :
    Located (f.written ++ (strayText (q :: qs) ++ t)) e := by
  have hstray := Outline.run_stray hf hname hclosing (q.after.written ++ strayText qs ++ t)
  have hassoc : strayText (q :: qs) ++ t =
      q.closing ++ (q.after.written ++ strayText qs ++ t) := by
    simp [strayText]
  rw [hassoc] at h ⊢
  rw [parse_eq_run, hstray] at h
  obtain rfl := Except.error.inj h
  obtain ⟨b, hb, hwritten⟩ := hclosing.exists_closeTag
  have htag : q.closing ++ (q.after.written ++ strayText qs ++ t) =
      '<' :: '/' :: (q.name ++ (b ++ '>' :: (q.after.written ++ strayText qs ++ t))) := by
    simp [hwritten]
  exact ⟨f.written, _, rfl, rfl, f, b, _, hf, rfl, hname, htag, hb⟩

/-- An element that is open where the text ends. -/
theorem located_of_unclosed {f : Forest} {e : Error} (hf : f.Sound)
    (h : parse f.written = .error e) : Located f.written e := by
  by_cases hclosed : f.unclosed = []
  · cases h.symm.trans (parse_written ⟨hf, hclosed⟩)
  · obtain ⟨g, opening, name, as, inner, hg, -, hopening, hinner, hwritten⟩ :=
      hf.exists_innermost hclosed
    rw [hwritten, parse_unclosed hg hopening hinner] at h
    obtain rfl := Except.error.inj h
    obtain ⟨body, as₀, rfl, htag, hvoid, hraw⟩ := hopening.exists_openTag
    refine ⟨g.written, _, hwritten, rfl, ?_, body, as₀, inner.written, by simp, htag, hvoid, ?_⟩
    · exact .document hg (startsConstruct_append_of_starts hopening.starts _)
    · rw [if_neg (by simp [hraw])]
      exact ⟨_, parse_written hinner⟩

/-- A text that is no document stops being one at a stray closing tag, at its end or at a place where
no token can be read. -/
theorem located_of_parse {s : Text} {e : Error} (h : parse s = .error e) : Located s e := by
  obtain ⟨f, qs, t, hf, hs, hend⟩ := exists_layered_upTo ⟨0, s⟩
  obtain rfl : s = f.written ++ (strayText qs ++ t) := hs
  cases hf with
  | stray hf hname hclosing => exact located_of_stray hf hname hclosing h
  | last hf =>
    rw [strayText, List.nil_append] at h ⊢
    rcases hend with ⟨-, rfl⟩ | ⟨hstart, e', -, hread⟩
    · rw [List.append_nil] at h ⊢
      exact located_of_unclosed hf h
    · rw [strayText, List.append_nil, Nat.zero_add] at hread
      have hrun := Outline.run_forest hf {} 0 (.inr hstart)
      have hne : t ≠ [] := by
        rintro rfl
        cases hstart
      rw [parse_eq_run, hrun, Nat.zero_add, Outline.run_failure hne hread] at h
      obtain rfl := Except.error.inj h
      exact located_of_readToken (.document hf hstart) hread

/-- Every error points at a boundary between characters of the text, and at its cause. -/
theorem pointsAt_of_parse {s : Text} {e : Error} (h : parse s = .error e) :
    e.offset ≤ byteSize s ∧ isBoundary s e.offset = true ∧
      ∃ front t, s = front ++ t ∧ byteSize front = e.offset ∧ PointsAt front t e := by
  obtain ⟨front, t, rfl, hsize, hpoints⟩ := located_of_parse h
  refine ⟨?_, isBoundary_iff.mpr ⟨front, t, rfl, hsize⟩, front, t, rfl, hsize, hpoints⟩
  rw [← hsize, byteSize_append]
  exact Nat.le_add_right _ _

/-- A quote that opens a value in which an expression is closed, but not the value. -/
theorem pointsAt_of_parse_quote :
    parse "<p é='a\x7bb\x7dc".toList = .error (.unterminated .attributeValue 6) ∧
      isBoundary "<p é='a\x7bb\x7dc".toList 6 = true ∧
        PointsAt "<p é=".toList "'a\x7bb\x7dc".toList (.unterminated .attributeValue 6) := by
  have hread : readToken ⟨0, "<p é='a\x7bb\x7dc".toList⟩ =
      .error (.unterminated .attributeValue 6) := by
    with_unfolding_all rfl
  have hparse : parse "<p é='a\x7bb\x7dc".toList = .error (.unterminated .attributeValue 6) :=
    parse_broken parse_nil rfl hread
  obtain ⟨-, hboundary, front, t, htext, hsize, hpoints⟩ := pointsAt_of_parse hparse
  have hcut := splitAt?_append front t
  rw [← htext, hsize] at hcut
  have hplace : splitAt? "<p é='a\x7bb\x7dc".toList 6 =
      some ("<p é=".toList, "'a\x7bb\x7dc".toList) := rfl
  obtain ⟨rfl, rfl⟩ := Prod.mk.inj (Option.some.inj (hplace.symm.trans hcut))
  exact ⟨hparse, hboundary, hpoints⟩

end MarkupHighlight.Markup
