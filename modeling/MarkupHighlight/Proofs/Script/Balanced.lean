import MarkupHighlight.Script.Scan

/-!
Script text that closes all that it opens. `Balanced.resume` says that the scanner reads such a
text without a change of what is open, and `afterBrace_balanced` that a pair of braces around it is
read to its end.
-/
namespace MarkupHighlight.Script

attribute [local simp] resume isQuote

/-- The text that closes the innermost open construct, or one of the brackets open in it. -/
inductive Closes : Mode → Text → Prop
  | brace : Closes (.code 0) ['}']
  | bracket {d : Nat} {c : Char} (hc : isClosing c = true) : Closes (.code (d + 1)) [c]
  | quote (q : Char) : Closes (.quoted q) [q]
  | backtick : Closes .template ['\x60']
  | lineEnd : Closes .lineComment ['\n']
  | commentEnd : Closes .blockComment ['*', '/']

/-- The text that opens a construct inside another one. -/
inductive Opens : Mode → Text → Mode → Prop
  | quote (d : Nat) {q : Char} (hq : isQuote q = true) : Opens (.code d) [q] (.quoted q)
  | backtick (d : Nat) : Opens (.code d) ['\x60'] .template
  | lineComment (d : Nat) : Opens (.code d) ['/', '/'] .lineComment
  | blockComment (d : Nat) : Opens (.code d) ['/', '*'] .blockComment
  | substitution : Opens .template ['$', '{'] (.code 0)

/-- A character before `s` means nothing but itself in a construct. -/
def Mode.passes : Mode → Char → Text → Bool
  | .code _, c, s => !isQuote c && c != '\x60' && !isOpening c && !isClosing c &&
      !(c == '/' && (s.head? == some '/' || s.head? == some '*'))
  | .quoted q, c, _ => c != q && c != '\\' && c != '\n'
  | .template, c, s => c != '\x60' && c != '\\' && !(c == '$' && s.head? == some '{')
  | .lineComment, c, _ => c != '\n'
  | .blockComment, c, s => !(c == '*' && s.head? == some '/')

/-- A backslash takes away the meaning of the character behind it. -/
def Mode.escapes : Mode → Bool
  | .quoted _ | .template => true
  | _ => false

/-- Text inside a construct that leaves it open, and closes all that it opens itself. -/
inductive Balanced : Mode → Text → Prop
  | nil (m : Mode) : Balanced m []
  | pass {m : Mode} {c : Char} {s : Text} (hc : m.passes c s = true) (hs : Balanced m s) :
      Balanced m (c :: s)
  | escape {m : Mode} (c : Char) {s : Text} (hm : m.escapes = true) (hs : Balanced m s) :
      Balanced m ('\\' :: c :: s)
  | group {d : Nat} {c e : Char} {inner s : Text} (hc : isOpening c = true)
      (he : isClosing e = true) (hinner : Balanced (.code (d + 1)) inner)
      (hs : Balanced (.code d) s) : Balanced (.code d) (c :: (inner ++ e :: s))
  | nested {m m' : Mode} {opening inner closing s : Text} (hopening : Opens m opening m')
      (hinner : Balanced m' inner) (hclosing : Closes m' closing) (hs : Balanced m s) :
      Balanced m (opening ++ (inner ++ (closing ++ s)))

theorem Closes.resume_code {d : Nat} {closing : Text} (h : Closes (.code (d + 1)) closing)
    (outer : List Mode) (t : Text) :
    resume (.code (d + 1) :: outer) (closing ++ t) = resume (.code d :: outer) t := by
  cases h with
  | bracket hc =>
    simp only [isClosing, Bool.or_eq_true, beq_iff_eq] at hc
    rcases hc with (rfl | rfl) | rfl <;> simp [isOpening, isClosing]

/-- A construct that another one opened is taken off the stack. -/
theorem Closes.resume_opened {m m' : Mode} {opening closing : Text} (h : Closes m' closing)
    (hopening : Opens m opening m') (outer : List Mode) (t : Text) :
    resume (m' :: outer) (closing ++ t) = resume outer t := by
  cases h with
  | brace => simp [isOpening]
  | bracket => cases hopening
  | quote q =>
    cases hopening with
    | quote d hq =>
      simp only [isQuote, Bool.or_eq_true, beq_iff_eq] at hq
      rcases hq with rfl | rfl <;> simp
  | backtick => simp
  | lineEnd => simp
  | commentEnd => simp

theorem Opens.resume {m m' : Mode} {opening : Text} (h : Opens m opening m') (outer : List Mode)
    (t : Text) : resume (m :: outer) (opening ++ t) = resume (m' :: m :: outer) t := by
  cases h with
  | quote d hq =>
    simp only [isQuote, Bool.or_eq_true, beq_iff_eq] at hq
    rcases hq with rfl | rfl <;> simp
  | backtick => simp
  | lineComment => simp
  | blockComment => simp
  | substitution => simp

theorem resume_opening {c : Char} (hc : isOpening c = true) (d : Nat) (outer : List Mode)
    (t : Text) : resume (.code d :: outer) (c :: t) = resume (.code (d + 1) :: outer) t := by
  simp only [isOpening, Bool.or_eq_true, beq_iff_eq] at hc
  rcases hc with (rfl | rfl) | rfl <;> simp [isOpening]

theorem resume_passes {m : Mode} {c : Char} {s : Text} (h : m.passes c s = true)
    (outer : List Mode) : resume (m :: outer) (c :: s) = resume (m :: outer) s := by
  cases m with
  | code d =>
    simp only [Mode.passes, Bool.and_eq_true, Bool.not_eq_true', bne_iff_ne] at h
    obtain ⟨⟨⟨⟨hquote, htick⟩, hopen⟩, hclose⟩, hslash⟩ := h
    have hbrace : c ≠ '}' := by
      rintro rfl
      simp [isClosing] at hclose
    rw [resume.eq_def]
    split <;> simp_all
  | quoted q =>
    simp only [Mode.passes, Bool.and_eq_true, bne_iff_ne] at h
    rw [resume.eq_def]
    split <;> simp_all
  | template =>
    simp only [Mode.passes, Bool.and_eq_true, bne_iff_ne] at h
    rw [resume.eq_def]
    split <;> simp_all
  | lineComment => simp_all [Mode.passes, resume]
  | blockComment =>
    rw [resume.eq_def]
    split <;> simp_all [Mode.passes]

theorem resume_escape {m : Mode} (h : m.escapes = true) (outer : List Mode) (c : Char) (s : Text) :
    resume (m :: outer) ('\\' :: c :: s) = resume (m :: outer) s := by
  cases m with
  | quoted q => simp only [resume]
  | template => simp only [resume]
  | _ => cases h

/-- What closes a construct gives no meaning to the character before it. -/
theorem Mode.passes_append {m : Mode} {c : Char} {s closing : Text} (h : m.passes c s = true)
    (hclosing : Closes m closing) (t : Text) : m.passes c (s ++ (closing ++ t)) = true := by
  cases s with
  | cons e s => cases m <;> simpa [passes] using h
  | nil =>
    cases hclosing with
    | bracket hc =>
      simp only [isClosing, Bool.or_eq_true, beq_iff_eq] at hc
      rcases hc with (rfl | rfl) | rfl <;> simpa [passes] using h
    | commentEnd => simp [passes]
    | _ => simpa [passes] using h

/-- Balanced text is read up to what closes the construct around it. -/
theorem Balanced.resume {m : Mode} {s : Text} (h : Balanced m s) {closing : Text}
    (hclosing : Closes m closing) (outer : List Mode) (t : Text) :
    resume (m :: outer) (s ++ (closing ++ t)) = resume (m :: outer) (closing ++ t) := by
  induction h generalizing closing outer t with
  | nil => rfl
  | pass hc _ ih =>
    rw [List.cons_append, resume_passes (Mode.passes_append hc hclosing t), ih hclosing]
  | escape c hm _ ih =>
    rw [List.cons_append, List.cons_append, resume_escape hm, ih hclosing]
  | @group d c e inner s hc he _ _ ih_inner ih =>
    have hclose : Closes (.code (d + 1)) [e] := .bracket he
    have hinner := ih_inner hclose outer (s ++ (closing ++ t))
    rw [hclose.resume_code] at hinner
    rw [List.cons_append, List.append_assoc, resume_opening hc]
    exact hinner.trans (ih hclosing outer t)
  | nested hopening _ hclose _ ih_inner ih =>
    simp only [List.append_assoc]
    rw [hopening.resume, ih_inner hclose, hclose.resume_opened hopening, ih hclosing]

theorem resume_brace (outer : List Mode) (t : Text) :
    resume (.code 0 :: outer) ('}' :: t) = resume outer t := by
  simp [isOpening]

/-- Braces around balanced code are read to the closing one, whatever follows. -/
theorem afterBrace_balanced {s : Text} (h : Balanced (.code 0) s) (t : Text) :
    afterBrace (s ++ '}' :: t) = some t := by
  have hread := h.resume .brace [] t
  rw [List.singleton_append, resume_brace, resume] at hread
  exact hread

end MarkupHighlight.Script
