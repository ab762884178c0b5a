import MarkupHighlight.Proofs.Script.Spelling

/-!
Line breaks behind backslashes, which let a literal go on in the next line and stand for nothing.
A body that stands for no text is made of them (`unescape_eq_nil_iff`). The decoder takes a carriage
return and a line feed as one break, but the scanner of quoted literals does not: it escapes the
carriage return alone and gives up at the line feed (`resume_quotedBody`).
-/
namespace MarkupHighlight.Script

/-- Line breaks behind backslashes and nothing else. -/
inductive Continuation : Text → Prop
  | nil : Continuation []
  | lineFeed {s : Text} (hs : Continuation s) : Continuation ('\\' :: '\n' :: s)
  | carriageReturn {s : Text} (hs : Continuation s) : Continuation ('\\' :: '\r' :: s)
  | wideLineBreak {s : Text} (hs : Continuation s) : Continuation ('\\' :: '\r' :: '\n' :: s)

/-- An escape stands for a character or is a line break. -/
theorem readEscape_cases (s : Text) :
    (readEscape s).1 ≠ [] ∨ s = '\n' :: (readEscape s).2 ∨ s = '\r' :: '\n' :: (readEscape s).2 ∨
      s = '\r' :: (readEscape s).2 := by
  fun_cases readEscape s <;> simp

theorem Continuation.of_unescape {s : Text} (h : unescape s = []) : Continuation s := by
  fun_induction unescape s with
  | case1 => exact .nil
  | case2 s ih =>
    obtain ⟨hfirst, hrest⟩ := List.append_eq_nil_iff.mp h
    rcases readEscape_cases s with hne | hs | hs | hs
    · exact absurd hfirst hne
    · rw [hs]
      exact .lineFeed (ih hrest)
    · rw [hs]
      exact .wideLineBreak (ih hrest)
    · rw [hs]
      exact .carriageReturn (ih hrest)
  | case3 => cases h

theorem Continuation.unescape {s : Text} (h : Continuation s) : unescape s = [] := by
  induction h with
  | nil => rw [Script.unescape]
  | lineFeed _ ih => exact (unescape_escaped _).trans ih
  | wideLineBreak _ ih => exact (unescape_escaped _).trans ih
  | @carriageReturn s hs ih =>
    -- what follows starts with a backslash, so the carriage return stands alone
    have hread : readEscape ('\r' :: s) = ([], s) := by cases hs <;> rfl
    rw [unescape_escaped, hread]
    exact ih

theorem unescape_eq_nil_iff {s : Text} : unescape s = [] ↔ Continuation s :=
  ⟨Continuation.of_unescape, Continuation.unescape⟩

/-! Quoted literals. -/

/-- A part of the body of a quoted literal: a character, an escape, or a line break of two
characters behind a backslash. -/
inductive QuotedItem
  | raw (c : Char)
  | escape (c : Char)
  | wideLineBreak
  deriving DecidableEq, Repr

def QuotedItem.written : QuotedItem → Text
  | raw c => [c]
  | escape c => ['\\', c]
  | wideLineBreak => ['\\', '\r', '\n']

/-- The part may stand between two of the given quotes. -/
def QuotedItem.Fits (quote : Char) : QuotedItem → Prop
  | raw c => c ≠ quote ∧ c ≠ '\\' ∧ c ≠ '\n'
  | escape _ | wideLineBreak => True

def quotedBody (items : List QuotedItem) : Text := items.flatMap QuotedItem.written

/-- A quoted literal with the given parts. -/
def quotedLiteral (quote : Char) (items : List QuotedItem) : Text :=
  quote :: (quotedBody items ++ [quote])

section
variable {q : Char} {items : List QuotedItem} (hfit : ∀ i ∈ items, i.Fits q)
include hfit

theorem resume_quotedBody (hq : isQuote q = true) (outer : List Mode) (t : Text) :
    resume (.quoted q :: outer) (quotedBody items ++ q :: t) =
      if .wideLineBreak ∈ items then none else resume outer t := by
  induction items with
  | nil => exact (Closes.quote q).resume_opened (.quote 0 hq) outer t
  | cons i items ih =>
    have hrest := ih fun j hj => hfit j (List.mem_cons_of_mem _ hj)
    have hi := hfit i (List.mem_cons_self ..)
    have hcons : quotedBody (i :: items) ++ q :: t =
        i.written ++ (quotedBody items ++ q :: t) := by
      rw [quotedBody, List.flatMap_cons, List.append_assoc, quotedBody]
    rw [hcons]
    cases i with
    | raw c =>
      obtain ⟨hquote, hslash, hbreak⟩ := hi
      have hpasses : Mode.passes (.quoted q) c (quotedBody items ++ q :: t) = true := by
        simp [Mode.passes, hquote, hslash, hbreak]
      rw [QuotedItem.written, List.singleton_append, resume_passes hpasses, hrest]
      simp
    | escape c =>
      have hskip := resume_escape (m := .quoted q) rfl outer c (quotedBody items ++ q :: t)
      rw [QuotedItem.written, List.cons_append, List.cons_append, List.nil_append, hskip, hrest]
      simp
    | wideLineBreak =>
      have hskip := resume_escape (m := .quoted q) rfl outer '\r'
        ('\n' :: (quotedBody items ++ q :: t))
      rw [QuotedItem.written, List.cons_append, List.cons_append, List.cons_append, List.nil_append,
        hskip]
      simp [resume]

/-- The scanner takes a quoted literal whole, unless a line break of two characters is in it. -/
theorem afterQuoted_quotedBody (hq : isQuote q = true) (t : Text) :
    afterQuoted q (quotedBody items ++ q :: t) =
      if .wideLineBreak ∈ items then none else some t := by
  have hread := resume_quotedBody hfit hq [] t
  rwa [resume] at hread

theorem afterBrace_quotedLiteral (hq : isQuote q = true) (t : Text) :
    afterBrace (quotedLiteral q items ++ '}' :: t) =
      if .wideLineBreak ∈ items then none else some t := by
  have hopen := (Opens.quote 0 hq).resume [] (quotedBody items ++ q :: '}' :: t)
  have hread := resume_quotedBody hfit hq [.code 0] ('}' :: t)
  have hliteral : quotedLiteral q items ++ '}' :: t =
      [q] ++ (quotedBody items ++ q :: '}' :: t) := by
    simp [quotedLiteral]
  rw [afterBrace, hliteral, hopen, hread, resume_brace, resume]

theorem classify_quotedLiteral (hq : isQuote q = true) (hnarrow : .wideLineBreak ∉ items) :
    Expression.classify (quotedLiteral q items) = .literal (unescape (quotedBody items)) := by
  have hread := afterQuoted_quotedBody hfit hq []
  rw [if_neg hnarrow] at hread
  rw [quotedLiteral, Expression.classify, List.dropLast_concat]
  simp [hq, hread]

end

end MarkupHighlight.Script
