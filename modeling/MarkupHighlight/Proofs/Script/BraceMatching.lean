import MarkupHighlight.Proofs.Script.LineBreaks
import MarkupHighlight.Proofs.Script.Locality

/-!
Which brace closes an expression. The scanner finds the brace behind every text of the grammar of
expressions, `Derives`. It accepts more texts than those, as it takes any closing bracket for any
opening one. What it has read when it stops is described by `Leads`: whole strings, templates and
comments, and brackets whose count is back at zero (`afterBrace_exact`).
-/
namespace MarkupHighlight.Script

/-! Expressions. -/

/-- What a text can be derived as. -/
inductive Part
  | expression
  | template

def brackets : List (Char × Char) := [('(', ')'), ('[', ']'), ('{', '}')]

/-- Expressions, and the bodies of templates. -/
inductive Derives : Part → Text → Prop
  | nil (p : Part) : Derives p []
  | plain {c : Char} {s : Text}
      (hc : c ∉ ['\x27', '\x22', '\x60', '(', ')', '[', ']', '{', '}', '/'])
      (hs : Derives .expression s) : Derives .expression (c :: s)
  | slash {s : Text} (hnext : s.head? ≠ some '/' ∧ s.head? ≠ some '*')
      (hs : Derives .expression s) : Derives .expression ('/' :: s)
  | quoted {q : Char} {items : List QuotedItem} {s : Text} (hq : isQuote q = true)
      (hfit : ∀ i ∈ items, i.Fits q) (hnarrow : .wideLineBreak ∉ items)
      (hs : Derives .expression s) : Derives .expression (quotedLiteral q items ++ s)
  | template {body s : Text} (hbody : Derives .template body) (hs : Derives .expression s) :
      Derives .expression ('\x60' :: (body ++ '\x60' :: s))
  | lineComment {body s : Text} (hbody : '\n' ∉ body) (hs : Derives .expression s) :
      Derives .expression ('/' :: '/' :: (body ++ '\n' :: s))
  | blockComment {body s : Text} (hbody : ¬ ['*', '/'] <:+: body) (hs : Derives .expression s) :
      Derives .expression ('/' :: '*' :: (body ++ '*' :: '/' :: s))
  | group {c e : Char} {inner s : Text} (hpair : (c, e) ∈ brackets)
      (hinner : Derives .expression inner) (hs : Derives .expression s) :
      Derives .expression (c :: (inner ++ e :: s))
  | char {c : Char} {s : Text} (hc : c ≠ '\x60' ∧ c ≠ '\\' ∧ (c = '$' → s.head? ≠ some '{'))
      (hs : Derives .template s) : Derives .template (c :: s)
  | escape (c : Char) {s : Text} (hs : Derives .template s) : Derives .template ('\\' :: c :: s)
  | substitution {inner s : Text} (hinner : Derives .expression inner) (hs : Derives .template s) :
      Derives .template ('$' :: '{' :: (inner ++ '}' :: s))

/-- The construct that a part stands in. -/
def Part.mode (d : Nat) : Part → Mode
  | expression => .code d
  | template => .template

theorem balanced_quotedBody {q : Char} {items : List QuotedItem} (hfit : ∀ i ∈ items, i.Fits q)
    (hnarrow : .wideLineBreak ∉ items) : Balanced (.quoted q) (quotedBody items) := by
  induction items with
  | nil => exact .nil _
  | cons i items ih =>
    have hrest := ih (fun j hj => hfit j (List.mem_cons_of_mem _ hj))
      fun hmem => hnarrow (List.mem_cons_of_mem _ hmem)
    have hi := hfit i (List.mem_cons_self ..)
    rw [quotedBody, List.flatMap_cons]
    cases i with
    | raw c =>
      obtain ⟨hquote, hslash, hbreak⟩ := hi
      exact .pass (by simp [Mode.passes, hquote, hslash, hbreak]) hrest
    | escape c => exact .escape c rfl hrest
    | wideLineBreak => exact absurd (List.mem_cons_self ..) hnarrow

theorem balanced_lineComment {body : Text} (h : '\n' ∉ body) : Balanced .lineComment body := by
  induction body with
  | nil => exact .nil _
  | cons c body ih =>
    obtain ⟨hc, hbody⟩ := not_or.mp (mt List.mem_cons.mpr h)
    exact .pass (bne_iff_ne.mpr (Ne.symm hc)) (ih hbody)

theorem balanced_blockComment {body : Text} (h : ¬ ['*', '/'] <:+: body) :
    Balanced .blockComment body := by
  induction body with
  | nil => exact .nil _
  | cons c body ih =>
    have hend : c = '*' → body.head? ≠ some '/' := by
      rintro rfl hnext
      obtain ⟨rest, rfl⟩ := List.head?_eq_some_iff.mp hnext
      exact h ⟨[], rest, rfl⟩
    refine .pass ?_ (ih fun hbody => h (hbody.trans (List.suffix_cons c body).isInfix))
    simpa [Mode.passes] using Decidable.not_or_of_imp hend

theorem Derives.balanced {p : Part} {s : Text} (h : Derives p s) (d : Nat) :
    Balanced (p.mode d) s := by
  induction h generalizing d with
  | nil => exact .nil _
  | plain hc _ ih =>
    refine .pass ?_ (ih d)
    simp_all [Part.mode, Mode.passes, isQuote, isOpening, isClosing]
  | slash hnext _ ih =>
    refine .pass ?_ (ih d)
    simp_all [Part.mode, Mode.passes, isQuote, isOpening, isClosing]
  | @quoted q items s hq hfit hnarrow _ ih =>
    have hliteral := Balanced.nested (.quote d hq) (balanced_quotedBody hfit hnarrow) (.quote q)
      (ih d)
    simpa [Part.mode, quotedLiteral] using hliteral
  | template _ _ ih_body ih => exact .nested (.backtick d) (ih_body d) .backtick (ih d)
  | lineComment hbody _ ih =>
    exact .nested (.lineComment d) (balanced_lineComment hbody) .lineEnd (ih d)
  | blockComment hbody _ ih =>
    exact .nested (.blockComment d) (balanced_blockComment hbody) .commentEnd (ih d)
  | group hpair _ _ ih_inner ih =>
    have hbracket : ∀ p ∈ brackets, isOpening p.1 = true ∧ isClosing p.2 = true := by decide
    obtain ⟨hopening, hclosing⟩ := hbracket _ hpair
    exact .group hopening hclosing (ih_inner (d + 1)) (ih d)
  | char hc _ ih =>
    refine .pass ?_ (ih d)
    obtain ⟨htick, hslash, hdollar⟩ := hc
    simpa [Part.mode, Mode.passes, htick, hslash] using Decidable.not_or_of_imp hdollar
  | escape c _ ih => exact .escape c rfl (ih d)
  | substitution _ _ ih_inner ih => exact .nested .substitution (ih_inner 0) .brace (ih d)

/-! Any text up to the brace. -/

/-- The text leads from one depth of brackets to another and leaves open the construct around it:
its strings, templates and comments are whole, and the brackets outside of them are counted, any
closing bracket for any opening one. A strict text has no `}` outside of them at depth zero. The
substitutions of templates are strict, since a `}` like that is their end. -/
inductive Leads : Bool → Mode → Text → Mode → Prop
  | nil (strict : Bool) (m : Mode) : Leads strict m [] m
  | pass {strict : Bool} {m m' : Mode} {c : Char} {s : Text} (hc : m.passes c s = true)
      (hs : Leads strict m s m') : Leads strict m (c :: s) m'
  | escape {strict : Bool} {m m' : Mode} (c : Char) {s : Text} (hm : m.escapes = true)
      (hs : Leads strict m s m') : Leads strict m ('\\' :: c :: s) m'
  | opening {strict : Bool} {d : Nat} {m' : Mode} {c : Char} {s : Text} (hc : isOpening c = true)
      (hs : Leads strict (.code (d + 1)) s m') : Leads strict (.code d) (c :: s) m'
  | closing {strict : Bool} {d : Nat} {m' : Mode} {c : Char} {s : Text} (hc : isClosing c = true)
      (hd : strict = true → c = '}' → d ≠ 0) (hs : Leads strict (.code (d - 1)) s m') :
      Leads strict (.code d) (c :: s) m'
  | nested {strict : Bool} {m m' n : Mode} {opening inner closing s : Text}
      (hopening : Opens m opening n) (hinner : Leads true n inner n) (hclosing : Closes n closing)
      (hs : Leads strict m s m') : Leads strict m (opening ++ (inner ++ (closing ++ s))) m'

theorem resume_closing {d : Nat} {c : Char} (hc : isClosing c = true) (hd : c = '}' → d ≠ 0)
    (outer : List Mode) (t : Text) :
    resume (.code d :: outer) (c :: t) = resume (.code (d - 1) :: outer) t := by
  simp only [isClosing, Bool.or_eq_true, beq_iff_eq] at hc
  rcases hc with (rfl | rfl) | rfl <;> simp_all [resume, isQuote, isOpening, isClosing]

theorem Mode.passes_of_append {m : Mode} {c : Char} {s t : Text}
    (h : m.passes c (s ++ t) = true) : m.passes c s = true := by
  cases s with
  | nil => cases m <;> simp_all [passes]
  | cons e s => cases m <;> simpa [passes] using h

section
variable {strict : Bool} {m m' : Mode} {w : Text} (h : Leads strict m w m')
include h

theorem Leads.loose : Leads false m w m' := by
  induction h with
  | nil _ m => exact .nil false m
  | pass hc _ ih => exact .pass hc ih
  | escape c hm _ ih => exact .escape c hm ih
  | opening hc _ ih => exact .opening hc ih
  | closing hc _ _ ih => exact .closing hc (by simp) ih
  | nested hopening hinner hclosing _ _ ih => exact .nested hopening hinner hclosing ih

/-- A text is strict, or it is so up to a `}` at depth zero. -/
theorem Leads.strict_or_exists :
    Leads true m w m' ∨ ∃ a s, w = a ++ '}' :: s ∧ Leads true m a (.code 0) := by
  induction h with
  | nil _ m => exact .inl (.nil true m)
  | @pass _ _ _ c _ hc _ ih =>
    obtain hs | ⟨a, s, rfl, ha⟩ := ih
    · exact .inl (.pass hc hs)
    · exact .inr ⟨c :: a, s, rfl, .pass (Mode.passes_of_append hc) ha⟩
  | escape c hm _ ih =>
    obtain hs | ⟨a, s, rfl, ha⟩ := ih
    · exact .inl (.escape c hm hs)
    · exact .inr ⟨'\\' :: c :: a, s, rfl, .escape c hm ha⟩
  | @opening _ _ _ c _ hc _ ih =>
    obtain hs | ⟨a, s, rfl, ha⟩ := ih
    · exact .inl (.opening hc hs)
    · exact .inr ⟨c :: a, s, rfl, .opening hc ha⟩
  | @closing _ d _ c rest hc _ _ ih =>
    by_cases hend : c = '}' ∧ d = 0
    · obtain ⟨rfl, rfl⟩ := hend
      exact .inr ⟨[], rest, rfl, .nil true _⟩
    · have hd : true = true → c = '}' → d ≠ 0 := fun _ hbrace hzero => hend ⟨hbrace, hzero⟩
      obtain hs | ⟨a, s, rfl, ha⟩ := ih
      · exact .inl (.closing hc hd hs)
      · exact .inr ⟨c :: a, s, rfl, .closing hc hd ha⟩
  | @nested _ _ _ _ opening inner closing _ hopening hinner hclosing _ _ ih =>
    obtain hs | ⟨a, s, rfl, ha⟩ := ih
    · exact .inl (.nested hopening hinner hclosing hs)
    · refine .inr ⟨opening ++ (inner ++ (closing ++ a)), s, ?_, ?_⟩
      · simp only [List.append_assoc]
      · exact .nested hopening hinner hclosing ha

theorem Leads.passes_eq (c : Char) (s : Text) : m'.passes c s = m.passes c s := by
  induction h with
  | nil => rfl
  | pass _ _ ih | escape _ _ _ ih | opening _ _ ih | closing _ _ _ ih => exact ih
  | nested _ _ _ _ _ ih => exact ih

/-- The scanner takes a strict text as it is meant, if the end of the construct is behind it. -/
theorem Leads.resume (hstrict : strict = true) {closing : Text} (hclosing : Closes m' closing)
    (outer : List Mode) (t : Text) :
    resume (m :: outer) (w ++ (closing ++ t)) = resume (m' :: outer) (closing ++ t) := by
  induction h generalizing closing outer t with
  | nil => rfl
  | pass hc hs ih =>
    -- what the character means does not depend on the depth, but on the end of the construct
    rw [← hs.passes_eq] at hc
    have hpasses := Mode.passes_append hc hclosing t
    rw [hs.passes_eq] at hpasses
    rw [List.cons_append, resume_passes hpasses, ih hstrict hclosing]
  | escape c hm _ ih =>
    rw [List.cons_append, List.cons_append, resume_escape hm, ih hstrict hclosing]
  | opening hc _ ih => rw [List.cons_append, resume_opening hc, ih hstrict hclosing]
  | closing hc hd _ ih =>
    rw [List.cons_append, resume_closing hc (hd hstrict), ih hstrict hclosing]
  | nested hopening _ hclose _ ih_inner ih =>
    simp only [List.append_assoc]
    rw [hopening.resume, ih_inner rfl hclose, hclose.resume_opened hopening, ih hstrict hclosing]

end

theorem afterBrace_of_strict {w : Text} (h : Leads true (.code 0) w (.code 0)) (t : Text) :
    afterBrace (w ++ '}' :: t) = some t := by
  have hread := h.resume rfl .brace [] t
  rw [List.singleton_append, resume_brace, Script.resume] at hread
  exact hread

/-- A `}` at depth zero is not passed over. -/
theorem exists_afterBrace {w : Text} (h : Leads false (.code 0) w (.code 0)) (t : Text) :
    ∃ r, afterBrace (w ++ '}' :: t) = some r ∧ t.length ≤ r.length := by
  obtain hw | ⟨a, s, rfl, ha⟩ := h.strict_or_exists
  · exact ⟨t, afterBrace_of_strict hw t, Nat.le_refl _⟩
  · have hread := afterBrace_of_strict ha (s ++ '}' :: t)
    rw [List.append_assoc, List.cons_append]
    refine ⟨_, hread, ?_⟩
    simp only [List.length_append, List.length_cons]
    omega

/-! What the scanner accepts. -/

/-- A construct with no bracket open in it. -/
def Mode.ground : Mode → Mode
  | .code _ => .code 0
  | m => m

theorem Opens.ground_eq {m n : Mode} {opening : Text} (h : Opens m opening n) : n.ground = n := by
  cases h <;> rfl

/-- The text closes the open constructs one by one, innermost first, and `r` is left. -/
inductive Unwinds : List Mode → Text → Text → Prop
  | done (r : Text) : Unwinds [] r r
  | close {m : Mode} {outer : List Mode} {w closing s r : Text} (hw : Leads true m w m.ground)
      (hclosing : Closes m.ground closing) (hs : Unwinds outer s r) :
      Unwinds (m :: outer) (w ++ (closing ++ s)) r

namespace Unwinds

variable {m : Mode} {outer : List Mode} {s r : Text}

theorem pass {c : Char} (h : Unwinds (m :: outer) s r) (hc : m.passes c s = true) :
    Unwinds (m :: outer) (c :: s) r := by
  cases h with
  | close hw hclosing hs => exact .close (.pass (Mode.passes_of_append hc) hw) hclosing hs

theorem escape (c : Char) (h : Unwinds (m :: outer) s r) (hm : m.escapes = true) :
    Unwinds (m :: outer) ('\\' :: c :: s) r := by
  cases h with
  | close hw hclosing hs => exact .close (.escape c hm hw) hclosing hs

theorem opening {d : Nat} {c : Char} (h : Unwinds (.code (d + 1) :: outer) s r)
    (hc : isOpening c = true) : Unwinds (.code d :: outer) (c :: s) r := by
  cases h with
  | close hw hclosing hs => exact .close (.opening hc hw) hclosing hs

theorem closing {d : Nat} {c : Char} (h : Unwinds (.code (d - 1) :: outer) s r)
    (hc : isClosing c = true) (hd : c = '}' → d ≠ 0) : Unwinds (.code d :: outer) (c :: s) r := by
  cases h with
  | close hw hclosing hs => exact .close (.closing hc (fun _ => hd) hw) hclosing hs

theorem nested {n : Mode} {opening : Text} (h : Unwinds (n :: m :: outer) s r)
    (hopening : Opens m opening n) : Unwinds (m :: outer) (opening ++ s) r := by
  cases h with
  | close hinner hend hs =>
    rw [hopening.ground_eq] at hinner hend
    cases hs with
    | close hw hclosing hs =>
      have hread := Unwinds.close (.nested hopening hinner hend hw) hclosing hs
      simpa only [List.append_assoc] using hread

theorem closed {closing : Text} (h : Unwinds outer s r) (hm : m.ground = m)
    (hclosing : Closes m closing) : Unwinds (m :: outer) (closing ++ s) r := by
  rw [← hm] at hclosing
  have hnil : Leads true m [] m.ground := hm.symm ▸ .nil true m
  exact .close hnil hclosing h

end Unwinds

theorem followed_eq_false {c x y : Char} {s : Text} (h : ∀ t, c = x → s = y :: t → False) :
    (c == x && s.head? == some y) = false := by
  rw [Bool.and_eq_false_imp, beq_iff_eq, beq_eq_false_iff_ne]
  intro hc hs
  obtain ⟨t, rfl⟩ := List.head?_eq_some_iff.mp hs
  exact h t hc rfl

/-- Whatever the scanner accepts closes what was open. -/
theorem unwinds_of_resume {stack : List Mode} {s r : Text} (h : resume stack s = some r) :
    Unwinds stack s r := by
  fun_induction resume stack s
  all_goals try (simp at h; done)
  case case1 s =>
    obtain rfl := Option.some.inj h
    exact .done s
  all_goals
    rename_i ih
    have hrest := ih h
  case case3 => exact hrest.nested (.blockComment _)
  case case4 => exact hrest.nested (.lineComment _)
  case case5 hq => exact hrest.nested (.quote _ hq)
  case case6 => exact hrest.nested (.backtick _)
  case case7 hc => exact hrest.opening hc
  case case8 hend =>
    obtain ⟨rfl, rfl⟩ := hend
    exact hrest.closed rfl .brace
  case case9 hne hc => exact hrest.closing hc fun hbrace hd => hne ⟨hbrace, hd⟩
  case case12 => exact hrest.escape _ rfl
  case case14 => exact hrest.closed rfl (.quote _)
  case case17 => exact hrest.escape _ rfl
  case case18 => exact hrest.nested .substitution
  case case19 => exact hrest.closed rfl .backtick
  case case21 => exact hrest.closed rfl .lineEnd
  case case23 => exact hrest.closed rfl .commentEnd
  -- the character means nothing but itself
  case case10 hstar hslash hquote htick hopening _ hc =>
    refine hrest.pass ?_
    rw [Mode.passes, Bool.and_or_distrib_left, followed_eq_false hstar, followed_eq_false hslash]
    simp [hquote, htick, hopening, hc]
  case case15 hend hescape hbreak hq =>
    exact hrest.pass (by simp [Mode.passes, hq, ne_backslash hend hescape, hbreak])
  case case20 hend hescape hdollar htick =>
    refine hrest.pass ?_
    rw [Mode.passes, followed_eq_false hdollar]
    simp [htick, ne_backslash hend hescape]
  case case22 hbreak => exact hrest.pass (bne_iff_ne.mpr hbreak)
  case case24 hend => exact hrest.pass (by rw [Mode.passes, followed_eq_false hend, Bool.not_false])

theorem exists_strict_of_afterBrace {t r : Text} (h : afterBrace t = some r) :
    ∃ w, t = w ++ '}' :: r ∧ Leads true (.code 0) w (.code 0) := by
  cases unwinds_of_resume h with
  | @close _ _ w _ _ _ hw hclosing hs =>
    cases hclosing
    cases hs
    exact ⟨w, rfl, hw⟩

/-- Braces around an expression are read to the closing one, whatever follows. In any text, the
brace that is found is the first `}` that stands at depth zero and outside of strings, templates and
comments, and if there is one then it is found. -/
theorem afterBrace_exact :
    (∀ e s, Derives .expression e → afterBrace (e ++ '}' :: s) = some s) ∧
    ∀ t r, afterBrace t = some r ↔
      ∃ w, t = w ++ '}' :: r ∧ Leads false (.code 0) w (.code 0) ∧
        ∀ a b, w = a ++ '}' :: b → ¬ Leads false (.code 0) a (.code 0) := by
  refine ⟨fun e s he => afterBrace_balanced (he.balanced 0) s, fun t r => ⟨fun h => ?_, ?_⟩⟩
  · obtain ⟨w, rfl, hw⟩ := exists_strict_of_afterBrace h
    refine ⟨w, rfl, hw.loose, ?_⟩
    rintro a b rfl ha
    rw [List.append_assoc, List.cons_append] at h
    obtain ⟨r', hr', hlength⟩ := exists_afterBrace ha (b ++ '}' :: r)
    obtain rfl := Option.some.inj (h.symm.trans hr')
    simp only [List.length_append, List.length_cons] at hlength
    omega
  · rintro ⟨w, rfl, hw, hfirst⟩
    obtain hw | ⟨a, b, rfl, ha⟩ := hw.strict_or_exists
    · exact afterBrace_of_strict hw r
    · exact absurd ha.loose (hfirst a b rfl)

/-- A template in brackets with a string in its substitution, a quotient and a comment; each of
these but the quotient has a brace in it. -/
theorem afterBrace_exact_nested :
    Derives .expression "[\x60$\x7b'\x7d'\x7d\x60]/2//\x7d\n".toList ∧
    afterBrace "[\x60$\x7b'\x7d'\x7d\x60]/2//\x7d\n\x7d</p>".toList = some "</p>".toList := by
  have hfit : ∀ i ∈ [QuotedItem.raw '}'], i.Fits '\x27' := by simp [QuotedItem.Fits]
  have hquoted := Derives.quoted rfl hfit (by decide) (.nil _)
  have htemplate := Derives.template (.substitution hquoted (.nil _)) (.nil _)
  have hcomment : Derives .expression ('/' :: '/' :: (['}'] ++ '\n' :: [])) :=
    .lineComment (by decide) (.nil _)
  have hquotient : Derives .expression ('/' :: '2' :: _) :=
    .slash (by simp) (.plain (by decide) hcomment)
  have hexpression := Derives.group (by decide : ('[', ']') ∈ brackets) htemplate hquotient
  exact ⟨hexpression, afterBrace_exact.1 _ _ hexpression⟩

end MarkupHighlight.Script
