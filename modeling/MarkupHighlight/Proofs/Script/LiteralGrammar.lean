import MarkupHighlight.Proofs.Script.CodeUnits
import MarkupHighlight.Proofs.Script.Spelling
import Mathlib.Algebra.Group.Nat.Defs

/-!
The bodies of string and template literals, as the grammar of scripts has them: rows of parts, each
of which adds the units of its code point to the value of the literal. Text has at most one reading
as a literal, and the literal ends at one place (`WellFormed.unique`).
-/
namespace MarkupHighlight.Script

/-! Bodies of literals. -/

/-- What ends a line of a script. -/
def lineTerminators : List Char := ['\n', '\r', '\u2028', '\u2029']

/-- The line and the paragraph separator. -/
def separators : List Text := [['\u2028'], ['\u2029']]

/-- One end of a line. -/
def lineBreaks : List Text := [['\n'], ['\r'], ['\r', '\n']] ++ separators

/-- What a backslash may stand before, with the number that its digits write. -/
inductive EscapeForm
  | letter (l c : Char)
  | itself (c : Char)
  | twoDigits (digits : Text) (n : Nat)
  | fourDigits (digits : Text) (n : Nat)
  | codePoint (digits : Text) (n : Nat)
  | lineBreak (ends : Text)
  deriving DecidableEq, Repr

namespace EscapeForm

def written : EscapeForm → Text
  | letter l _ => [l]
  | itself c => [c]
  | twoDigits ds _ => 'x' :: ds
  | fourDigits ds _ => 'u' :: ds
  | codePoint ds _ => 'u' :: '{' :: (ds ++ ['}'])
  | lineBreak ends => ends

/-- The code point that the escape stands for. A line break stands for none. -/
def points : EscapeForm → List Nat
  | letter _ c | itself c => [c.toNat]
  | twoDigits _ n | fourDigits _ n | codePoint _ n => [n]
  | lineBreak _ => []

/-- The form is an escape before the text `t`. -/
def Fits (t : Text) : EscapeForm → Prop
  | letter l c => (l, c) ∈ shortEscapes ∧ (l = '0' → ∀ d ∈ t.head?, isDecimalDigit d = false)
  | itself c => c ∉ shortEscapes.map (·.1) ∧ (c ≠ 'x' ∧ c ≠ 'u') ∧ isDecimalDigit c = false ∧
      c ∉ lineTerminators
  | twoDigits ds n => ds.length = 2 ∧ WritesHex ds n
  | fourDigits ds n => ds.length = 4 ∧ WritesHex ds n
  | codePoint ds n => WritesHex ds n ∧ n < codePoints
  | lineBreak ends => ends ∈ lineBreaks ∧ (ends = ['\r'] → t.head? ≠ some '\n')

end EscapeForm

/-- A part of the body of a literal. In a template a carriage return, alone or with a line feed
behind it, is one line feed. -/
inductive BodyPart
  | plain (c : Char)
  | escape (e : EscapeForm)
  | carriageReturn (feed : Bool)
  deriving DecidableEq, Repr

namespace BodyPart

def written : BodyPart → Text
  | plain c => [c]
  | escape e => '\\' :: e.written
  | carriageReturn feed => '\r' :: if feed then ['\n'] else []

def points : BodyPart → List Nat
  | plain c => [c.toNat]
  | escape e => e.points
  | carriageReturn _ => ['\n'.toNat]

/-- The part may stand in the literal before the text `t`. -/
def Fits (d : Delimiter) (t : Text) : BodyPart → Prop
  | plain c => IsRaw d c t ∧ c ≠ '\r'
  | escape e => e.Fits t
  | carriageReturn feed => d = .backtick ∧ (feed = false → t.head? ≠ some '\n')

end BodyPart

/-- The body with the given parts. -/
def written (ps : List BodyPart) : Text := ps.flatMap BodyPart.written

def points (ps : List BodyPart) : List Nat := ps.flatMap BodyPart.points

/-- The value of a literal, in units. -/
def value (ps : List BodyPart) : List Nat := unitsOf (points ps)

/-- The parts make up the body of a literal. -/
def WellFormed (d : Delimiter) : List BodyPart → Prop
  | [] => True
  | p :: ps => p.Fits d (written ps) ∧ WellFormed d ps

@[simp] theorem written_nil : written [] = [] := rfl

theorem written_cons (p : BodyPart) (ps : List BodyPart) :
    written (p :: ps) = p.written ++ written ps := List.flatMap_cons

theorem points_cons (p : BodyPart) (ps : List BodyPart) :
    points (p :: ps) = p.points ++ points ps := List.flatMap_cons

/-! Values. -/

theorem WritesHex.lt_pow {ds : Text} {n : Nat} (h : WritesHex ds n) : n < 16 ^ ds.length := by
  have hdigit : ∀ p ∈ hexDigits, p.2 < 16 := by simp [hexDigits]
  induction h with
  | digit hc =>
    rw [List.length_singleton, Nat.pow_one]
    exact hdigit _ hc
  | snoc _ hc ih =>
    have := hdigit _ hc
    rw [List.length_append, List.length_singleton, Nat.pow_succ]
    omega

theorem BodyPart.Fits.points_lt {d : Delimiter} {p : BodyPart} {t : Text} (h : p.Fits d t) :
    ∀ n ∈ p.points, n < codePoints := by
  intro n hn
  have hdigits {ds : Text} {k : Nat} (hlen : ds.length ≤ 4) (hds : WritesHex ds k) :
      k < codePoints :=
    calc k < 16 ^ ds.length := hds.lt_pow
      _ ≤ 16 ^ 4 := Nat.pow_le_pow_right (by decide) hlen
      _ ≤ codePoints := by decide
  cases p with
  | plain c =>
    obtain rfl := List.mem_singleton.mp hn
    exact toNat_lt_codePoints c
  | carriageReturn feed =>
    obtain rfl := List.mem_singleton.mp hn
    decide
  | escape e =>
    cases e with
    | lineBreak ends => exact absurd hn List.not_mem_nil
    | letter l c | itself c =>
      obtain rfl := List.mem_singleton.mp hn
      exact toNat_lt_codePoints c
    | twoDigits ds k =>
      obtain rfl := List.mem_singleton.mp hn
      exact hdigits (by rw [h.1]; decide) h.2
    | fourDigits ds k =>
      obtain rfl := List.mem_singleton.mp hn
      exact hdigits (by rw [h.1]) h.2
    | codePoint ds k =>
      obtain rfl := List.mem_singleton.mp hn
      exact h.2

theorem WellFormed.points_lt {d : Delimiter} {ps : List BodyPart} (h : WellFormed d ps) :
    ∀ n ∈ points ps, n < codePoints := by
  induction ps with
  | nil => exact fun n hn => absurd hn List.not_mem_nil
  | cons p ps ih =>
    intro n hn
    rw [points_cons] at hn
    rcases List.mem_append.mp hn with hn | hn
    · exact h.1.points_lt n hn
    · exact ih h.2 n hn

/-- The value of a body as a text has the surrogate pairs joined that meet in it. -/
theorem WellFormed.textOfUnits_value {d : Delimiter} {ps : List BodyPart} (h : WellFormed d ps) :
    textOfUnits (value ps) = (joinPairs (points ps)).map charOfPoint :=
  textOfUnits_unitsOf h.points_lt

/-! Readings. -/

theorem WritesHex.unique {ds : Text} {m n : Nat} (hm : WritesHex ds m) (hn : WritesHex ds n) :
    m = n := Option.some.inj (hm.hexNumber?.symm.trans hn.hexNumber?)

/-- Digits in braces end at the closing brace. -/
theorem WritesHex.append_unique {ds es : Text} {m n : Nat} (hm : WritesHex ds m)
    (hn : WritesHex es n) {t u : Text} (h : ds ++ '}' :: t = es ++ '}' :: u) :
    ds = es ∧ t = u := by
  have htake := congrArg (List.takeWhile (· != '}')) h
  rw [takeWhile_run hm.before_brace (by decide), takeWhile_run hn.before_brace (by decide)] at htake
  subst htake
  exact ⟨rfl, (List.cons.inj (List.append_cancel_left h)).2⟩

/-- An escape is a line break exactly if it starts with what ends a line. -/
theorem EscapeForm.Fits.lineBreak_iff {e : EscapeForm} {t : Text} (h : e.Fits t) :
    (∃ c ∈ (e.written ++ t).head?, c ∈ lineTerminators) ↔ ∃ ends, e = .lineBreak ends := by
  cases e with
  | lineBreak ends =>
    have hends : ∀ b ∈ lineBreaks, ∃ c ∈ b.head?, c ∈ lineTerminators := by
      simp [lineBreaks, separators, lineTerminators]
    obtain ⟨c, hc, hmem⟩ := hends ends h.1
    have hhead : c ∈ (ends ++ t).head? := by simp_all
    exact ⟨fun _ => ⟨ends, rfl⟩, fun _ => ⟨c, hhead, hmem⟩⟩
  | letter l c =>
    have hletters : ∀ p ∈ shortEscapes, p.1 ∉ lineTerminators := by decide
    simpa [written] using hletters _ h.1
  | itself c => simpa [written] using h.2.2.2
  | _ => simp [written, lineTerminators]

theorem lineBreaks_unique {b b' t u : Text} (hb : b ∈ lineBreaks) (hb' : b' ∈ lineBreaks)
    (ht : b = ['\r'] → t.head? ≠ some '\n') (hu : b' = ['\r'] → u.head? ≠ some '\n')
    (h : b ++ t = b' ++ u) : b = b' ∧ t = u := by
  simp only [lineBreaks, separators, List.cons_append, List.nil_append, List.mem_cons,
    List.not_mem_nil, or_false] at hb hb'
  rcases hb with rfl | rfl | rfl | rfl | rfl <;> rcases hb' with rfl | rfl | rfl | rfl | rfl <;>
    grind

theorem EscapeForm.Fits.unique {e f : EscapeForm} {t u : Text} (he : e.Fits t) (hf : f.Fits u)
    (h : e.written ++ t = f.written ++ u) : e = f ∧ t = u := by
  have hbreak : (∃ ends, e = .lineBreak ends) ↔ ∃ ends, f = .lineBreak ends := by
    rw [← he.lineBreak_iff, ← hf.lineBreak_iff, h]
  cases e with
  | lineBreak ends =>
    obtain ⟨ends', rfl⟩ := hbreak.mp ⟨ends, rfl⟩
    obtain ⟨rfl, rfl⟩ := lineBreaks_unique he.1 hf.1 he.2 hf.2 h
    exact ⟨rfl, rfl⟩
  | letter l c =>
    have hfunction : ∀ p ∈ shortEscapes, ∀ q ∈ shortEscapes, p.1 = q.1 → p.2 = q.2 := by decide
    cases f with
    | letter l' c' =>
      obtain ⟨rfl, rfl⟩ := List.cons.inj h
      exact ⟨congrArg (letter l) (hfunction _ he.1 _ hf.1 rfl), rfl⟩
    | lineBreak => simp at hbreak
    | _ => simp_all [written, Fits, shortEscapes]
  | itself c =>
    cases f with
    | lineBreak => simp at hbreak
    | _ => simp_all [written, Fits, shortEscapes]
  | twoDigits ds n =>
    cases f with
    | twoDigits ds' n' =>
      obtain ⟨rfl, rfl⟩ := List.append_inj (List.cons.inj h).2 (he.1.trans hf.1.symm)
      exact ⟨by rw [he.2.unique hf.2], rfl⟩
    | lineBreak => simp at hbreak
    | letter | itself =>
      obtain ⟨rfl, -⟩ := List.cons.inj h
      simp [Fits, shortEscapes] at hf
    | _ => simp [written] at h
  | fourDigits ds n =>
    cases f with
    | fourDigits ds' n' =>
      obtain ⟨rfl, rfl⟩ := List.append_inj (List.cons.inj h).2 (he.1.trans hf.1.symm)
      exact ⟨by rw [he.2.unique hf.2], rfl⟩
    | codePoint ds' n' => exact absurd (List.cons.inj h).2 (he.2.ne_brace _ _)
    | lineBreak => simp at hbreak
    | letter | itself =>
      obtain ⟨rfl, -⟩ := List.cons.inj h
      simp [Fits, shortEscapes] at hf
    | _ => simp [written] at h
  | codePoint ds n =>
    cases f with
    | codePoint ds' n' =>
      have hdigits : ds ++ '}' :: t = ds' ++ '}' :: u := by simpa [written] using h
      obtain ⟨rfl, rfl⟩ := he.1.append_unique hf.1 hdigits
      exact ⟨by rw [he.1.unique hf.1], rfl⟩
    | fourDigits ds' n' => exact absurd (List.cons.inj h).2.symm (hf.2.ne_brace _ _)
    | lineBreak => simp at hbreak
    | letter | itself =>
      obtain ⟨rfl, -⟩ := List.cons.inj h
      simp [Fits, shortEscapes] at hf
    | _ => simp [written] at h

/-- What starts a part says what kind of part it is, and does not end the literal. -/
theorem BodyPart.Fits.unique {d : Delimiter} {p q : BodyPart} {t u : Text} (hp : p.Fits d t)
    (hq : q.Fits d u) (h : p.written ++ t = q.written ++ u) : p = q ∧ t = u := by
  cases p with
  | plain c =>
    cases q with
    | plain c' =>
      obtain ⟨rfl, rfl⟩ := List.cons.inj h
      exact ⟨rfl, rfl⟩
    | escape e => exact absurd (List.cons.inj h).1 hp.1.1
    | carriageReturn feed => exact absurd (List.cons.inj h).1 hp.2
  | escape e =>
    cases q with
    | plain c => exact absurd (List.cons.inj h).1.symm hq.1.1
    | escape f =>
      obtain ⟨rfl, rfl⟩ := EscapeForm.Fits.unique hp hq (List.cons.inj h).2
      exact ⟨rfl, rfl⟩
    | carriageReturn feed => exact absurd (List.cons.inj h).1 (by decide)
  | carriageReturn feed =>
    cases q with
    | plain c => exact absurd (List.cons.inj h).1.symm hq.2
    | escape e => exact absurd (List.cons.inj h).1 (by decide)
    | carriageReturn feed' =>
      obtain ⟨-, hp⟩ := hp
      obtain ⟨-, hq⟩ := hq
      cases feed <;> cases feed' <;> grind [written]

/-- The end of the literal behind a text means nothing to the parts in the text. -/
theorem BodyPart.Fits.append {d : Delimiter} {p : BodyPart} {t : Text} (h : p.Fits d t)
    (u : Text) : p.Fits d (t ++ d.char :: u) := by
  cases t with
  | nil =>
    have hdelimiter : d.char ≠ '{' ∧ d.char ≠ '\n' ∧ isDecimalDigit d.char = false := by
      cases d <;> decide
    cases p with
    | plain c =>
      obtain ⟨⟨hslash, hend, hbreak, -⟩, hreturn⟩ := h
      refine ⟨⟨hslash, hend, hbreak, fun _ _ hbrace => hdelimiter.1 ?_⟩, hreturn⟩
      exact Option.some.inj hbrace
    | carriageReturn feed => simp_all [Fits]
    | escape e => cases e <;> simp_all [Fits, EscapeForm.Fits]
  | cons c t =>
    cases p with
    | escape e => cases e <;> exact h
    | _ => exact h

theorem BodyPart.Fits.exists_head {d : Delimiter} {p : BodyPart} {t : Text} (h : p.Fits d t) :
    ∃ c s, p.written = c :: s ∧ c ≠ d.char := by
  have hslash : '\\' ≠ d.char := by cases d <;> decide
  have hreturn : '\r' ≠ d.char := by cases d <;> decide
  cases p with
  | plain c => exact ⟨c, [], rfl, h.1.2.1⟩
  | escape e => exact ⟨_, _, rfl, hslash⟩
  | carriageReturn feed => exact ⟨_, _, rfl, hreturn⟩

/-- A literal has one reading: it ends at one place only, and has the same parts up to there. -/
theorem WellFormed.unique {d : Delimiter} {ps qs : List BodyPart} (hps : WellFormed d ps)
    (hqs : WellFormed d qs) {t u : Text}
    (h : written ps ++ d.char :: t = written qs ++ d.char :: u) : ps = qs ∧ t = u := by
  induction ps generalizing qs with
  | nil =>
    cases qs with
    | nil => exact ⟨rfl, (List.cons.inj h).2⟩
    | cons q qs =>
      obtain ⟨c, s, hq, hc⟩ := hqs.1.exists_head
      rw [written_cons, hq] at h
      exact absurd (List.cons.inj h).1.symm hc
  | cons p ps ih =>
    cases qs with
    | nil =>
      obtain ⟨c, s, hp, hc⟩ := hps.1.exists_head
      rw [written_cons, hp] at h
      exact absurd (List.cons.inj h).1 hc
    | cons q qs =>
      rw [written_cons, written_cons, List.append_assoc, List.append_assoc] at h
      obtain ⟨rfl, hrest⟩ := (hps.1.append t).unique (hqs.1.append u) h
      obtain ⟨rfl, rfl⟩ := ih hps.2 hqs.2 hrest
      exact ⟨rfl, rfl⟩

end MarkupHighlight.Script
