import MarkupHighlight.Script.Expression
import MarkupHighlight.Proofs.Script.Balanced
import MarkupHighlight.Proofs.Text.Cutting

/-!
How a text may be spelled as a literal: each of its characters raw, behind a backslash or by its
number, with line breaks behind backslashes anywhere between them. Every spelling is read to its end
(`afterBrace_spelled`) and read back as the text (`classify_spelled`).
-/
namespace MarkupHighlight.Script

/-- What stands before and behind a literal. -/
inductive Delimiter
  | single
  | double
  | backtick
  deriving DecidableEq, Repr

namespace Delimiter

def char : Delimiter → Char
  | single => '\x27'
  | double => '\x22'
  | backtick => '\x60'

def mode : Delimiter → Mode
  | single => .quoted '\x27'
  | double => .quoted '\x22'
  | backtick => .template

/-- A literal with the given body. -/
def enclose (d : Delimiter) (body : Text) : Text := d.char :: (body ++ [d.char])

end Delimiter

/-! Spellings. -/

/-- The digits of base sixteen, letters in either case, and what they count. -/
def hexDigits : List (Char × Nat) :=
  "0123456789abcdef".toList.zipIdx ++ "0123456789ABCDEF".toList.zipIdx

/-- The number in digits of base sixteen, with zeros in front or without. -/
inductive WritesHex : Text → Nat → Prop
  | digit {c : Char} {n : Nat} (hc : (c, n) ∈ hexDigits) : WritesHex [c] n
  | snoc {ds : Text} {m : Nat} {c : Char} {n : Nat} (hds : WritesHex ds m)
      (hc : (c, n) ∈ hexDigits) : WritesHex (ds ++ [c]) (16 * m + n)

/-- Letters that stand for another character behind a backslash. -/
def shortEscapes : List (Char × Char) :=
  [('n', '\n'), ('t', '\t'), ('r', '\r'), ('b', '\x08'), ('f', '\x0c'), ('v', '\x0b'),
    ('0', '\x00')]

/-- What may stand behind a backslash for a character. -/
inductive Escape : Char → Text → Prop
  | short {l c : Char} (h : (l, c) ∈ shortEscapes) : Escape c [l]
  | twoDigits {c : Char} {ds : Text} (hlen : ds.length = 2) (h : WritesHex ds c.toNat) :
      Escape c ('x' :: ds)
  | fourDigits {c : Char} {ds : Text} (hlen : ds.length = 4) (h : WritesHex ds c.toNat) :
      Escape c ('u' :: ds)
  | codePoint {c : Char} {ds : Text} (h : WritesHex ds c.toNat) :
      Escape c ('u' :: '{' :: (ds ++ ['}']))
  | itself {c : Char} (hshort : c ∉ shortEscapes.map (·.1)) (hdigits : c ≠ 'x' ∧ c ≠ 'u')
      (hbreak : c ≠ '\n' ∧ c ≠ '\r') : Escape c [c]

/-- A character before `s` may stand for itself: it neither ends the literal nor starts an escape or
a substitution. -/
def IsRaw (d : Delimiter) (c : Char) (s : Text) : Prop :=
  c ≠ '\\' ∧ c ≠ d.char ∧ (d ≠ .backtick → c ≠ '\n') ∧
    (d = .backtick → c = '$' → s.head? ≠ some '{')

instance (d : Delimiter) (c : Char) (s : Text) : Decidable (IsRaw d c s) :=
  inferInstanceAs (Decidable (_ ∧ _ ∧ _ ∧ _))

/-- The body of a literal that spells a text. -/
inductive Spells (d : Delimiter) : Text → Text → Prop
  | nil : Spells d [] []
  | raw {c : Char} {s v : Text} (hc : IsRaw d c s) (hs : Spells d s v) :
      Spells d (c :: s) (c :: v)
  | escape {c : Char} {e s v : Text} (hc : Escape c e) (hs : Spells d s v) :
      Spells d ('\\' :: (e ++ s)) (c :: v)
  | lineBreak {s v : Text} (hs : Spells d s v) : Spells d ('\\' :: '\n' :: s) v
  | wideLineBreak (hd : d = .backtick) {s v : Text} (hs : Spells d s v) :
      Spells d ('\\' :: '\r' :: '\n' :: s) v

/-! Numbers. -/

theorem hexDigit?_of_mem : ∀ p ∈ hexDigits, hexDigit? p.1 = some p.2 := by decide

/-- A digit has no other meaning. -/
theorem digit_ne_of_mem :
    ∀ p ∈ hexDigits, p.1 ∉ ['+', '{', '}', '$', '\\', '\n', '\x27', '\x22', '\x60'] := by
  decide

theorem WritesHex.digits {ds : Text} {n : Nat} (h : WritesHex ds n) :
    ∀ c ∈ ds, ∃ m, (c, m) ∈ hexDigits := by
  induction h with
  | digit hc =>
    intro c hmem
    rw [List.mem_singleton.mp hmem]
    exact ⟨_, hc⟩
  | snoc _ hc ih =>
    intro c hmem
    rcases List.mem_append.mp hmem with hmem | hmem
    · exact ih c hmem
    · rw [List.mem_singleton.mp hmem]
      exact ⟨_, hc⟩

theorem WritesHex.ne_nil {ds : Text} {n : Nat} (h : WritesHex ds n) : ds ≠ [] := by
  cases h <;> simp

theorem WritesHex.hexNumber? {ds : Text} {n : Nat} (h : WritesHex ds n) :
    hexNumber? ds = some n := by
  have hfold : ds.foldlM (fun n c => (hexDigit? c).map (16 * n + ·)) 0 = some n := by
    induction h with
    | digit hc => simp [hexDigit?_of_mem _ hc]
    | snoc _ hc ih =>
      rw [List.foldlM_append, ih]
      simp [hexDigit?_of_mem _ hc]
  rw [MarkupHighlight.hexNumber?, if_neg (by simpa using h.ne_nil), hfold]

/-- Digits name the character of their number. -/
theorem WritesHex.namedChar_eq {ds : Text} {n : Nat} (h : WritesHex ds n) :
    namedChar ds = if n.isValidChar then Char.ofNat n else '\ufffd' := by
  have hsign : ∀ t, ds ≠ '+' :: t := by
    rintro t rfl
    obtain ⟨m, hm⟩ := h.digits '+' (List.mem_cons_self ..)
    exact digit_ne_of_mem _ hm (by simp)
  unfold Script.namedChar
  split
  next t => exact absurd rfl (hsign t)
  next => simp only [h.hexNumber?]

theorem WritesHex.namedChar {ds : Text} {c : Char} (h : WritesHex ds c.toNat) :
    namedChar ds = c := by
  have hvalid : c.toNat.isValidChar := c.valid
  rw [h.namedChar_eq, if_pos hvalid, Char.ofNat_toNat]

/-! Decoding. -/

theorem unescape_escaped (s : Text) :
    unescape ('\\' :: s) = (readEscape s).1 ++ unescape (readEscape s).2 := by
  rw [unescape, if_pos rfl]

theorem readEscape_twoDigits {ds : Text} (hlen : ds.length = 2) (s : Text) :
    readEscape ('x' :: (ds ++ s)) = ([namedChar ds], s) := by
  rw [Script.readEscape, ← hlen, List.take_left, List.drop_left]

section
variable {ds : Text} {n : Nat} (h : WritesHex ds n)
include h

theorem WritesHex.ne_brace (t u : Text) : ds ++ t ≠ '{' :: u := by
  obtain ⟨d, ds, rfl⟩ := List.exists_cons_of_ne_nil h.ne_nil
  obtain ⟨m, hm⟩ := h.digits d (List.mem_cons_self ..)
  have hne := digit_ne_of_mem _ hm
  simp_all

theorem WritesHex.before_brace : ∀ d ∈ ds, (d != '}') = true := by
  intro d hd
  obtain ⟨m, hm⟩ := h.digits d hd
  have hne := digit_ne_of_mem _ hm
  simp_all

theorem WritesHex.readEscape_fourDigits (hlen : ds.length = 4) (s : Text) :
    readEscape ('u' :: (ds ++ s)) = ([Script.namedChar ds], s) := by
  rw [Script.readEscape.eq_11 _ (h.ne_brace s), ← hlen, List.take_left, List.drop_left]

theorem WritesHex.readEscape_codePoint (s : Text) :
    readEscape ('u' :: '{' :: (ds ++ '}' :: s)) = ([Script.namedChar ds], s) := by
  have htake := takeWhile_run h.before_brace (d := '}') (by decide) s
  have hdrop := dropWhile_run h.before_brace (d := '}') (by decide) s
  simp only [Script.readEscape, htake, hdrop, List.drop_succ_cons, List.drop_zero]

end

theorem readEscape_itself {c : Char} (hshort : c ∉ shortEscapes.map (·.1))
    (hdigits : c ≠ 'x' ∧ c ≠ 'u') (hbreak : c ≠ '\n' ∧ c ≠ '\r') (s : Text) :
    readEscape (c :: s) = ([c], s) := by
  simp only [shortEscapes, List.map_cons, List.map_nil] at hshort
  rw [Script.readEscape.eq_def]
  split <;> simp_all

theorem readEscape_short {l c : Char} (h : (l, c) ∈ shortEscapes) (s : Text) :
    readEscape (l :: s) = ([c], s) := by
  simp only [shortEscapes, List.mem_cons, Prod.mk.injEq, List.not_mem_nil, or_false] at h
  rcases h with ⟨rfl, rfl⟩ | ⟨rfl, rfl⟩ | ⟨rfl, rfl⟩ | ⟨rfl, rfl⟩ | ⟨rfl, rfl⟩ | ⟨rfl, rfl⟩ |
    ⟨rfl, rfl⟩ <;> rfl

theorem Escape.readEscape {c : Char} {e : Text} (h : Escape c e) (s : Text) :
    readEscape (e ++ s) = ([c], s) := by
  cases h with
  | short h => exact readEscape_short h s
  | @twoDigits _ ds hlen h =>
    have hread := readEscape_twoDigits hlen s
    rwa [h.namedChar] at hread
  | @fourDigits _ ds hlen h =>
    have hread := h.readEscape_fourDigits hlen s
    rwa [h.namedChar] at hread
  | @codePoint _ ds h =>
    have hread := h.readEscape_codePoint s
    rw [h.namedChar] at hread
    simpa using hread
  | itself hshort hdigits hbreak => exact readEscape_itself hshort hdigits hbreak s

theorem Spells.unescape {d : Delimiter} {s v : Text} (h : Spells d s v) : unescape s = v := by
  induction h with
  | nil => rw [Script.unescape]
  | raw hc _ ih => rw [Script.unescape, if_neg hc.1, ih]
  | escape hc _ ih =>
    rw [unescape_escaped, hc.readEscape, ih]
    rfl
  | lineBreak _ ih =>
    rw [unescape_escaped]
    exact ih
  | wideLineBreak _ _ ih =>
    rw [unescape_escaped]
    exact ih

/-! Scanning. -/

/-- Text in which nothing is opened: characters that mean nothing but themselves, and escapes. -/
inductive Flat (m : Mode) : Text → Prop
  | nil : Flat m []
  | pass {c : Char} {s : Text} (hc : m.passes c s = true) (hs : Flat m s) : Flat m (c :: s)
  | escape (c : Char) {s : Text} (hs : Flat m s) : Flat m ('\\' :: c :: s)

theorem Flat.balanced {m : Mode} {s : Text} (h : Flat m s) (hm : m.escapes = true) :
    Balanced m s := by
  induction h with
  | nil => exact .nil m
  | pass hc _ ih => exact .pass hc ih
  | escape c _ ih => exact .escape c hm ih

theorem Flat.append {m : Mode} {w s : Text} (hw : ∀ c ∈ w, ∀ t, m.passes c t = true)
    (h : Flat m s) : Flat m (w ++ s) := by
  induction w with
  | nil => exact h
  | cons c w ih =>
    have hrest := ih fun d hd => hw d (List.mem_cons_of_mem _ hd)
    exact .pass (hw c (List.mem_cons_self ..) _) hrest

/-- A character of a template means the same if no `{` is put behind it. -/
theorem Mode.passes_template_append {c : Char} {s t : Text}
    (h : Mode.passes .template c s = true) (ht : t.head? ≠ some '{') :
    Mode.passes .template c (s ++ t) = true := by
  cases s with
  | nil => simp_all [passes]
  | cons => exact h

section
variable {s t : Text} (h : Flat .template s) (ht : t.head? ≠ some '{')
include h ht

theorem Flat.resume_template (outer : List Mode) :
    resume (.template :: outer) (s ++ t) = resume (.template :: outer) t := by
  induction h with
  | nil => rfl
  | pass hc _ ih =>
    rw [List.cons_append, resume_passes (Mode.passes_template_append hc ht), ih]
  | escape c _ ih => rw [List.cons_append, List.cons_append, resume_escape rfl, ih]

theorem Flat.splitFragments_append (held : Text) :
    splitFragments held (s ++ t) = splitFragments (s.reverse ++ held) t := by
  induction h generalizing held with
  | nil => rfl
  | @pass c s hc _ ih =>
    have hpasses := Mode.passes_template_append hc ht
    simp only [Mode.passes, Bool.and_eq_true, bne_iff_ne, Bool.not_eq_true', Bool.and_eq_false_iff,
      beq_eq_false_iff_ne] at hpasses
    obtain ⟨⟨-, hslash⟩, hdollar⟩ := hpasses
    have hopen : ∀ u, c = '$' → s ++ t = '{' :: u → False := by
      rintro u rfl hs
      simp [hs] at hdollar
    rw [List.cons_append,
      Script.splitFragments.eq_4 held c (s ++ t) (fun _ _ h => absurd h hslash) hopen, ih]
    simp
  | escape c _ ih =>
    rw [List.cons_append, List.cons_append, Script.splitFragments, ih]
    simp

end

/-- A flat body is one fragment. -/
theorem Flat.splitFragments {s : Text} (h : Flat .template s) (held : Text) :
    splitFragments held s = [held.reverse ++ s] := by
  have hsplit := h.splitFragments_append (t := []) (by simp) held
  rw [List.append_nil, Script.splitFragments] at hsplit
  simpa using hsplit

theorem Delimiter.passes_of_ne (d : Delimiter) {c : Char}
    (h : c ∉ ['$', '\\', '\n', '\x27', '\x22', '\x60']) (s : Text) : d.mode.passes c s = true := by
  cases d <;> simp_all [mode, Mode.passes]

theorem IsRaw.passes {d : Delimiter} {c : Char} {s : Text} (h : IsRaw d c s) :
    d.mode.passes c s = true := by
  obtain ⟨hslash, hend, hbreak, hdollar⟩ := h
  cases d with
  | single | double => simp_all [Delimiter.mode, Delimiter.char, Mode.passes]
  | backtick =>
    simp only [Delimiter.mode, Mode.passes, Bool.and_eq_true, bne_iff_ne, Bool.not_eq_true',
      Bool.and_eq_false_iff, beq_eq_false_iff_ne]
    refine ⟨⟨hend, hslash⟩, ?_⟩
    by_cases hc : c = '$'
    · exact .inr (hdollar rfl hc)
    · exact .inl hc

/-- Behind its first character an escape has nothing but digits and their braces. -/
theorem Escape.flat {d : Delimiter} {c : Char} {e s : Text} (h : Escape c e)
    (hs : Flat d.mode s) : Flat d.mode ('\\' :: (e ++ s)) := by
  have hdigits {ds : Text} (hds : WritesHex ds c.toNat) :
      ∀ c ∈ ds, ∀ t, d.mode.passes c t = true := by
    intro c hmem t
    obtain ⟨m, hm⟩ := hds.digits c hmem
    have hne := digit_ne_of_mem _ hm
    apply d.passes_of_ne
    simp_all
  cases h with
  | short => exact .escape _ hs
  | twoDigits _ hds => exact .escape 'x' (hs.append (hdigits hds))
  | fourDigits _ hds => exact .escape 'u' (hs.append (hdigits hds))
  | codePoint hds =>
    have hclose : Flat d.mode ('}' :: s) := .pass (d.passes_of_ne (by decide) s) hs
    have hopen := Flat.pass (d.passes_of_ne (by decide : '{' ∉ _) _) (hclose.append (hdigits hds))
    rw [List.cons_append, List.cons_append, List.append_assoc]
    exact .escape 'u' hopen
  | itself => exact .escape c hs

theorem Spells.flat {d : Delimiter} {s v : Text} (h : Spells d s v) : Flat d.mode s := by
  induction h with
  | nil => exact .nil
  | raw hc _ ih => exact .pass hc.passes ih
  | escape hc _ ih => exact hc.flat ih
  | lineBreak _ ih => exact .escape '\n' ih
  | wideLineBreak hd _ ih =>
    subst hd
    exact .escape '\r' (.pass rfl ih)

theorem Delimiter.escapes_mode (d : Delimiter) : d.mode.escapes = true := by
  cases d <;> rfl

theorem Delimiter.closes_mode (d : Delimiter) : Closes d.mode [d.char] := by
  cases d with
  | single => exact .quote _
  | double => exact .quote _
  | backtick => exact .backtick

theorem Delimiter.opens_mode (d : Delimiter) (depth : Nat) :
    Opens (.code depth) [d.char] d.mode := by
  cases d with
  | single => exact .quote depth rfl
  | double => exact .quote depth rfl
  | backtick => exact .backtick depth

section
variable {d : Delimiter} {s v : Text} (h : Spells d s v)
include h

theorem resume_spelled (outer : List Mode) (t : Text) :
    resume (d.mode :: outer) (s ++ d.char :: t) = resume outer t := by
  have hread := (h.flat.balanced d.escapes_mode).resume d.closes_mode outer t
  exact hread.trans (d.closes_mode.resume_opened (d.opens_mode 0) outer t)

theorem afterBrace_spelled (t : Text) : afterBrace (d.enclose s ++ '}' :: t) = some t := by
  have hliteral : Balanced (.code 0) (d.enclose s) :=
    .nested (d.opens_mode 0) (h.flat.balanced d.escapes_mode) d.closes_mode (.nil _)
  exact afterBrace_balanced hliteral t

/-- The form that a spelled literal has. -/
theorem classify_spelled :
    Expression.classify (d.enclose s) =
      if d = .backtick then .template [⟨s, v⟩] else .literal v := by
  have hread := resume_spelled h [] []
  rw [Script.resume] at hread
  have hvalue := h.unescape
  rw [Delimiter.enclose, Expression.classify, List.dropLast_concat, hvalue]
  cases d with
  | single =>
    have hafter : afterQuoted '\x27' (s ++ ['\x27']) = some [] := hread
    simp [Delimiter.char, hafter, isQuote]
  | double =>
    have hafter : afterQuoted '\x22' (s ++ ['\x22']) = some [] := hread
    simp [Delimiter.char, hafter, isQuote]
  | backtick =>
    have hafter : afterTemplate (s ++ ['\x60']) = some [] := hread
    simp [Delimiter.char, hafter, isQuote, h.flat.splitFragments, Fragment.ofRaw, hvalue]

end

end MarkupHighlight.Script
