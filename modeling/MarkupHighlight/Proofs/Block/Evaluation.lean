import MarkupHighlight.Proofs.Block.Wrapped
import MarkupHighlight.Proofs.Script.LiteralGrammar

/-!
What the template in a replacement evaluates to. Whatever the highlighted text is, the template has
one reading, which ends at the backtick of the wrapper. Its value is the text with its line ends as
a template reads them: a carriage return is kept as it is when the text is escaped, but a template
takes it for a line feed, alone or with the line feed behind it (`value_wrap`).
-/
namespace MarkupHighlight
open Script

/-- The text with a line feed for each carriage return, with or without a line feed behind it. -/
def withLineFeeds : Text → Text
  | [] => []
  | '\r' :: '\n' :: s => '\n' :: withLineFeeds s
  | c :: s => (if c = '\r' then '\n' else c) :: withLineFeeds s

theorem withLineFeeds_eq_self {s : Text} (h : '\r' ∉ s) : withLineFeeds s = s := by
  fun_induction withLineFeeds s with
  | case1 => rfl
  | case2 s ih => simp at h
  | case3 c s hfeed ih =>
    obtain ⟨hc, hs⟩ := not_or.mp (mt List.mem_cons.mpr h)
    rw [if_neg (Ne.symm hc), ih hs]

theorem carriageReturn_notMem_withLineFeeds (s : Text) : '\r' ∉ withLineFeeds s := by
  fun_induction withLineFeeds s with
  | case1 => exact List.not_mem_nil
  | case2 s ih =>
    rw [List.mem_cons, not_or]
    exact ⟨by decide, ih⟩
  | case3 c s hfeed ih =>
    rw [List.mem_cons, not_or]
    refine ⟨?_, ih⟩
    split
    next => decide
    next hc => exact Ne.symm hc

/-- The character is escaped before `s`. -/
def IsEscaped (c : Char) (s : Text) : Prop :=
  c = '\\' ∨ c = '\x60' ∨ (c = '$' ∧ s.head? = some '{')

instance (c : Char) (s : Text) : Decidable (IsEscaped c s) := inferInstanceAs (Decidable (_ ∨ _))

/-- How the escaped text reads as the body of a template. -/
def templateParts : Text → List BodyPart
  | [] => []
  | '\r' :: '\n' :: s => .carriageReturn true :: templateParts s
  | c :: s =>
      (if c = '\r' then .carriageReturn false
        else if IsEscaped c s then .escape (.itself c)
        else .plain c) :: templateParts s

theorem escapeTemplate_cons (c : Char) (s : Text) :
    escapeTemplate (c :: s) = (if IsEscaped c s then ['\\', c] else [c]) ++ escapeTemplate s := by
  rw [escapeTemplate.eq_def]
  split
  next heq => cases heq
  next s' heq =>
    obtain ⟨rfl, rfl⟩ := List.cons.inj heq
    rw [if_pos (.inr (.inr ⟨rfl, rfl⟩))]
    rfl
  next c' s' hbrace heq =>
    obtain ⟨rfl, rfl⟩ := List.cons.inj heq
    have hnot : ¬ (c = '$' ∧ s.head? = some '{') := by
      rintro ⟨rfl, hs⟩
      obtain ⟨t, rfl⟩ := List.head?_eq_some_iff.mp hs
      exact hbrace t rfl rfl
    have hiff : IsEscaped c s ↔ c = '\\' ∨ c = '\x60' := by
      rw [IsEscaped, or_iff_left hnot]
    simp only [hiff]
    split <;> rfl

theorem written_templateParts (s : Text) : written (templateParts s) = escapeTemplate s := by
  fun_induction templateParts s with
  | case1 => rw [written_nil, escapeTemplate]
  | case2 s ih =>
    rw [written_cons, ih, escapeTemplate_cons, escapeTemplate_cons]
    rfl
  | case3 c s hfeed ih =>
    rw [written_cons, ih, escapeTemplate_cons]
    congr 1
    split
    next hc =>
      subst hc
      rfl
    next =>
      split
      next => rfl
      next => rfl

theorem points_templateParts (s : Text) :
    points (templateParts s) = pointsOf (withLineFeeds s) := by
  fun_induction templateParts s with
  | case1 => rfl
  | case2 s ih =>
    rw [points_cons, ih, withLineFeeds]
    rfl
  | case3 c s hfeed ih =>
    rw [points_cons, ih, withLineFeeds.eq_3 c s hfeed]
    split
    next => rfl
    next =>
      split
      next => rfl
      next => rfl

theorem wellFormed_templateParts (s : Text) : WellFormed .backtick (templateParts s) := by
  fun_induction templateParts s with
  | case1 => trivial
  | case2 s ih => exact ⟨⟨rfl, fun h => absurd h (by decide)⟩, ih⟩
  | case3 c s hfeed ih =>
    refine ⟨?_, ih⟩
    rw [written_templateParts]
    split
    next hc =>
      refine ⟨rfl, fun _ hnext => ?_⟩
      obtain ⟨t, rfl⟩ := head_escapeTemplate (by decide) hnext
      exact hfeed t hc rfl
    next hreturn =>
      split
      next hescaped =>
        rcases hescaped with rfl | rfl | ⟨rfl, -⟩ <;>
          exact ⟨by decide, by decide, by decide, by decide⟩
      next hplain =>
        obtain ⟨hslash, hrest⟩ := not_or.mp hplain
        obtain ⟨htick, hdollar⟩ := not_or.mp hrest
        refine ⟨⟨hslash, htick, fun h => absurd rfl h, fun _ hc hnext => ?_⟩, hreturn⟩
        obtain ⟨t, rfl⟩ := head_escapeTemplate (by decide) hnext
        exact hdollar ⟨hc, rfl⟩

/-- What stands before the template of a replacement, and behind it. -/
def wrapLead : Text := "<pre><code class=\"hljs\">\x7b@html ".toList

def wrapTail : Text := "\x7d</code></pre>".toList

theorem wrap_eq_template (html : Text) :
    wrap html = wrapLead ++ '\x60' :: (written (templateParts html) ++ '\x60' :: wrapTail) := by
  have hlead : "<pre><code class=\"hljs\">\x7b@html \x60".toList = wrapLead ++ ['\x60'] := rfl
  have htail : "\x60\x7d</code></pre>".toList = '\x60' :: wrapTail := rfl
  unfold wrap
  rw [hlead, htail, written_templateParts]
  simp only [List.append_assoc, List.cons_append, List.nil_append]

/-- The template in a replacement has one reading and one end, the backtick of the wrapper. Its
value is the text with line feeds for carriage returns, which is the text itself exactly if no
carriage return is in it. -/
theorem value_wrap (html : Text) :
    ∃ ps, (∀ qs t, WellFormed .backtick qs ∧
          wrap html = wrapLead ++ '\x60' :: (written qs ++ '\x60' :: t) ↔ qs = ps ∧ t = wrapTail) ∧
      value ps = unitsOf (pointsOf (withLineFeeds html)) ∧
      (value ps = unitsOf (pointsOf html) ↔ '\r' ∉ html) := by
  have hform := wellFormed_templateParts html
  have hvalue : value (templateParts html) = unitsOf (pointsOf (withLineFeeds html)) := by
    rw [value, points_templateParts]
  refine ⟨templateParts html, fun qs t => ⟨?_, ?_⟩, hvalue, ?_, ?_⟩
  · rintro ⟨hqs, heq⟩
    rw [wrap_eq_template] at heq
    have hbody := (List.cons.inj (List.append_cancel_left heq)).2
    obtain ⟨rfl, rfl⟩ := hform.unique hqs hbody
    exact ⟨rfl, rfl⟩
  · rintro ⟨rfl, rfl⟩
    exact ⟨hform, wrap_eq_template html⟩
  · intro heq hmem
    have htext := congrArg textOfUnits (hvalue.symm.trans heq)
    rw [textOfUnits_pointsOf, textOfUnits_pointsOf] at htext
    exact carriageReturn_notMem_withLineFeeds html (htext.symm ▸ hmem)
  · intro h
    rw [hvalue, withLineFeeds_eq_self h]

/-- A carriage return evaluates to a line feed. -/
theorem value_wrap_carriageReturn :
    ∃ ps, WellFormed .backtick ps ∧
      wrap ['\r'] = wrapLead ++ '\x60' :: (written ps ++ '\x60' :: wrapTail) ∧
      textOfUnits (value ps) = ['\n'] := by
  obtain ⟨ps, hread, hvalue, -⟩ := value_wrap ['\r']
  obtain ⟨hform, heq⟩ := (hread ps wrapTail).mpr ⟨rfl, rfl⟩
  refine ⟨ps, hform, heq, ?_⟩
  rw [hvalue, textOfUnits_pointsOf]
  rfl

end MarkupHighlight
