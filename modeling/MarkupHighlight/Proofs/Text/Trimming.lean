import MarkupHighlight.Text.Basic
import Mathlib.Data.List.DropRight

/-!
Trimming the end of a text: the text is cut into what is kept, which has no blank at its end, and
blanks, and there is only one such cut. Of a line of blanks nothing is kept.
-/
namespace MarkupHighlight

section
variable {α : Type} {p : α → Bool}

/-- Everything with `p` is dropped at the end, up to something without `p`. -/
theorem rdropWhile_append {l w : List α} (hl : ∀ x ∈ l.getLast?, p x = false)
    (hw : ∀ x ∈ w, p x = true) : (l ++ w).rdropWhile p = l := by
  have hkept : l.reverse.dropWhile p = l.reverse := by
    cases hlast : l.reverse with
    | nil => rfl
    | cons x r =>
      have hx := hl x (by rw [← List.head?_reverse, hlast]; rfl)
      exact List.dropWhile_cons_of_neg (by simp [hx])
  rw [List.rdropWhile, List.reverse_append,
    List.dropWhile_append_of_pos (by simpa using hw), hkept, List.reverse_reverse]

theorem exists_rdropWhile (p : α → Bool) (l : List α) :
    ∃ w, l = l.rdropWhile p ++ w ∧ (∀ x ∈ w, p x = true) ∧
      ∀ x ∈ (l.rdropWhile p).getLast?, p x = false := by
  refine ⟨(l.reverse.takeWhile p).reverse, ?_, ?_, ?_⟩
  · rw [List.rdropWhile, ← List.reverse_append, List.takeWhile_append_dropWhile,
      List.reverse_reverse]
  · intro x hx
    exact List.all_eq_true.mp List.all_takeWhile x (List.mem_reverse.mp hx)
  · intro x hx
    have hnot := List.head?_dropWhile_not p l.reverse
    rw [List.rdropWhile, List.getLast?_reverse, Option.mem_def] at hx
    rw [hx] at hnot
    exact hnot

end

/-- No blank stands at the end. -/
def Trimmed (s : Text) : Prop := ∀ c ∈ s.getLast?, isBlank c = false

theorem trimmed_nil : Trimmed [] := nofun

theorem Trimmed.append {t : Text} (h : Trimmed t) (ht : t ≠ []) (s : Text) : Trimmed (s ++ t) := by
  rwa [Trimmed, List.getLast?_append_of_ne_nil _ ht]

theorem exists_trimEnd (s : Text) :
    ∃ w, s = trimEnd s ++ w ∧ (∀ c ∈ w, isBlank c = true) ∧ Trimmed (trimEnd s) :=
  exists_rdropWhile isBlank s

theorem trimmed_trimEnd (s : Text) : Trimmed (trimEnd s) := by
  obtain ⟨w, -, -, h⟩ := exists_trimEnd s
  exact h

/-- There is one way to take blanks off the end. -/
theorem trimEnd_append {s w : Text} (hs : Trimmed s) (hw : ∀ c ∈ w, isBlank c = true) :
    trimEnd (s ++ w) = s :=
  rdropWhile_append hs hw

theorem Trimmed.trimEnd {s : Text} (h : Trimmed s) : trimEnd s = s := by
  have := trimEnd_append h (w := []) nofun
  rwa [List.append_nil] at this

theorem trimEnd_append_blanks (s : Text) {w : Text} (hw : ∀ c ∈ w, isBlank c = true) :
    trimEnd (s ++ w) = trimEnd s := by
  obtain ⟨v, hs, hv, htrimmed⟩ := exists_trimEnd s
  rw [hs, List.append_assoc, trimEnd_append htrimmed, ← hs]
  intro c hc
  exact (List.mem_append.mp hc).elim (hv c) (hw c)

theorem trimEnd_append_of_ne_nil (s : Text) {t : Text} (ht : trimEnd t ≠ []) :
    trimEnd (s ++ t) = s ++ trimEnd t := by
  obtain ⟨w, h, hw, htrimmed⟩ := exists_trimEnd t
  rw [h, ← List.append_assoc, trimEnd_append (htrimmed.append ht s) hw, ← h]

theorem trimEnd_eq_nil_iff {s : Text} : trimEnd s = [] ↔ ∀ c ∈ s, isBlank c = true :=
  List.rdropWhile_eq_nil_iff

theorem trim_eq_nil_iff {s : Text} : trim s = [] ↔ ∀ c ∈ s, isBlank c = true := by
  rw [trim, trimEnd_eq_nil_iff]
  constructor
  · intro h c hc
    rw [← List.takeWhile_append_dropWhile (p := isBlank) (l := s)] at hc
    rcases List.mem_append.mp hc with hc | hc
    · exact List.all_eq_true.mp List.all_takeWhile c hc
    · exact h c hc
  · intro h c hc
    exact h c ((List.dropWhile_sublist _).subset hc)

/-! Lines of blanks. -/

/-- The line has blanks at most. -/
def isBlankLine (line : Text) : Bool := line.all isBlank

theorem isBlankLine_eq_true_iff {line : Text} :
    isBlankLine line = true ↔ ∀ c ∈ line, isBlank c = true := List.all_eq_true

theorem isBlankLine_trimEnd (line : Text) : isBlankLine (trimEnd line) = isBlankLine line := by
  obtain ⟨w, hline, hw, -⟩ := exists_trimEnd line
  have hall : w.all isBlank = true := List.all_eq_true.mpr hw
  calc isBlankLine (trimEnd line) = isBlankLine (trimEnd line ++ w) := by
        simp [isBlankLine, hall]
    _ = isBlankLine line := by rw [← hline]

/-- Trimmed, a line of blanks is empty. -/
theorem Trimmed.isBlankLine_iff {line : Text} (h : Trimmed line) :
    isBlankLine line = true ↔ line = [] := by
  rw [isBlankLine_eq_true_iff, ← trimEnd_eq_nil_iff, h.trimEnd]

end MarkupHighlight
