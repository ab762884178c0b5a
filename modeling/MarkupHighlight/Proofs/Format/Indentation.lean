import MarkupHighlight.Format.Layout
import MarkupHighlight.Proofs.Text.Trimming
import Mathlib.Data.List.TakeWhile

/-!
Lines as an indentation of spaces and tabs and the text behind it. An indentation that was written
for a width is read back with that width, and what is behind it is left alone.
-/
namespace MarkupHighlight

namespace Layout

def isIndentChar (c : Char) : Bool := c == ' ' || c == '\t'

/-- The spaces and tabs at the start of a line. -/
def indentOf (line : Text) : Text := line.takeWhile isIndentChar

/-- A line without the spaces and tabs at its start. -/
def unindented (line : Text) : Text := line.dropWhile isIndentChar

/-- The width of spaces and tabs in columns. -/
def columns (tab : Nat) (indent : Text) : Nat := indent.count ' ' + tab * indent.count '\t'

/-- The columns that a line is indented by; a tab has one at least. -/
def indentWidth (o : FormatOptions) (line : Text) : Nat := columns (max 1 o.tabWidth) (indentOf line)

theorem isBlank_of_isIndentChar {c : Char} (h : isIndentChar c = true) : isBlank c = true := by
  simp only [isIndentChar, Bool.or_eq_true, beq_iff_eq] at h
  rcases h with rfl | rfl <;> rfl

theorem indentOf_append_unindented (line : Text) : indentOf line ++ unindented line = line :=
  List.takeWhile_append_dropWhile

theorem mem_indentOf (line : Text) : ∀ c ∈ indentOf line, isIndentChar c = true :=
  List.all_eq_true.mp List.all_takeWhile

theorem head?_unindented (line : Text) : ∀ c ∈ (unindented line).head?, isIndentChar c = false := by
  intro c hc
  have hnot := List.head?_dropWhile_not isIndentChar line
  rw [unindented, Option.mem_def] at hc
  rw [hc] at hnot
  exact hnot

section
variable {w r : Text} (hw : ∀ c ∈ w, isIndentChar c = true)
include hw

theorem indentOf_append : indentOf (w ++ r) = w ++ indentOf r :=
  List.takeWhile_append_of_pos hw

theorem unindented_append : unindented (w ++ r) = unindented r :=
  List.dropWhile_append_of_pos hw

variable (hr : ∀ c ∈ r.head?, isIndentChar c = false)
include hr

/-- There is one way to take an indentation off. -/
theorem indentOf_eq : indentOf (w ++ r) = w := by
  rw [indentOf_append hw]
  cases r with
  | nil => exact List.append_nil w
  | cons c r => simp [indentOf, hr c rfl]

theorem unindented_eq : unindented (w ++ r) = r := by
  rw [unindented_append hw]
  cases r with
  | nil => rfl
  | cons c r => simp [unindented, hr c rfl]

end

theorem columns_append (tab : Nat) (s t : Text) :
    columns tab (s ++ t) = columns tab s + columns tab t := by
  simp only [columns, List.count_append, Nat.mul_add]
  omega

theorem indentWidth_append (o : FormatOptions) {w : Text} (hw : ∀ c ∈ w, isIndentChar c = true)
    (line : Text) :
    indentWidth o (w ++ line) = columns (max 1 o.tabWidth) w + indentWidth o line := by
  rw [indentWidth, indentOf_append hw, columns_append, indentWidth]

theorem splitIndent_eq (tab : Nat) (line : Text) :
    splitIndent tab line = (columns tab (indentOf line), unindented line) := by
  fun_induction splitIndent tab line with
  | case1 => rfl
  | case2 s ih =>
    rw [ih]
    simp [columns, indentOf, unindented, isIndentChar, Nat.add_right_comm]
  | case3 s _ ih =>
    rw [ih]
    simp [columns, indentOf, unindented, isIndentChar, Nat.mul_add, Nat.add_assoc]
  | case4 c s hspace htab => simp [columns, indentOf, unindented, isIndentChar, hspace, htab]

/-! Written indentations. -/

theorem mem_renderIndent {o : FormatOptions} {width : Nat} {c : Char}
    (h : c ∈ renderIndent o width) : isIndentChar c = true := by
  unfold renderIndent at h
  split at h
  · rcases List.mem_append.mp h with h | h
    · rw [List.eq_of_mem_replicate h]
      rfl
    · rw [List.eq_of_mem_replicate h]
      rfl
  · rw [List.eq_of_mem_replicate h]
    rfl

theorem columns_renderIndent (o : FormatOptions) (width : Nat) :
    columns (max 1 o.tabWidth) (renderIndent o width) = width := by
  unfold renderIndent columnsPerTab
  split
  · simp [columns, List.count_replicate, Nat.mod_add_div]
  · simp [columns, List.count_replicate]

theorem renderIndent_zero (o : FormatOptions) : renderIndent o 0 = [] := by
  unfold renderIndent
  split <;> simp

/-! Lines that have more than blanks. -/

theorem isBlankLine_append {w : Text} (hw : ∀ c ∈ w, isIndentChar c = true) (line : Text) :
    isBlankLine (w ++ line) = isBlankLine line := by
  have hall : w.all isBlank = true :=
    List.all_eq_true.mpr fun c hc => isBlank_of_isIndentChar (hw c hc)
  simp [isBlankLine, hall]

theorem isBlankLine_unindented (line : Text) : isBlankLine (unindented line) = isBlankLine line := by
  have happend := isBlankLine_append (mem_indentOf line) (unindented line)
  rw [indentOf_append_unindented] at happend
  exact happend.symm

section
variable {line : Text} (h : isBlankLine line = false)
include h

theorem trimEnd_unindented_ne_nil : trimEnd (unindented line) ≠ [] := by
  intro hnil
  have hblank : isBlankLine (unindented line) = true :=
    isBlankLine_eq_true_iff.mpr (trimEnd_eq_nil_iff.mp hnil)
  rw [isBlankLine_unindented, h] at hblank
  cases hblank

/-- Trimming takes blanks off the text behind the indentation. -/
theorem trimEnd_eq : trimEnd line = indentOf line ++ trimEnd (unindented line) := by
  have happend := trimEnd_append_of_ne_nil (indentOf line) (trimEnd_unindented_ne_nil h)
  rwa [indentOf_append_unindented] at happend

omit h in
theorem head?_trimEnd_unindented :
    ∀ c ∈ (trimEnd (unindented line)).head?, isIndentChar c = false := by
  intro c hc
  obtain ⟨w, hrest, -, -⟩ := exists_trimEnd (unindented line)
  apply head?_unindented line
  rw [hrest, List.head?_append, Option.mem_def.mp hc]
  rfl

theorem indentOf_trimEnd : indentOf (trimEnd line) = indentOf line := by
  rw [trimEnd_eq h, indentOf_eq (mem_indentOf line) head?_trimEnd_unindented]

theorem unindented_trimEnd : unindented (trimEnd line) = trimEnd (unindented line) := by
  rw [trimEnd_eq h, unindented_eq (mem_indentOf line) head?_trimEnd_unindented]

end

/-! Lines with another indentation. -/

theorem reindent_nil (o : FormatOptions) (common : Nat) : reindent o common [] = [] := rfl

theorem reindent_of_ne_nil (o : FormatOptions) (common : Nat) {line : Text} (h : line ≠ []) :
    reindent o common line = renderIndent o (indentWidth o line - common) ++ unindented line := by
  rw [reindent, if_neg (by simpa using h), splitIndent_eq]
  rfl

theorem indentOf_reindent (o : FormatOptions) (common : Nat) (line : Text) :
    indentOf (reindent o common line) = renderIndent o (indentWidth o line - common) := by
  by_cases h : line = []
  · rw [h, reindent_nil, show indentWidth o [] = 0 from rfl, Nat.zero_sub, renderIndent_zero]
    rfl
  · rw [reindent_of_ne_nil o common h, indentOf_eq (fun _ => mem_renderIndent) (head?_unindented line)]

theorem unindented_reindent (o : FormatOptions) (common : Nat) (line : Text) :
    unindented (reindent o common line) = unindented line := by
  by_cases h : line = []
  · rw [h, reindent_nil]
  · rw [reindent_of_ne_nil o common h,
      unindented_eq (fun _ => mem_renderIndent) (head?_unindented line)]

theorem indentWidth_reindent (o : FormatOptions) (common : Nat) (line : Text) :
    indentWidth o (reindent o common line) = indentWidth o line - common := by
  rw [indentWidth, indentOf_reindent, columns_renderIndent]

theorem isBlankLine_reindent (o : FormatOptions) (common : Nat) (line : Text) :
    isBlankLine (reindent o common line) = isBlankLine line := by
  rw [← isBlankLine_unindented, unindented_reindent, isBlankLine_unindented]

theorem trimmed_reindent (o : FormatOptions) (common : Nat) {line : Text} (h : Trimmed line) :
    Trimmed (reindent o common line) := by
  by_cases hnil : line = []
  · rw [hnil]
    exact trimmed_nil
  · have hblank : isBlankLine line = false := by
      rwa [Bool.eq_false_iff, ne_eq, h.isBlankLine_iff]
    have hrest := trimEnd_eq hblank
    rw [h.trimEnd] at hrest
    rw [reindent_of_ne_nil o common hnil]
    have hunindented : unindented line = trimEnd (unindented line) := by
      rw [← unindented_trimEnd hblank, h.trimEnd]
    rw [hunindented]
    exact (trimmed_trimEnd _).append (trimEnd_unindented_ne_nil hblank) _

end Layout

end MarkupHighlight
