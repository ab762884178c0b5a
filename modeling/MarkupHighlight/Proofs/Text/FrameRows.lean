import MarkupHighlight.Proofs.Text.LineColumns
import MarkupHighlight.Text.Frame

/-!
Code frames row by row. All gutters of a frame are equally wide (`length_gutter`), so that rows can
be compared column by column, and the rows are those of consecutive lines of the text with the
carets below the marked one (`splitLines_codeFrame`).
-/
namespace MarkupHighlight

/-- What a row has in front of its text: a mark, a number on the right of its field, and a bar. -/
def gutter (width : Nat) (mark : Char) (number : Text) : Text :=
  mark :: ' ' :: padLeft width number ++ [' ', '|']

/-- The row that shows a line. -/
def frameRow (width : Nat) (mark : Char) (number : Nat) (line : Text) : Text :=
  let text := dropReturns line
  if text.isEmpty then gutter width mark (decimal number)
  else gutter width mark (decimal number) ++ ' ' :: text

/-- The row of the carets. -/
def caretRow (width before carets : Nat) : Text :=
  gutter width ' ' [] ++ ' ' :: (List.replicate before ' ' ++ List.replicate carets '^')

/-- The rows of unmarked lines, the first of which has the given number. -/
def plainRows (width number : Nat) : List Text → List Text
  | [] => []
  | line :: lines => frameRow width ' ' number line :: plainRows width (number + 1) lines

/-! Columns. -/

theorem length_padLeft {width : Nat} {s : Text} (h : s.length ≤ width) :
    (padLeft width s).length = width := by
  rw [padLeft, List.length_append, List.length_replicate, Nat.sub_add_cancel h]

theorem decimal_eq (n : Nat) : decimal n = Nat.toDigits 10 n := by
  rw [decimal, Nat.toString_eq_repr, Nat.toList_repr]

theorem length_decimal_mono {m n : Nat} (h : m ≤ n) :
    (decimal m).length ≤ (decimal n).length := by
  have hpos : 0 < (Nat.toDigits 10 n).length := Nat.length_toDigits_pos
  rw [decimal_eq, decimal_eq, Nat.length_toDigits_le_iff (by decide) hpos]
  exact Nat.lt_of_le_of_lt h ((Nat.length_toDigits_le_iff (by decide) hpos).mp (Nat.le_refl _))

theorem length_gutter {width : Nat} {number : Text} (h : number.length ≤ width) (mark : Char) :
    (gutter width mark number).length = width + 4 := by
  simp [gutter, length_padLeft h]

/-- Behind the gutter and a space, row and line have the same columns. -/
theorem getElem?_frameRow {width number : Nat} (h : (decimal number).length ≤ width) (mark : Char)
    (line : Text) (i : Nat) :
    (frameRow width mark number line)[width + 5 + i]? = (dropReturns line)[i]? := by
  have hlength := length_gutter h mark
  simp only [frameRow]
  split
  next hempty =>
    rw [List.isEmpty_iff.mp hempty, List.getElem?_nil, List.getElem?_eq_none_iff]
    omega
  next =>
    rw [List.getElem?_append_right (by omega), hlength,
      show width + 5 + i - (width + 4) = i + 1 by omega, List.getElem?_cons_succ]

theorem getElem?_caretRow (width before carets i : Nat) :
    (caretRow width before carets)[width + 5 + i]? = some '^' ↔
      before ≤ i ∧ i < before + carets := by
  have hlength : (gutter width ' ' []).length = width + 4 := length_gutter (Nat.zero_le _) ' '
  rw [caretRow, List.getElem?_append_right (by omega), hlength,
    show width + 5 + i - (width + 4) = i + 1 by omega, List.getElem?_cons_succ]
  by_cases h : i < before
  · rw [List.getElem?_append_left (by rwa [List.length_replicate]), List.getElem?_replicate,
      if_pos h]
    simp only [Option.some.injEq, Char.reduceEq, false_iff]
    omega
  · rw [List.getElem?_append_right (by rw [List.length_replicate]; omega), List.length_replicate,
      List.getElem?_replicate]
    rw [Option.ite_none_right_eq_some]
    simp only [and_true]
    omega

/-! Rows are lines. -/

theorem newline_notMem_gutter {number : Text} (h : '\n' ∉ number) {mark : Char}
    (hmark : mark ≠ '\n') (width : Nat) : '\n' ∉ gutter width mark number := by
  simp [gutter, padLeft, h, Ne.symm hmark]

theorem newline_notMem_decimal (n : Nat) : '\n' ∉ decimal n := by
  intro h
  rw [decimal_eq] at h
  exact absurd (Nat.isDigit_of_mem_toDigits (by decide) (by decide) h) (by decide)

theorem mem_of_mem_dropReturns {c : Char} {s : Text} (h : c ∈ dropReturns s) : c ∈ s := by
  rw [dropReturns, List.mem_reverse] at h
  exact List.mem_reverse.mp ((List.dropWhile_sublist _).subset h)

theorem newline_notMem_frameRow {line : Text} (h : '\n' ∉ line) {mark : Char}
    (hmark : mark ≠ '\n') (width number : Nat) : '\n' ∉ frameRow width mark number line := by
  have hgutter := newline_notMem_gutter (newline_notMem_decimal number) hmark width
  simp only [frameRow]
  split
  next => exact hgutter
  next =>
    rw [List.mem_append, List.mem_cons, not_or, not_or]
    exact ⟨hgutter, by decide, fun hmem => h (mem_of_mem_dropReturns hmem)⟩

theorem newline_notMem_caretRow (width before carets : Nat) :
    '\n' ∉ caretRow width before carets := by
  have hgutter : '\n' ∉ gutter width ' ' [] := newline_notMem_gutter (by decide) (by decide) width
  simp [caretRow, hgutter]

theorem exists_of_mem_plainRows {row : Text} {width number : Nat} {lines : List Text}
    (h : row ∈ plainRows width number lines) :
    ∃ m, ∃ line ∈ lines, row = frameRow width ' ' m line := by
  induction lines generalizing number with
  | nil => cases h
  | cons line lines ih =>
    rcases List.mem_cons.mp h with rfl | h
    · exact ⟨number, line, List.mem_cons_self .., rfl⟩
    · obtain ⟨m, l, hl, hrow⟩ := ih h
      exact ⟨m, l, List.mem_cons_of_mem _ hl, hrow⟩

theorem newline_notMem_of_mem_splitLines {s line : Text} (h : line ∈ splitLines s) :
    '\n' ∉ line := by
  induction s using lines_induction with
  | nil =>
    obtain rfl : line = [] := List.mem_singleton.mp h
    exact List.not_mem_nil
  | last l _ hl =>
    rw [splitLines, splitOnChar_of_notMem hl, List.mem_singleton] at h
    rwa [h]
  | line l t hl ih =>
    rw [splitLines, splitOnChar_append hl] at h
    rcases List.mem_cons.mp h with rfl | h
    · exact hl
    · exact ih h

/-! The rows of a frame. -/

/-- The numbers of the lines shown, with the marked one in its place. -/
theorem range'_eq_append_cons {first line last : Nat} (hfirst : first ≤ line)
    (hlast : line ≤ last) :
    List.range' first (last + 1 - first) =
      List.range' first (line - first) ++ line :: List.range' (line + 1) (last - line) := by
  have hcount : last + 1 - first = (line - first) + (last - line + 1) := by omega
  rw [hcount, ← List.range'_append_1, Nat.add_sub_cancel' hfirst, List.range'_succ]

theorem flatMap_eq_plainRows {rowsOf : Nat → List Text} {width first : Nat} {lines : List Text}
    (h : ∀ i line, lines[i]? = some line →
      rowsOf (first + i) = [frameRow width ' ' (first + i) line]) :
    (List.range' first lines.length).flatMap rowsOf = plainRows width first lines := by
  induction lines generalizing first with
  | nil => rfl
  | cons line lines ih =>
    have hrest : ∀ i l, lines[i]? = some l →
        rowsOf (first + 1 + i) = [frameRow width ' ' (first + 1 + i) l] := by
      intro i l hl
      rw [Nat.add_right_comm, Nat.add_assoc]
      exact h (i + 1) l hl
    rw [List.length_cons, List.range'_succ, List.flatMap_cons, ih hrest]
    exact congrArg (· ++ _) (h 0 line rfl)

/-- The number of the first line that a frame around a line shows. -/
def firstShown (number : Nat) : Nat := max 1 (number - frameContext)

/-- The number of the last one. -/
def lastShown (lines : List Text) (number : Nat) : Nat := min (number + frameContext) lines.length

theorem firstShown_pos (number : Nat) : 0 < firstShown number := Nat.le_max_left ..

theorem lastShown_le (lines : List Text) (number : Nat) : lastShown lines number ≤ lines.length :=
  Nat.min_le_right ..

/-- Lines, cut into those that a frame around line `number` shows and the others. -/
structure Window (lines : List Text) (number : Nat) where
  front : List Text
  above : List Text
  marked : Text
  below : List Text
  rest : List Text
  eq : lines = front ++ (above ++ marked :: (below ++ rest))
  first : front.length + 1 = firstShown number
  line : front.length + above.length + 1 = number
  last : number + below.length = lastShown lines number

theorem exists_window {lines : List Text} {number : Nat} (hpos : 0 < number)
    (hle : number ≤ lines.length) : Nonempty (Window lines number) := by
  obtain ⟨n, rfl⟩ := Nat.exists_eq_succ_of_ne_zero (Nat.ne_of_gt hpos)
  have hcut : lines = lines.take n ++ lines[n] :: lines.drop (n + 1) := by
    rw [← List.drop_eq_getElem_cons hle, List.take_append_drop]
  refine ⟨⟨(lines.take n).take (n - frameContext), (lines.take n).drop (n - frameContext), lines[n],
    (lines.drop (n + 1)).take frameContext, (lines.drop (n + 1)).drop frameContext, ?_, ?_, ?_, ?_⟩⟩
  · rw [← List.append_assoc, List.take_append_drop, List.take_append_drop]
    exact hcut
  all_goals
    simp only [List.length_take, List.length_drop, firstShown, lastShown, frameContext]
    omega

namespace Window

variable {lines : List Text} {number : Nat} (w : Window lines number)

theorem getElem?_above {i : Nat} {line : Text} :
    w.above[i]? = some line → lines[w.front.length + i]? = some line := by
  obtain ⟨front, above, marked, below, rest, rfl, -, -, -⟩ := w
  intro h
  have hlt := (List.getElem?_eq_some_iff.mp h).1
  rw [List.getElem?_append_right (Nat.le_add_right ..), Nat.add_sub_cancel_left,
    List.getElem?_append_left hlt, h]

theorem getElem?_marked : lines[number - 1]? = some w.marked := by
  obtain ⟨front, above, marked, below, rest, rfl, -, hline, -⟩ := w
  have hat : number - 1 = front.length + above.length := by omega
  rw [hat, List.getElem?_append_right (Nat.le_add_right ..), Nat.add_sub_cancel_left,
    List.getElem?_append_right (Nat.le_refl _), Nat.sub_self, List.getElem?_cons_zero]

theorem getElem?_below {i : Nat} {line : Text} :
    w.below[i]? = some line → lines[number + i]? = some line := by
  obtain ⟨front, above, marked, below, rest, rfl, -, hline, -⟩ := w
  intro h
  have hlt := (List.getElem?_eq_some_iff.mp h).1
  have hat : number + i = front.length + (above.length + (i + 1)) := by omega
  rw [hat, List.getElem?_append_right (Nat.le_add_right ..), Nat.add_sub_cancel_left,
    List.getElem?_append_right (Nat.le_add_right ..), Nat.add_sub_cancel_left,
    List.getElem?_cons_succ, List.getElem?_append_left hlt, h]

include w in
theorem firstShown_le_lastShown : firstShown number ≤ lastShown lines number := by
  have hfirst := w.first
  have hline := w.line
  have hlast := w.last
  omega

end Window

section
variable (s : Text) (span : Span)

/-- The width of the field of numbers, for which the last number decides. -/
def frameWidth : Nat := (decimal (lastShown (splitLines s) (lineColumn s span.start).line)).length

/-- The number of carets below a line. -/
def frameCarets (line : Text) : Nat := caretCount s span line (lineColumn s span.start).column

/-- The rows for the line with the given number: its own one and, if the span starts there, that of
the carets. -/
def rowsAt (number : Nat) (line : Text) : List Text :=
  if number = (lineColumn s span.start).line then
    [frameRow (frameWidth s span) '>' number line,
      caretRow (frameWidth s span) ((lineColumn s span.start).column - 1) (frameCarets s span line)]
  else [frameRow (frameWidth s span) ' ' number line]

theorem codeFrame_eq_flatMap : codeFrame s span =
    joinWith ['\n'] ((List.range' (firstShown (lineColumn s span.start).line)
      (lastShown (splitLines s) (lineColumn s span.start).line + 1 -
        firstShown (lineColumn s span.start).line)).flatMap fun number =>
          rowsAt s span number (((splitLines s)[number - 1]?).getD [])) := by
  simp only [codeFrame, rowsAt, frameRow, caretRow, gutter, frameWidth, frameCarets, firstShown,
    lastShown]
  congr 2
  funext number
  split
  next h => simp [h]
  next => rfl

variable (w : Window (splitLines s) (lineColumn s span.start).line)

def frameRows : List Text :=
  plainRows (frameWidth s span) (w.front.length + 1) w.above ++
    frameRow (frameWidth s span) '>' (lineColumn s span.start).line w.marked ::
    caretRow (frameWidth s span) ((lineColumn s span.start).column - 1)
      (frameCarets s span w.marked) ::
    plainRows (frameWidth s span) ((lineColumn s span.start).line + 1) w.below

theorem codeFrame_eq : codeFrame s span = joinWith ['\n'] (frameRows s span w) := by
  have hline := w.line
  have hlast := w.last
  have hcount : (lineColumn s span.start).line - (w.front.length + 1) = w.above.length := by omega
  have hcount' : lastShown (splitLines s) (lineColumn s span.start).line -
      (lineColumn s span.start).line = w.below.length := by omega
  have hnumbers := range'_eq_append_cons
    (show w.front.length + 1 ≤ (lineColumn s span.start).line by omega)
    (show (lineColumn s span.start).line ≤
      lastShown (splitLines s) (lineColumn s span.start).line by omega)
  have habove : ∀ i line, w.above[i]? = some line →
      rowsAt s span (w.front.length + 1 + i)
          (((splitLines s)[w.front.length + 1 + i - 1]?).getD []) =
        [frameRow (frameWidth s span) ' ' (w.front.length + 1 + i) line] := by
    intro i line h
    have hlt := (List.getElem?_eq_some_iff.mp h).1
    rw [show w.front.length + 1 + i - 1 = w.front.length + i by omega,
      w.getElem?_above h, rowsAt, if_neg (by omega)]
    rfl
  have hbelow : ∀ i line, w.below[i]? = some line →
      rowsAt s span ((lineColumn s span.start).line + 1 + i)
          (((splitLines s)[(lineColumn s span.start).line + 1 + i - 1]?).getD []) =
        [frameRow (frameWidth s span) ' ' ((lineColumn s span.start).line + 1 + i) line] := by
    intro i line h
    rw [Nat.add_right_comm, Nat.add_sub_cancel,
      w.getElem?_below h, rowsAt, if_neg (by omega)]
    rfl
  rw [codeFrame_eq_flatMap, ← w.first, hnumbers, hcount, hcount', List.flatMap_append,
    List.flatMap_cons, flatMap_eq_plainRows habove, flatMap_eq_plainRows hbelow,
    w.getElem?_marked, Option.getD_some, rowsAt, if_pos rfl]
  rfl

/-- The lines of a frame are its rows. -/
theorem splitLines_codeFrame : splitLines (codeFrame s span) = frameRows s span w := by
  have hmem : ∀ line ∈ w.above ++ w.marked :: w.below, '\n' ∉ line := by
    intro line h
    apply newline_notMem_of_mem_splitLines (s := s)
    have heq := w.eq
    grind
  obtain ⟨habove, hrest⟩ := List.forall_mem_append.mp hmem
  obtain ⟨hmarked, hbelow⟩ := List.forall_mem_cons.mp hrest
  have hplain : ∀ (number : Nat) (lines : List Text), (∀ line ∈ lines, '\n' ∉ line) →
      ∀ row ∈ plainRows (frameWidth s span) number lines, '\n' ∉ row := by
    intro number lines hlines row hrow
    obtain ⟨m, line, hline, rfl⟩ := exists_of_mem_plainRows hrow
    exact newline_notMem_frameRow (hlines line hline) (by decide) _ _
  rw [codeFrame_eq s span w, splitLines, splitOnChar_joinWith (by simp [frameRows])]
  refine List.forall_mem_append.mpr ⟨hplain _ _ habove, List.forall_mem_cons.mpr ⟨?_, ?_⟩⟩
  · exact newline_notMem_frameRow hmarked (by decide) _ _
  · exact List.forall_mem_cons.mpr ⟨newline_notMem_caretRow _ _ _, hplain _ _ hbelow⟩

/-- One row of a frame has the mark. -/
theorem filter_frameRows : (frameRows s span w).filter (fun row => row.head? == some '>') =
    [frameRow (frameWidth s span) '>' (lineColumn s span.start).line w.marked] := by
  have hmark (mark : Char) (number : Nat) (line : Text) :
      (frameRow (frameWidth s span) mark number line).head? = some mark := by
    simp only [frameRow]
    split <;> rfl
  have hplain (number : Nat) (lines : List Text) :
      (plainRows (frameWidth s span) number lines).filter (fun row => row.head? == some '>') =
        [] := by
    rw [List.filter_eq_nil_iff]
    intro row hrow
    obtain ⟨m, line, -, rfl⟩ := exists_of_mem_plainRows hrow
    simp [hmark]
  rw [frameRows, List.filter_append, hplain, List.filter_cons_of_pos (by simp [hmark]),
    List.filter_cons_of_neg (by simp [caretRow, gutter]), hplain, List.nil_append]

end

end MarkupHighlight
