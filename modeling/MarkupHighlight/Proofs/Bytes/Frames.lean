import MarkupHighlight.Proofs.Bytes.Places
import MarkupHighlight.Proofs.Text.Carets

/-!
Code frames as runs that check every index and every difference. There is a frame for every span,
also for one behind the end of the text, with its ends exchanged or inside characters, and
`codeFrame_points` says what it shows. The carets are counted on the line with its carriage returns
and stand below the line without them, so that a span that reaches those has carets below nothing.
-/
namespace MarkupHighlight

/-! Places of offsets are counted from one and lie in the text. -/

theorem line_lineColumn (s : Text) (n : Nat) :
    (lineColumn s n).line = (takeBytes s n).count '\n' + 1 := rfl

theorem line_lineColumn_le (s : Text) (n : Nat) :
    (lineColumn s n).line ≤ (splitLines s).length := by
  have hcount := congrArg (List.count '\n') (takeBytes_append_dropBytes s n)
  rw [List.count_append] at hcount
  rw [line_lineColumn, length_splitLines]
  omega

theorem line_lineColumn_pos (s : Text) (n : Nat) : 0 < (lineColumn s n).line := Nat.succ_pos _

theorem column_lineColumn_pos (s : Text) (n : Nat) : 0 < (lineColumn s n).column :=
  Nat.succ_pos _

namespace Bytewise

/-- The rows for the line with the given number, which must be one of the lines. -/
def rowsAt (lines : List Text) (place : LineColumn) (width carets number : Nat) :
    Run (List Text) := do
  let index ← minus number 1
  match lines[index]? with
  | none => .error (.fault .index)
  | some line =>
      if number = place.line then
        let before ← minus place.column 1
        return [frameRow width '>' number line, caretRow width before carets]
      else return [frameRow width ' ' number line]

def codeFrame (s : Text) (span : Span) : Run Text := do
  let place ← lineColumn s span.start
  let lines := splitLines s
  let first := firstShown place.line
  let last := lastShown lines place.line
  let index ← minus place.line 1
  let _ ← minus place.column 1
  let carets := caretCount s span ((lines[index]?).getD []) place.column
  -- Room is made for the rows in advance.
  let _ ← minus last first
  let rows ← (List.range' first (last + 1 - first)).mapM
    (rowsAt lines place (decimal last).length carets)
  return joinWith ['\n'] rows.flatten

theorem mapM_eq_ok {α β : Type} {f : α → Run β} {g : α → β} {l : List α}
    (h : ∀ a ∈ l, f a = .ok (g a)) : l.mapM f = .ok (l.map g) := by
  induction l with
  | nil => rfl
  | cons a l ih =>
    obtain ⟨ha, hl⟩ := List.forall_mem_cons.mp h
    rw [List.mapM_cons, ha, ok_bind, ih hl]
    rfl

theorem minus_eq {m n : Nat} (h : n ≤ m) : minus m n = .ok (m - n) := if_pos h

theorem rowsAt_eq {s line : Text} {span : Span} {place : LineColumn} {number : Nat}
    (hplace : MarkupHighlight.lineColumn s span.start = place)
    (hline : (splitLines s)[place.line - 1]? = some line) (hcolumn : 0 < place.column)
    (hpos : 0 < number) (hle : number ≤ (splitLines s).length) :
    rowsAt (splitLines s) place (frameWidth s span) (frameCarets s span line) number =
      .ok (MarkupHighlight.rowsAt s span number (((splitLines s)[number - 1]?).getD [])) := by
  have hget : (splitLines s)[number - 1]? = some (splitLines s)[number - 1] :=
    List.getElem?_eq_getElem (by omega)
  simp only [rowsAt, MarkupHighlight.rowsAt, minus_eq hpos, minus_eq hcolumn, ok_bind, hget,
    Option.getD_some, hplace]
  split
  next h =>
    subst h
    rw [← Option.some.inj (hline.symm.trans hget)]
    rfl
  next => rfl

/-- Every span has a code frame, and no step on the way is a fault. -/
theorem codeFrame_eq (s : Text) (span : Span) :
    codeFrame s span = .ok (MarkupHighlight.codeFrame s span) := by
  have hpos := line_lineColumn_pos s span.start
  have hcolumn := column_lineColumn_pos s span.start
  have hle := line_lineColumn_le s span.start
  obtain ⟨w⟩ := exists_window hpos hle
  have hmarked := w.getElem?_marked
  rw [codeFrame_eq_flatMap, codeFrame, lineColumn_eq, ok_bind]
  generalize hplace : MarkupHighlight.lineColumn s span.start = place at *
  have hrows : ∀ number ∈ List.range' (firstShown place.line)
      (lastShown (splitLines s) place.line + 1 - firstShown place.line),
      rowsAt (splitLines s) place (frameWidth s span) (frameCarets s span w.marked) number =
        .ok (MarkupHighlight.rowsAt s span number (((splitLines s)[number - 1]?).getD [])) := by
    intro number hmem
    have hfirst := firstShown_pos place.line
    have hlast := lastShown_le (splitLines s) place.line
    rw [List.mem_range'_1] at hmem
    exact rowsAt_eq hplace hmarked hcolumn (by omega) (by omega)
  simp only [minus_eq hpos, minus_eq hcolumn, minus_eq w.firstShown_le_lastShown, ok_bind,
    hmarked, Option.getD_some]
  rw [frameWidth, frameCarets, hplace] at hrows
  rw [mapM_eq_ok hrows, ok_bind, List.flatMap_def]
  rfl

end Bytewise

/-- What the code frame of a span shows. -/
structure FramePoints (s : Text) (span : Span)
    (w : Window (splitLines s) (lineColumn s span.start).line) (width carets : Nat) : Prop where
  total : Bytewise.codeFrame s span = .ok (codeFrame s span)
  /-- The rows are those of two lines before the line on which the span starts and two lines behind
  it, as far as there are such lines, and below the row of that line there are the carets. -/
  rows : splitLines (codeFrame s span) =
    plainRows width (w.front.length + 1) w.above ++
      frameRow width '>' (lineColumn s span.start).line w.marked ::
      caretRow width ((lineColumn s span.start).column - 1) carets ::
      plainRows width ((lineColumn s span.start).line + 1) w.below
  mark : (splitLines (codeFrame s span)).filter (fun row => row.head? == some '>') =
    [frameRow width '>' (lineColumn s span.start).line w.marked]
  /-- All gutters have one width. -/
  gutters : ∀ mark, (gutter width mark []).length = width + 4 ∧
    ∀ number ≤ lastShown (splitLines s) (lineColumn s span.start).line,
      (gutter width mark (decimal number)).length = width + 4
  /-- So a line has its characters in the same columns of every row, and the first caret is in that
  of the character at which the span starts. -/
  lines : ∀ number ≤ lastShown (splitLines s) (lineColumn s span.start).line, ∀ mark line i,
    (frameRow width mark number line)[width + 5 + i]? = (dropReturns line)[i]?
  columns : ∀ i, (caretRow width ((lineColumn s span.start).column - 1) carets)[width + 5 + i]? =
      some '^' ↔
    (lineColumn s span.start).column - 1 ≤ i ∧ i < (lineColumn s span.start).column - 1 + carets
  one : 0 < carets
  /-- A span in the text has a caret for each of its characters up to a line feed. -/
  all : ∀ a t b, s = a ++ (t ++ b) → span = ⟨byteSize a, byteSize (a ++ t)⟩ →
    carets = max 1 (t.takeWhile (· != '\n')).length
  /-- More carets than one are below characters of the span, which the frame shows but for the
  carriage returns at the end of the line. -/
  under : 1 < carets → ∀ j < carets, ∃ a c b, s = a ++ c :: b ∧ span.Has (byteSize a) ∧
    lineColumn s (byteSize a) =
      ⟨(lineColumn s span.start).line, (lineColumn s span.start).column + j⟩ ∧
    w.marked[(lineColumn s span.start).column - 1 + j]? = some c ∧
    ((dropReturns w.marked)[(lineColumn s span.start).column - 1 + j]? = some c ↔
      ¬ (c = '\r' ∧ ∀ d ∈ b.takeWhile (· != '\n'), d = '\r'))

/-- Every code frame shows the lines around the start of its span and points at the span. -/
theorem codeFrame_points (s : Text) (span : Span) :
    ∃ w width carets, FramePoints s span w width carets := by
  obtain ⟨w⟩ :=
    exists_window (line_lineColumn_pos s span.start) (line_lineColumn_le s span.start)
  refine ⟨w, frameWidth s span, frameCarets s span w.marked, ?_⟩
  exact {
    total := Bytewise.codeFrame_eq s span
    rows := splitLines_codeFrame s span w
    mark := by rw [splitLines_codeFrame s span w, filter_frameRows]
    gutters := fun mark => ⟨length_gutter (Nat.zero_le _) mark, fun number hle =>
      length_gutter (length_decimal_mono hle) mark⟩
    lines := fun number hle => getElem?_frameRow (length_decimal_mono hle)
    columns := getElem?_caretRow _ _ _
    one := Nat.lt_of_lt_of_le Nat.one_pos (Nat.le_max_left ..)
    all := by
      rintro a t b rfl rfl
      exact frameCarets_eq w.getElem?_marked
    under := by
      intro hmany j hj
      obtain ⟨a, c, b, x, hs, hspan, hplace, hmarked, hx⟩ :=
        exists_over_caret w.getElem?_marked hmany hj
      refine ⟨a, c, b, hs, hspan, hplace, ?_, ?_⟩
      · rw [hmarked, ← hx, List.getElem?_append_right (Nat.le_refl _), Nat.sub_self,
          List.getElem?_cons_zero]
      · rw [hmarked, ← hx]
        exact getElem?_dropReturns x c _ }

/-- A span that reaches over the carriage return at the end of its line has a caret below it, where
the frame shows nothing. -/
theorem codeFrame_points_return :
    (∃ w width carets, FramePoints "ab\r\ncd".toList ⟨0, 3⟩ w width carets) ∧
      codeFrame "ab\r\ncd".toList ⟨0, 3⟩ = "> 1 | ab\n    | ^^^\n  2 | cd".toList :=
  ⟨codeFrame_points _ _, by decide⟩

end MarkupHighlight
