import MarkupHighlight.Text.Lines
import MarkupHighlight.Text.Position

/-!
A code frame shows the lines around a span, marks the line on which the span starts, and puts
carets under the part of the span on that line.
-/
namespace MarkupHighlight

/-- Lines shown before and after the marked one. -/
def frameContext : Nat := 2

def padLeft (width : Nat) (s : Text) : Text := List.replicate (width - s.length) ' ' ++ s

/-- The number of carets: the span's characters on its first line, none of them past the line's
end, and one at least. -/
def caretCount (s : Text) (span : Span) (line : Text) (column : Nat) : Nat :=
  let size := byteSize s
  let inSpan := match slice? s ⟨min span.start size, min span.stop size⟩ with
    | some t => (t.takeWhile (· != '\n')).length
    | none => 0
  max 1 (min inSpan (line.length - (column - 1)))

def codeFrame (s : Text) (span : Span) : Text :=
  let place := lineColumn s span.start
  let lines := splitLines s
  let first := max 1 (place.line - frameContext)
  let last := min (place.line + frameContext) lines.length
  let width := (decimal last).length
  let carets := caretCount s span ((lines[place.line - 1]?).getD []) place.column
  let rows := (List.range' first (last + 1 - first)).flatMap fun number =>
    let text := dropReturns ((lines[number - 1]?).getD [])
    let mark := if number = place.line then '>' else ' '
    let gutter := mark :: ' ' :: padLeft width (decimal number) ++ [' ', '|']
    let row := if text.isEmpty then gutter else gutter ++ ' ' :: text
    if number = place.line then
      [row, ' ' :: ' ' :: padLeft width [] ++ [' ', '|', ' '] ++
        List.replicate (place.column - 1) ' ' ++ List.replicate carets '^']
    else [row]
  joinWith ['\n'] rows

end MarkupHighlight
