import MarkupHighlight.Format.Layout
import MarkupHighlight.Format.Spacing
import MarkupHighlight.Text.Frame

/-!
The bundled formatter: lays code out, refuses code that its grammar does not accept, and spaces the
tokens of script code. Markup and code of no known language is laid out and no more.
-/
namespace MarkupHighlight
open Syntax

/-- How a failure in the tree of `source` is reported: an unexpected token with its code frame. -/
def FormatError.ofFailure (source : Text) : Failure → FormatError
  | .unexpectedToken span place =>
      { message :=
          "SyntaxError: Unexpected token (".toList ++ decimal place.line ++ ':' ::
            decimal place.column ++ [')']
        frame := some (codeFrame source span) }
  | f => ⟨f.message.toList, none⟩

def layoutFormatter (parse : Syntax.Parser) : Formatter := fun code parser options =>
  let laidOut := Layout.normalize options code
  match parserGrammar? parser with
  | none => .ok laidOut
  | some grammar =>
      if grammar.isMarkup then .ok laidOut
      else
        match parse grammar laidOut with
        | .error f => .error ⟨f.message.toList, none⟩
        | .ok tree =>
            match tree.check laidOut with
            | .error f => .error (.ofFailure laidOut f)
            | .ok () =>
                if options.normalizeSpacing && grammar.isScript then
                  .ok (Spacing.respace laidOut tree)
                else .ok laidOut

end MarkupHighlight
