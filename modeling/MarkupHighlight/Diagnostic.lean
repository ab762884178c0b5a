import MarkupHighlight.Format.Layout

/-! What is reported about a block that was not replaced, or not formatted. -/
namespace MarkupHighlight

inductive DiagnosticKind
  | noCode
  | invalidLanguage (name : String) (suggestion : Option String)
  | formatFailed (error : FormatError)
  deriving DecidableEq, Repr

structure Diagnostic where
  file : Text
  kind : DiagnosticKind
  deriving DecidableEq, Repr

namespace Diagnostic

def message (d : Diagnostic) : String :=
  match d.kind with
  | .noCode => "No code provided"
  | .invalidLanguage name _ => "Invalid language \"" ++ name ++ "\""
  | .formatFailed _ => "Formatting error"

/-- Further lines, such as a code frame. -/
def detail (d : Diagnostic) : Option Text :=
  match d.kind with
  | .formatFailed e =>
      match e.frame with
      | some frame => some (e.message ++ '\n' :: frame)
      | none => some e.message
  | _ => none

def display (d : Diagnostic) : Text :=
  '[' :: d.file ++ [']', ' '] ++ d.message.toList ++
    match d.detail with
    | some t => '\n' :: t
    | none => []

/-- The text of the warning: as displayed, with the name that may have been meant. -/
def warning (d : Diagnostic) : Text :=
  match d.kind with
  | .invalidLanguage _ (some name) =>
      d.display ++ (" (did you mean \"" ++ name ++ "\"?)").toList
  | _ => d.display

end Diagnostic

end MarkupHighlight
