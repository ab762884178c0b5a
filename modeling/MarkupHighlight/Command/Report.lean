import MarkupHighlight.Config
import MarkupHighlight.FileTree
import MarkupHighlight.Preprocessor

/-! Why a run has ended early, as it is told to the user: what failed, and what made it fail. -/
namespace MarkupHighlight

/-- The error that this one passes on, if it adds words of its own. -/
def PreprocessError.cause? : PreprocessError → Option String
  | .markup e => some e.message
  | .highlight _ e => some e.message
  | .edit _ => none

end MarkupHighlight

namespace MarkupHighlight.Command

/-- A failure with its causes, each the cause of the one before it. -/
structure Report where
  message : Text
  causes : List Text := []
  deriving DecidableEq, Repr

namespace Report

def ofConfigError (e : ConfigError) : Report := ⟨e.message, e.cause?.toList⟩

def ofPreprocessError (path : Text) (e : PreprocessError) : Report :=
  ⟨"failed to preprocess ".toList ++ path,
    e.message.toList :: (e.cause?.toList.map String.toList)⟩

/-- A failure to do something to a file. -/
def ofFault (deed : String) (path : Text) (fault : FileTree.Fault) : Report :=
  ⟨deed.toList ++ ' ' :: path, [fault.message.toList]⟩

/-- A text with each line but the first moved in by the width of `lead`, which stands before it. -/
def indented (lead s : Text) : Text :=
  lead ++ joinWith ('\n' :: List.replicate lead.length ' ') (splitLines s)

/-- Several causes are numbered from zero; one alone is not. -/
def causeLines : List Text → List Text
  | [cause] => [indented (List.replicate 4 ' ') cause]
  | causes =>
      causes.zipIdx.map fun (cause, n) =>
        let number := decimal n
        indented (List.replicate (5 - number.length) ' ' ++ number ++ [':', ' ']) cause

def display (r : Report) : Text :=
  let head := "Error: ".toList ++ r.message ++ ['\n']
  if r.causes.isEmpty then head
  else
    head ++ "\nCaused by:\n".toList ++ (causeLines r.causes).flatMap fun line => line ++ ['\n']

end Report

end MarkupHighlight.Command
