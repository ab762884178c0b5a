import MarkupHighlight.Language.Similarity
import MarkupHighlight.Markup.Node

/-!
What the `data-language` attribute of an element asks for, and which names it may give.
-/
namespace MarkupHighlight
open Markup

/-- The attribute that makes a `pre` element a code block. -/
def languageAttribute : String := "data-language"

/-- The name that asks for the language to be detected. -/
def autoName : String := "auto"

/-- Names that are valid whatever the highlighter knows. -/
def alwaysSupported : List String := ["svelte", "html", autoName]

/-- The names a block may give, in order and each once. -/
structure SupportedLanguages where
  names : List String
  deriving DecidableEq, Repr

/-- Drops every name that the next one repeats. -/
def dropRepeats : List String → List String
  | a :: b :: rest => if a = b then dropRepeats (b :: rest) else a :: dropRepeats (b :: rest)
  | l => l

def SupportedLanguages.ofNames (names : List String) : SupportedLanguages :=
  ⟨dropRepeats ((names ++ alwaysSupported).mergeSort fun a b => decide (a ≤ b))⟩

def SupportedLanguages.contains (s : SupportedLanguages) (name : String) : Bool :=
  s.names.contains name

/-- Names less similar than this are not worth suggesting. -/
def suggestionThreshold : Float := 0.8

/-- The supported name most similar to `name`, the last one in order of several. -/
def SupportedLanguages.suggest (s : SupportedLanguages) (name : String) : Option String :=
  let word := name.toLower.toList
  let scored := s.names.map fun n => (n, Similarity.jaroWinkler word n.toList)
  let close := scored.filter fun (_, score) => score ≥ suggestionThreshold
  let best := close.foldl (fun best? (n, score) =>
    match best? with
    | some (m, top) => if score ≥ top then some (n, score) else some (m, top)
    | none => some (n, score)) (none : Option (String × Float))
  best.map (·.1)

inductive Annotation
  | absent
  | auto
  | explicit (name : String)
  | invalid (name : String)
  deriving DecidableEq, Repr

/-- The language name that a valid annotation stands for. -/
def Annotation.token? : Annotation → Option String
  | .auto => some autoName
  | .explicit name => some name
  | .absent | .invalid _ => none

/-- Reads the annotation among some attributes. One whose value starts with an expression or is
empty is as good as absent. -/
def Annotation.ofAttributes (supported : SupportedLanguages) (attributes : List Attribute) :
    Annotation :=
  match findAttribute? languageAttribute.toList attributes with
  | none => .absent
  | some a =>
      match a.value with
      | none => .auto
      | some (.text raw :: _) =>
          if raw.isEmpty then .absent
          else
            let name := String.ofList raw
            if supported.contains name then .explicit name else .invalid name
      | some _ => .absent

end MarkupHighlight
