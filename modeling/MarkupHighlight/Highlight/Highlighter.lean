import MarkupHighlight.Highlight.Render

/-!
Highlighters, and the bundled one: it colours code in a language given by name, or in the language
whose grammar suits the code best.
-/
namespace MarkupHighlight
open Syntax

structure Highlighted where
  value : Text
  language : Option String
  relevance : Int
  deriving DecidableEq, Repr

inductive HighlightError
  | unknownLanguage (name : String)
  | failed (failure : Failure)
  deriving DecidableEq, Repr

def HighlightError.message : HighlightError → String
  | .unknownLanguage name => "Unknown language: \"" ++ name ++ "\""
  | .failed f => f.message

structure Highlighter where
  /-- Names that `highlight` takes. -/
  languages : List String
  highlight : Text → String → Except HighlightError Highlighted
  /-- Picks a language among the given names, or among all it knows. -/
  detect : Text → Option (List String) → Except HighlightError Highlighted

def liftFailure {α : Type} : Except Failure α → Except HighlightError α
  | .ok a => .ok a
  | .error f => .error (.failed f)

def Rendering.highlighted (r : Rendering) (l : Language) : Highlighted :=
  ⟨renderAll r.html, some l.name, r.relevance⟩

/-- Colours code in each language in turn. -/
def renderCandidates (parse : Syntax.Parser) (code : Text) (candidates : List Language) :
    Except Failure (List (Language × Rendering)) :=
  candidates.mapM fun l => (render parse l.grammar code).map (l, ·)

/-- The first candidate of those with the greatest relevance. -/
def bestCandidate? : List (Language × Rendering) → Option (Language × Rendering)
  | [] => none
  | c :: cs => some <| cs.foldl (fun best next =>
      if next.2.relevance > best.2.relevance then next else best) c

/-- Code of no language that fits is plain text. -/
def detectAmong (parse : Syntax.Parser) (code : Text) (candidates : List Language) :
    Except Failure Highlighted := do
  match bestCandidate? (← renderCandidates parse code candidates) with
  | some (l, r) => if r.relevance > 0 then return r.highlighted l else return plain
  | none => return plain
where
  plain : Highlighted := ⟨escapeHtml code, none, 0⟩

def grammarHighlighter (parse : Syntax.Parser) : Highlighter where
  languages := languageNames
  highlight code name :=
    match findLanguage? name with
    | none => .error (.unknownLanguage name)
    | some l => liftFailure ((render parse l.grammar code).map (·.highlighted l))
  detect code names? :=
    let candidates := match names? with
      | some names => names.filterMap findLanguage?
      | none => languages
    liftFailure (detectAmong parse code candidates)

end MarkupHighlight
