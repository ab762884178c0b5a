import MarkupHighlight.Format.Layout
import MarkupHighlight.Highlight.Asking
import MarkupHighlight.Language.Annotation

/-!
From the code of a block, the first interpolation of its element, to the markup that replaces it:
highlighted HTML as the value of a template literal. Code that cannot be formatted is highlighted as
it is.
-/
namespace MarkupHighlight
open Markup Script

inductive Payload
  | literal (value : Text)
  | template (first : Fragment)
  deriving DecidableEq, Repr

/-- The value of a string, or the first static part of a template as written. -/
def Payload.raw : Payload → Text
  | .literal v => v
  | .template f => f.raw

/-- The code with all escapes decoded. -/
def Payload.source : Payload → Text
  | .literal v => v
  | .template f => f.cooked

def Payload.isEmpty (p : Payload) : Bool := p.raw.isEmpty

def Payload.ofExpression? : Expression → Option Payload
  | .literal v => some (.literal v)
  | .template fs => fs.head?.map .template
  | .other _ => none

def payload? (children : List Node) : Option Payload :=
  (firstInterpolation? children).bind Payload.ofExpression?

/-- Escapes what would end a template literal or start a substitution in it. -/
def escapeTemplate : Text → Text
  | [] => []
  | '$' :: '{' :: s => '\\' :: '$' :: escapeTemplate ('{' :: s)
  | c :: s =>
      if c = '\\' ∨ c = '\x60' then '\\' :: c :: escapeTemplate s else c :: escapeTemplate s
  termination_by s => s.length

def wrap (html : Text) : Text :=
  "<pre><code class=\"hljs\">\x7b@html \x60".toList ++ escapeTemplate html ++
    "\x60\x7d</code></pre>".toList

/-- The languages that component markup mixes. -/
def markupHints : List String := ["xml", "css", "javascript"]

structure Transformed where
  markup : Text
  language : String
  detected : Option String
  formatError : Option FormatError
  deriving DecidableEq, Repr

/-- Names of component dialects, whose code is highlighted by detection. -/
def isMarkupDialect (name : String) : Bool :=
  let s := name.toLower.toList
  (splitOnFirst? "svelte".toList s).isSome || (splitOnFirst? "html".toList s).isSome

/-- How blocks are formatted and highlighted. -/
structure Pipeline where
  formatter : Formatter
  highlighter : Highlighter
  options : FormatOptions

/-- The code to highlight, and what went wrong when formatting it. -/
def Pipeline.prepare (p : Pipeline) (code : Text) (language : String) :
    Text × Option FormatError :=
  match p.formatter code language p.options with
  | .ok formatted => (formatted, none)
  | .error e => (code, some e)

/-- The question for code in a language that a block asks for. -/
def Call.ofLanguage (code : Text) (language : String) : Call :=
  if language = autoName then .detect code none
  else if isMarkupDialect language then .detect code (some markupHints)
  else .highlight code language

/-- Prepares code, asks for its colours and wraps the answer. -/
def Pipeline.asking (p : Pipeline) (code : Text) (language : String) :
    ExceptT HighlightError Asking Transformed := do
  let (prepared, formatError) := p.prepare code language
  let highlighted ← (Call.ofLanguage prepared language).put
  return ⟨wrap highlighted.value, language, highlighted.language, formatError⟩

def Pipeline.transform (p : Pipeline) (code : Text) (language : String) :
    Except HighlightError Transformed :=
  answered p.highlighter.answer (p.asking code language)

end MarkupHighlight
