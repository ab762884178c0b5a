import MarkupHighlight.Highlight.Html
import MarkupHighlight.Highlight.Scope

/-!
Colouring code by its syntax tree. The contents of script and style elements in markup are parsed
and coloured on their own.
-/
namespace MarkupHighlight
open Syntax

/-- Coloured code, with the number of its spans and of the errors in its trees. -/
structure Rendering where
  html : List Html
  scopes : Nat
  errors : Nat
  deriving Repr

def errorPenalty : Int := 5

/-- How well a grammar suits a text: its spans, less a penalty for each error. -/
def Rendering.relevance (r : Rendering) : Int := r.scopes - errorPenalty * r.errors

/-- The text between two offsets, if there is any. -/
def rangeText (source : Text) (start stop : Nat) : List Html :=
  if start < stop then [.text (sliceBytes source start stop)] else []

def isValueQuote (c : Char) : Bool := c == '\x22' || c == '\x27'

def trimQuotes (s : Text) : Text :=
  ((s.dropWhile isValueQuote).reverse.dropWhile isValueQuote).reverse

def spanText (source : Text) (t : Tree) : Text := sliceBytes source t.span.start t.span.stop

/-- The value of an attribute node that is named `lang`. -/
def langValue? (source : Text) (attr : Tree) : Option Text := do
  let name ← attr.children.find? (·.kind == "attribute_name")
  if spanText source name ≠ "lang".toList then none
  let value ← attr.children.find? fun t =>
    t.kind == "attribute_value" || t.kind == "quoted_attribute_value"
  return trimQuotes (spanText source value)

/-- The value of the `lang` attribute in the start tag of a script element. -/
def scriptLang? (source : Text) (script : Tree) : Option Text := do
  let tag ← script.children.find? (·.kind == "start_tag")
  (tag.children.filter (·.kind == "attribute")).findSome? (langValue? source)

/-- The grammar for the raw text of a script or style element in markup. -/
def embeddedGrammar? (g : Grammar) (source : Text) (node : NodeInfo) (parent? : Option Tree) :
    Option Grammar :=
  if g ≠ .html ∨ node.kind ≠ "raw_text" then none
  else
    match parent? with
    | none => none
    | some parent =>
        if parent.kind = "style_element" then some .css
        else if parent.kind = "script_element" then
          match scriptLang? source parent with
          | some lang =>
              if lang = "ts".toList ∨ lang = "typescript".toList then some .typeScript
              else some .javaScript
          | none => some .javaScript
        else none

/-- What colours the text of a node whose content is in another grammar. -/
abbrev EmbeddedRenderer := Grammar → Text → Except Failure Rendering

section
variable (embedded : EmbeddedRenderer) (g : Grammar) (source : Text)

mutual

/-- Colours one node. Errors are counted only in embedded code; those of the tree itself are
counted from the tree. -/
def renderNode (ancestors : List Tree) : Tree → Except Failure Rendering
  | .node info children =>
      match embeddedGrammar? g source info ancestors.head? with
      | some inner => embedded inner (sliceBytes source info.span.start info.span.stop)
      | none => do
          let body ← renderChildren (.node info children :: ancestors) info.span.stop
            info.span.start children
          match Scope.ofNode g info (ancestors.map Tree.info) with
          | some scope =>
              return { body with
                html := [.span scope body.html]
                scopes := body.scopes + 1 }
          | none => return body

/-- Colours some siblings and the text around them, from byte `start` up to byte `stop`. -/
def renderChildren (ancestors : List Tree) (stop start : Nat) :
    List Tree → Except Failure Rendering
  | [] => .ok ⟨rangeText source start stop, 0, 0⟩
  | t :: ts => do
      let first ← renderNode ancestors t
      let rest ← renderChildren ancestors stop (max start t.span.stop) ts
      return ⟨rangeText source start t.span.start ++ first.html ++ rest.html,
        first.scopes + rest.scopes, first.errors + rest.errors⟩

end

/-- Colours all of the source, given its tree. -/
def renderTree (t : Tree) : Except Failure Rendering := do
  let body ← renderNode embedded g source [] t
  return ⟨rangeText source 0 t.span.start ++ body.html ++
    rangeText source t.span.stop (byteSize source), body.scopes, body.errors + t.problems.length⟩

end

/-- Colours code that embeds no other. -/
def renderPlain (parse : Syntax.Parser) (g : Grammar) (source : Text) :
    Except Failure Rendering := do
  renderTree (fun _ _ => .ok ⟨[], 0, 0⟩) g source (← parse g source)

/-- Colours code in a grammar. Embedded code is in a grammar that embeds none itself. -/
def render (parse : Syntax.Parser) (g : Grammar) (source : Text) : Except Failure Rendering := do
  renderTree (renderPlain parse) g source (← parse g source)

end MarkupHighlight
