import MarkupHighlight.Text.Basic

/-!
Coloured code as HTML: texts and nested spans, each span with the class of its scope.
-/
namespace MarkupHighlight

/-- The five characters with a meaning in HTML are written as entities. -/
def escapeHtmlChar (c : Char) : Text :=
  if c = '&' then "&amp;".toList
  else if c = '<' then "&lt;".toList
  else if c = '>' then "&gt;".toList
  else if c = '\x22' then "&quot;".toList
  else if c = '\x27' then "&#x27;".toList
  else [c]

def escapeHtml (s : Text) : Text := s.flatMap escapeHtmlChar

inductive Html
  | text (s : Text)
  | span (scope : String) (children : List Html)
  deriving Repr

/-- The class of a span: only the first word of a scope gets the common beginning. -/
def openSpan (scope : String) : Text := ("<span class=\"hljs-" ++ scope ++ "\">").toList

def closeSpan : Text := "</span>".toList

mutual

def Html.render : Html → Text
  | .text s => escapeHtml s
  | .span scope children => openSpan scope ++ renderAll children ++ closeSpan

def renderAll : List Html → Text
  | [] => []
  | h :: hs => h.render ++ renderAll hs

end

end MarkupHighlight
