import MarkupHighlight.Text.Basic

/-! The ways in which markup fails to be read, each with the offset it points at. -/
namespace MarkupHighlight.Markup

inductive Construct
  | comment
  | tag
  | closingTag
  | attributeValue
  | expression
  deriving DecidableEq, Repr

def Construct.description : Construct → String
  | .comment => "comment"
  | .tag => "tag"
  | .closingTag => "closing tag"
  | .attributeValue => "attribute value"
  | .expression => "expression"

inductive Expectation
  | tagName
  | attributeName
  | tagEnd
  deriving DecidableEq, Repr

def Expectation.description : Expectation → String
  | .tagName => "tag name"
  | .attributeName => "attribute name"
  | .tagEnd => "'>'"

inductive Error
  | unclosedElement (name : Text) (offset : Nat)
  | unexpectedClosingTag (name : Text) (offset : Nat)
  | unterminated (construct : Construct) (offset : Nat)
  | expected (expectation : Expectation) (offset : Nat)
  deriving DecidableEq, Repr

def Error.offset : Error → Nat
  | .unclosedElement _ n | .unexpectedClosingTag _ n | .unterminated _ n | .expected _ n => n

def Error.message : Error → String
  | .unclosedElement name n =>
      "<" ++ String.ofList name ++ "> was left open (opened at byte " ++ toString n ++ ")"
  | .unexpectedClosingTag name n =>
      "</" ++ String.ofList name ++ "> attempted to close an element that was not open (byte " ++
        toString n ++ ")"
  | .unterminated c n =>
      "unterminated " ++ c.description ++ " starting at byte " ++ toString n
  | .expected e n => "expected " ++ e.description ++ " at byte " ++ toString n

end MarkupHighlight.Markup
