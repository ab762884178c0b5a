import MarkupHighlight.Script.Expression

/-!
Component markup as a tree. Offsets are bytes of the document and ends are exclusive.
-/
namespace MarkupHighlight.Markup
open Script

/-- A piece of an attribute's value. -/
inductive Chunk
  | text (raw : Text)
  | expression (e : Expression)
  deriving DecidableEq, Repr

/-- An attribute; one written without `=` has no value. -/
structure Attribute where
  name : Text
  span : Span
  value : Option (List Chunk)
  deriving DecidableEq, Repr

/-- Block tags such as `{#if}` and `{/if}` are flat siblings, named by their sign and keyword. -/
inductive Node
  | element (name : Text) (span : Span) (attributes : List Attribute) (children : List Node)
  | text (span : Span)
  | comment (span : Span)
  | tag (name : Text) (span : Span)
  | interpolation (span : Span) (expression : Expression)
  deriving Repr

structure Document where
  size : Nat
  children : List Node
  deriving Repr

def Node.span : Node → Span
  | .element _ s _ _ | .text s | .comment s | .tag _ s | .interpolation s _ => s

def Node.name : Node → Text
  | .element n _ _ _ | .tag n _ => n
  | _ => []

/-- The expression of the first interpolation among some children. -/
def firstInterpolation? (children : List Node) : Option Expression :=
  children.findSome? fun
    | .interpolation _ e => some e
    | _ => none

def findAttribute? (name : Text) (attributes : List Attribute) : Option Attribute :=
  attributes.find? (·.name == name)

end MarkupHighlight.Markup
