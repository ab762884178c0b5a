import MarkupHighlight.Syntax.Tree
import MarkupHighlight.Text.Basic

/-!
Blanks between the tokens of a line of script code. The tokens of a tree are its leaves and its
verbatim nodes; only a gap of blanks without a line feed between two of them is ever changed.
-/
namespace MarkupHighlight.Spacing
open Syntax

/-- Nodes that are kept as they are, whatever is inside. -/
def verbatimKinds : List String :=
  ["string", "template_string", "comment", "regex", "number", "jsx_element",
    "jsx_self_closing_element"]

def assignmentLike : List String :=
  ["=", "==", "===", "!=", "!==", "=>", "+=", "-=", "*=", "/=", "%=", "**=", "<<=", ">>=",
    ">>>=", "&=", "|=", "^=", "&&=", "||=", "??=", "&&", "||", "??"]

def binaryOperators : List String :=
  ["+", "-", "*", "/", "%", "**", "<", ">", "<=", ">=", "<<", ">>", ">>>", "&", "|", "^",
    "instanceof", "in"]

/-- A token and the kind of the node it belongs to. -/
structure Token where
  kind : String
  named : Bool
  span : Span
  parentKind : String
  deriving DecidableEq, Repr

mutual

/-- The tokens of a tree below a node of kind `parentKind`, less those without text. -/
def tokensOf (parentKind : String) : Tree → List Token
  | .node info children =>
      if children.isEmpty || verbatimKinds.contains info.kind then
        if info.span.stop > info.span.start then
          [⟨info.kind, info.named, info.span, parentKind⟩]
        else []
      else tokensAmong info.kind children

def tokensAmong (parentKind : String) : List Tree → List Token
  | [] => []
  | t :: ts => tokensOf parentKind t ++ tokensAmong parentKind ts

end

/-- Operators that stand between blanks. -/
def Token.isSpacedOperator (t : Token) : Bool :=
  !t.named &&
    (assignmentLike.contains t.kind ||
      (if t.kind = "?" then t.parentKind == "ternary_expression"
      else if (t.kind = "|" ∨ t.kind = "&") ∧
          (t.parentKind = "union_type" ∨ t.parentKind = "intersection_type") then true
      else binaryOperators.contains t.kind && t.parentKind == "binary_expression"))

def Token.inFor (t : Token) : Bool := "for".toList.isPrefixOf t.parentKind.toList

/-- Whether a blank stands between two tokens of a line, where `gap` stands now. -/
def isSpaced (left right : Token) (gap : Text) : Bool :=
  let l := left.kind
  let r := right.kind
  if [")", "]", ",", ";"].contains r then false
  else if [".", "?."].contains r then l == "number" && !gap.isEmpty
  else if ["(", "[", ".", "?."].contains l then false
  else if r = ":" then right.parentKind == "ternary_expression"
  else if [":", ","].contains l then true
  else if l = ";" ∧ left.inFor then true
  else if left.isSpacedOperator || right.isSpacedOperator then true
  else !gap.isEmpty

/-- What stands between two tokens in place of `gap`. -/
def gapText (left right : Token) (gap : Text) : Text :=
  if gap.contains '\n' || !(trim gap).isEmpty then gap
  else if isSpaced left right gap then [' '] else []

/-- The text after `left` up to the end of the last token of `ts`, spaced; none if two tokens are
out of order. -/
def respaceFrom (source : Text) (left : Token) : List Token → Option Text
  | [] => some (dropBytes source left.span.stop)
  | right :: ts => do
      let gap ← slice? source ⟨left.span.stop, right.span.start⟩
      let rest ← respaceFrom source right ts
      return gapText left right gap ++ sliceBytes source right.span.start right.span.stop ++ rest

/-- Spaces the given tokens of `source`, which stays as it is if they are out of order. -/
def respaceTokens (source : Text) : List Token → Text
  | [] => source
  | t :: ts =>
      match respaceFrom source t ts with
      | some rest => takeBytes source t.span.stop ++ rest
      | none => source

def respace (source : Text) (tree : Tree) : Text := respaceTokens source (tokensOf "" tree)

end MarkupHighlight.Spacing
