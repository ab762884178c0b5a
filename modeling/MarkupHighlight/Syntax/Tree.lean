import MarkupHighlight.Language.Registry
import MarkupHighlight.Text.Position

/-!
Concrete syntax trees of code, as a grammar's parser gives them. The parsers themselves are not
part of this library: everything here takes one as an argument.
-/
namespace MarkupHighlight.Syntax

/-- The role that a node has for its parent, of those that colouring asks for. -/
inductive Field
  | key
  | name
  | function
  deriving DecidableEq, Repr

/-- What is known of one node. With `hasError` a node says that there is an error below it; parsers
set it on every node above one that is an error or is missing, and not on each of those itself. -/
structure NodeInfo where
  kind : String
  named : Bool
  isError : Bool
  isMissing : Bool
  hasError : Bool
  span : Span
  fields : List Field
  deriving DecidableEq, Repr

inductive Tree
  | node (info : NodeInfo) (children : List Tree)
  deriving Repr

def Tree.info : Tree → NodeInfo
  | .node i _ => i

def Tree.children : Tree → List Tree
  | .node _ cs => cs

def Tree.kind (t : Tree) : String := t.info.kind

def Tree.span (t : Tree) : Span := t.info.span

inductive Failure
  | noGrammar
  | noTree
  | unexpectedToken (span : Span) (place : LineColumn)
  deriving DecidableEq, Repr

def Failure.message : Failure → String
  | .noGrammar => "failed to set language for parser"
  | .noTree => "failed to parse source code"
  | .unexpectedToken span place =>
      "syntax error at " ++ toString place.line ++ ":" ++ toString place.column ++ " (byte " ++
        toString span.start ++ ".." ++ toString span.stop ++ ")"

/-- A parser for every grammar. -/
abbrev Parser := Grammar → Text → Except Failure Tree

mutual

/-- The spans of the error nodes and missing nodes, in source order. Only nodes that say they have
an error are searched. -/
def Tree.problems : Tree → List Span
  | .node info children =>
      (if info.isError || info.isMissing then [info.span] else []) ++
        (if info.hasError then problemsAmong children else [])

def problemsAmong : List Tree → List Span
  | [] => []
  | t :: ts => t.problems ++ problemsAmong ts

end

/-- Whether a tree has an error node or a missing node, by what its root says. -/
def Tree.hasErrors (t : Tree) : Bool := t.info.hasError

/-- The first error or missing node of the tree of `source`. -/
def Tree.check (source : Text) (t : Tree) : Except Failure Unit :=
  match t.problems with
  | [] => .ok ()
  | span :: _ => .error (.unexpectedToken span (lineColumn source span.start))

end MarkupHighlight.Syntax
