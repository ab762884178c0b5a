import MarkupHighlight.Markup.Node

/-!
The nodes of a document in the order in which they start: each node before its children.
Interpolations are no stops of the walk.
-/
namespace MarkupHighlight.Markup

mutual

def Node.preorder : Node → List Node
  | .element name span attributes children =>
      .element name span attributes children :: preorderAll children
  | .interpolation .. => []
  | n => [n]

def preorderAll : List Node → List Node
  | [] => []
  | n :: ns => n.preorder ++ preorderAll ns

end

/-- All nodes below the document, in source order. -/
def Document.nodes (d : Document) : List Node := preorderAll d.children

inductive Kind
  | fragment
  | element
  | text
  | comment
  | tag
  | interpolation
  deriving DecidableEq, Repr

def Node.kind : Node → Kind
  | .element .. => .element
  | .text .. => .text
  | .comment .. => .comment
  | .tag .. => .tag
  | .interpolation .. => .interpolation

/-- What a walk meets at one node. -/
structure Stop where
  kind : Kind
  name : Text
  span : Span
  deriving DecidableEq, Repr

def Node.stop (n : Node) : Stop := ⟨n.kind, n.name, n.span⟩

/-- The stops of a whole walk: the document itself, then its nodes. -/
def Document.stops (d : Document) : List Stop :=
  ⟨.fragment, [], ⟨0, d.size⟩⟩ :: d.nodes.map Node.stop

/-- Visits the stops in turn until `enter` fails. -/
def Document.walk {m : Type → Type} [Monad m] (d : Document) (enter : Stop → m Unit) : m Unit :=
  d.stops.forM enter

end MarkupHighlight.Markup
