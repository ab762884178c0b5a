import MarkupHighlight.Markup.Token

/-!
Building the tree of a document from its tokens. A closing tag closes the innermost open element
of its name; elements left open inside that one end where the tag starts.
-/
namespace MarkupHighlight.Markup

/-- An element whose closing tag has not been read; children stand newest first. -/
structure OpenElement where
  name : Text
  start : Nat
  attributes : List Attribute
  children : List Node
  deriving Repr

def OpenElement.add (e : OpenElement) (n : Node) : OpenElement :=
  { e with children := n :: e.children }

def OpenElement.close (e : OpenElement) (stop : Nat) : Node :=
  .element e.name ⟨e.start, stop⟩ e.attributes e.children.reverse

/-- A tree under construction: the top-level nodes, newest first, and the open elements, innermost
first. -/
structure Outline where
  nodes : List Node := []
  opened : List OpenElement := []
  deriving Repr

def Outline.add (o : Outline) (n : Node) : Outline :=
  match o.opened with
  | [] => { o with nodes := n :: o.nodes }
  | e :: es => { o with opened := e.add n :: es }

/-- Closes elements up to the first one of the given name. `inner` holds the element that was
closed on the way last, if any. -/
def closeThrough (name : Text) (tag : Span) (inner : List Node) :
    List OpenElement → Option (Node × List OpenElement)
  | [] => none
  | e :: outer =>
      let e := inner.foldl .add e
      if e.name = name then some (e.close tag.stop, outer)
      else closeThrough name tag [e.close tag.start] outer

def Outline.step (o : Outline) : Token → Except Error Outline
  | .node n => .ok (o.add n)
  | .openTag name start attributes =>
      .ok { o with opened := ⟨name, start, attributes, []⟩ :: o.opened }
  | .closeTag name span =>
      match closeThrough name span [] o.opened with
      | none => .error (.unexpectedClosingTag name span.start)
      | some (n, outer) => .ok ({ o with opened := outer }.add n)

/-- The finished tree, unless an element is still open. -/
def Outline.finish (o : Outline) (size : Nat) : Except Error Document :=
  match o.opened with
  | [] => .ok ⟨size, o.nodes.reverse⟩
  | e :: _ => .error (.unclosedElement e.name e.start)

/-- Reads a document. Of several errors the one met first from the left counts. -/
def parse (source : Text) : Except Error Document := do
  let reading := readTokens ⟨0, source⟩
  let outline ← reading.tokens.foldlM Outline.step {}
  match reading.failure with
  | some e => .error e
  | none => outline.finish (byteSize source)

end MarkupHighlight.Markup
