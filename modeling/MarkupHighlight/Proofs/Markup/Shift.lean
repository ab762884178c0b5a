import MarkupHighlight.Markup.Token

/-!
Moving what was read: the same markup further on in a document has the same nodes with all offsets
moved on by one distance.
-/
namespace MarkupHighlight

def Span.shift (n : Nat) (s : Span) : Span := ⟨n + s.start, n + s.stop⟩

@[simp] theorem Span.shift_zero (s : Span) : s.shift 0 = s := by
  simp [Span.shift]

@[simp] theorem Span.shift_shift (m n : Nat) (s : Span) :
    (s.shift m).shift n = s.shift (n + m) := by
  simp only [Span.shift, Nat.add_assoc]

namespace Markup

def Attribute.shift (n : Nat) (a : Attribute) : Attribute := { a with span := a.span.shift n }

@[simp] theorem Attribute.shift_zero (a : Attribute) : a.shift 0 = a := by
  simp [Attribute.shift]

@[simp] theorem Attribute.shift_shift (m n : Nat) (a : Attribute) :
    (a.shift m).shift n = a.shift (n + m) := by
  simp [Attribute.shift]

theorem findAttribute?_map_shift (name : Text) (n : Nat) (attributes : List Attribute) :
    findAttribute? name (attributes.map (.shift n)) =
      (findAttribute? name attributes).map (.shift n) := by
  simp only [findAttribute?, List.find?_map]
  rfl

mutual

def Node.shift (n : Nat) : Node → Node
  | .element name span attributes children =>
      .element name (span.shift n) (attributes.map (.shift n)) (shiftAll n children)
  | .text span => .text (span.shift n)
  | .comment span => .comment (span.shift n)
  | .tag name span => .tag name (span.shift n)
  | .interpolation span e => .interpolation (span.shift n) e

def shiftAll (n : Nat) : List Node → List Node
  | [] => []
  | v :: vs => v.shift n :: shiftAll n vs

end

theorem shiftAll_eq_map (n : Nat) (vs : List Node) : shiftAll n vs = vs.map (.shift n) := by
  induction vs with
  | nil => rfl
  | cons v vs ih => rw [shiftAll, ih, List.map_cons]

mutual

theorem Node.shift_zero : (v : Node) → v.shift 0 = v
  | .element name span attributes children => by
      have hid : Attribute.shift 0 = id := funext Attribute.shift_zero
      simp [Node.shift, shiftAll_zero children, hid]
  | .text _ | .comment _ | .tag _ _ | .interpolation _ _ => by simp [Node.shift]

theorem shiftAll_zero : (vs : List Node) → shiftAll 0 vs = vs
  | [] => rfl
  | v :: vs => by simp [shiftAll, v.shift_zero, shiftAll_zero vs]

end

mutual

theorem Node.shift_shift (m n : Nat) : (v : Node) → (v.shift m).shift n = v.shift (n + m)
  | .element name span attributes children => by
      simp [Node.shift, shiftAll_shiftAll m n children]
  | .text _ | .comment _ | .tag _ _ | .interpolation _ _ => by simp [Node.shift]

theorem shiftAll_shiftAll (m n : Nat) :
    (vs : List Node) → shiftAll n (shiftAll m vs) = shiftAll (n + m) vs
  | [] => rfl
  | v :: vs => by simp [shiftAll, v.shift_shift m n, shiftAll_shiftAll m n vs]

end

@[simp] theorem Node.span_shift (n : Nat) (v : Node) : (v.shift n).span = v.span.shift n := by
  cases v <;> rfl

theorem Node.span_element (name : Text) (span : Span) (attributes : List Attribute)
    (children : List Node) : (Node.element name span attributes children).span = span := rfl

def Token.shift (n : Nat) : Token → Token
  | .node v => .node (v.shift n)
  | .openTag name start attributes => .openTag name (n + start) (attributes.map (.shift n))
  | .closeTag name span => .closeTag name (span.shift n)

theorem Token.shift_zero (t : Token) : t.shift 0 = t := by
  have hid : Attribute.shift 0 = id := funext Attribute.shift_zero
  cases t with
  | node v => rw [shift, Node.shift_zero]
  | openTag => rw [shift, hid, List.map_id, Nat.zero_add]
  | closeTag => rw [shift, Span.shift_zero]

end Markup

end MarkupHighlight
