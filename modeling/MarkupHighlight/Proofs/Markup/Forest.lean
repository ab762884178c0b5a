import MarkupHighlight.Proofs.Markup.Lexemes

/-!
Documents as trees of lexemes: how they are written, which nodes they have and when they are read
as they are meant.
-/
namespace MarkupHighlight.Markup

/-- Siblings as they are written. A hanging element has no closing tag: it takes all that follows,
up to the closing tag of an element around it. -/
inductive Forest
  | nil
  | plain (text : Text) (rest : Forest)
  | leaf (text : Text) (node : Node) (rest : Forest)
  | closed (opening name : Text) (attributes : List Attribute) (children : Forest)
      (closing : Text) (rest : Forest)
  | hanging (opening name : Text) (attributes : List Attribute) (children : Forest)
  deriving Repr

namespace Forest

def written : Forest → Text
  | nil => []
  | plain s rest => s ++ rest.written
  | leaf s _ rest => s ++ rest.written
  | closed opening _ _ children closing rest =>
      opening ++ (children.written ++ (closing ++ rest.written))
  | hanging opening _ _ children => opening ++ children.written

/-- The nodes of a forest that is written from byte `n` on. -/
def nodesAt (n : Nat) : Forest → List Node
  | nil => []
  | plain s rest => .text ⟨n, n + byteSize s⟩ :: rest.nodesAt (n + byteSize s)
  | leaf s v rest => v.shift n :: rest.nodesAt (n + byteSize s)
  | closed opening name attributes children closing rest =>
      let stop := n + byteSize (opening ++ (children.written ++ closing))
      .element name ⟨n, stop⟩ (attributes.map (.shift n))
        (children.nodesAt (n + byteSize opening)) :: rest.nodesAt stop
  | hanging opening name attributes children =>
      [.element name ⟨n, n + byteSize (opening ++ children.written)⟩ (attributes.map (.shift n))
        (children.nodesAt (n + byteSize opening))]

/-- The names of the elements that hang at the end of a forest, outermost first. -/
def unclosed : Forest → List Text
  | nil => []
  | plain _ rest => rest.unclosed
  | leaf _ _ rest => rest.unclosed
  | closed _ _ _ _ _ rest => rest.unclosed
  | hanging _ name _ children => name :: children.unclosed

def startsPlain : Forest → Bool
  | plain .. => true
  | _ => false

/-- Every part is read as the forest says when it stands where it stands: texts are as long as they
can be, and no closing tag would close an element inside the one it closes. -/
inductive Sound : Forest → Prop
  | nil : Sound .nil
  | plain {s : Text} {rest : Forest} (hne : s ≠ []) (hs : isPlain s = true)
      (hrest : rest.startsPlain = false) (rest_sound : rest.Sound) : Sound (.plain s rest)
  | leaf {s : Text} {v : Node} {rest : Forest} (hs : IsLexeme s (.node v))
      (rest_sound : rest.Sound) : Sound (.leaf s v rest)
  | closed {opening name closing : Text} {attributes : List Attribute} {children rest : Forest}
      (hopening : IsLexeme opening (.openTag name 0 attributes)) (children_sound : children.Sound)
      (hname : name ∉ children.unclosed)
      (hclosing : IsLexeme closing (.closeTag name ⟨0, byteSize closing⟩))
      (rest_sound : rest.Sound) : Sound (.closed opening name attributes children closing rest)
  | hanging {opening name : Text} {attributes : List Attribute} {children : Forest}
      (hopening : IsLexeme opening (.openTag name 0 attributes))
      (children_sound : children.Sound) : Sound (.hanging opening name attributes children)

/-- A sound forest with no element left open. -/
structure Complete (f : Forest) : Prop where
  sound : f.Sound
  unclosed : f.unclosed = []

theorem Complete.nil : Complete .nil := ⟨.nil, rfl⟩

theorem nodesAt_add (m n : Nat) (f : Forest) : f.nodesAt (m + n) = shiftAll m (f.nodesAt n) := by
  induction f generalizing n with
  | nil => rfl
  | plain s rest ih => simp [nodesAt, shiftAll, Node.shift, Span.shift, ← ih, Nat.add_assoc]
  | leaf s v rest ih => simp [nodesAt, shiftAll, Node.shift_shift, ← ih, Nat.add_assoc]
  | closed opening name attributes children closing rest ih ih_rest =>
    simp [nodesAt, shiftAll, Node.shift, Span.shift, ← ih, ← ih_rest, Nat.add_assoc]
  | hanging opening name attributes children ih =>
    simp [nodesAt, shiftAll, Node.shift, Span.shift, ← ih, Nat.add_assoc]

theorem Sound.settled {f : Forest} (hf : f.Sound) (hstart : f.startsPlain = false) {t : Text}
    (ht : Settled t) : Settled (f.written ++ t) := by
  cases hf with
  | nil => exact ht
  | plain => cases hstart
  | leaf hs =>
    rw [written, List.append_assoc]
    exact hs.settled _
  | closed hopening =>
    rw [written, List.append_assoc]
    exact hopening.settled _
  | hanging hopening =>
    rw [written, List.append_assoc]
    exact hopening.settled _

theorem Sound.startsPlain {f : Forest} (hf : f.Sound) {t : Text} (ht : Settled t)
    (h : Settled (f.written ++ t)) : f.startsPlain = false := by
  cases hf with
  | @plain s rest hne hs hrest hsound =>
    have hstart := (hsound.settled hrest ht).startsConstruct_append hne
    obtain ⟨c, s, rfl⟩ := List.exists_cons_of_ne_nil hne
    simp only [isPlain, Bool.and_eq_true, Bool.not_eq_true'] at hs
    rw [written, List.append_assoc] at h
    rcases h with h | h
    · cases h
    · rw [hstart, hs.1] at h
      cases h
  | _ => rfl

end Forest

end MarkupHighlight.Markup
