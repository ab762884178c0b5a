import MarkupHighlight.Pattern.CharSet

/-!
Regular expressions with assertions, and whether one matches somewhere in a text. Matching follows
the set of places that a match can reach, so it ends whatever the pattern is.
-/
namespace MarkupHighlight

/-- Conditions on the characters before and after a place. -/
inductive Assertion
  | textStart
  | textEnd
  | lineStart (returns : Bool)
  | lineEnd (returns : Bool)
  | wordBoundary (word : CharSet)
  | noWordBoundary (word : CharSet)
  | wordStart (word : CharSet)
  | wordEnd (word : CharSet)
  | wordStartHalf (word : CharSet)
  | wordEndHalf (word : CharSet)
  deriving DecidableEq, Repr

inductive Pattern
  | empty
  | oneOf (set : CharSet)
  | assert (a : Assertion)
  | seq (a b : Pattern)
  | alt (a b : Pattern)
  /-- From `least` to `most` times, without a limit if `most` is missing. -/
  | repeated (a : Pattern) (least : Nat) (most : Option Nat)
  deriving DecidableEq, Repr

/-- A place in a text: the character before it and the text after it. -/
structure TextPlace where
  last : Option Char
  rest : Text
  deriving DecidableEq, Repr

namespace Assertion

def among (set : CharSet) : Option Char → Bool
  | some c => set.contains c
  | none => false

/-- Whether the assertion holds at a place. If `returns` is set, a line also ends at a carriage
return, and a carriage return with a line feed is one line end. -/
def holds (p : TextPlace) : Assertion → Bool
  | .textStart => p.last.isNone
  | .textEnd => p.rest.isEmpty
  | .lineStart returns =>
      p.last.isNone || p.last == some '\n' ||
        (returns && p.last == some '\r' && p.rest.head? != some '\n')
  | .lineEnd returns =>
      p.rest.isEmpty ||
        (if returns then
          p.rest.head? == some '\r' || (p.rest.head? == some '\n' && p.last != some '\r')
        else p.rest.head? == some '\n')
  | .wordBoundary w => among w p.last != among w p.rest.head?
  | .noWordBoundary w => among w p.last == among w p.rest.head?
  | .wordStart w => !among w p.last && among w p.rest.head?
  | .wordEnd w => among w p.last && !among w p.rest.head?
  | .wordStartHalf w => !among w p.last
  | .wordEndHalf w => !among w p.rest.head?

end Assertion

namespace Pattern

/-- Each place once. Places of one text differ in how much text is left. -/
def distinct (ps : List TextPlace) : List TextPlace :=
  ps.foldl (fun kept p =>
    if kept.any fun q => q.rest.length == p.rest.length then kept else kept ++ [p]) []

/-- All places that up to `n` steps lead to. -/
def within (step : TextPlace → List TextPlace) : Nat → List TextPlace → List TextPlace
  | 0, ps => ps
  | n + 1, ps => within step n (distinct (ps ++ ps.flatMap step))

/-- The places that exactly `n` steps lead to. -/
def after (step : TextPlace → List TextPlace) : Nat → List TextPlace → List TextPlace
  | 0, ps => ps
  | n + 1, ps => after step n (distinct (ps.flatMap step))

/-- The places at which a match that starts at a place can end. A repetition that goes on must
take a character each time, so as many rounds as there are characters suffice. -/
def ends : Pattern → TextPlace → List TextPlace
  | .empty, p => [p]
  | .oneOf set, p =>
      match p.rest with
      | c :: s => if set.contains c then [⟨some c, s⟩] else []
      | [] => []
  | .assert a, p => if a.holds p then [p] else []
  | .seq a b, p => distinct ((a.ends p).flatMap b.ends)
  | .alt a b, p => distinct (a.ends p ++ b.ends p)
  | .repeated a least most, p =>
      let rounds := match most with
        | some m => min (m - least) (p.rest.length + 1)
        | none => p.rest.length + 1
      within a.ends rounds (after a.ends least [p])

/-- All places of a text. -/
def places (last : Option Char) : Text → List TextPlace
  | [] => [⟨last, []⟩]
  | c :: s => ⟨last, c :: s⟩ :: places (some c) s

/-- Whether the pattern matches some part of the text. -/
def occursIn (pattern : Pattern) (s : Text) : Bool :=
  (places none s).any fun p => !(pattern.ends p).isEmpty

def concat (ps : List Pattern) : Pattern := ps.foldr .seq .empty

end Pattern

end MarkupHighlight
