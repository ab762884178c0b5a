import MarkupHighlight.Text.Basic

/-!
Overwriting ranges of one text. All offsets are offsets of the text before any edit, so the order
in which edits are recorded does not matter; edits may touch but not overlap.
-/
namespace MarkupHighlight

structure Edit where
  span : Span
  text : Text
  deriving DecidableEq, Repr

inductive EditError
  | invalidRange (span : Span) (size : Nat)
  | emptyRange (start : Nat)
  | splitsCharacter (span : Span)
  | overlap (first second : Span)
  deriving DecidableEq, Repr

def Span.describe (s : Span) : String :=
  "[" ++ toString s.start ++ ", " ++ toString s.stop ++ ")"

def EditError.message : EditError → String
  | .invalidRange span size =>
      "Invalid byte range: " ++ span.describe ++ " in source of length " ++ toString size
  | .emptyRange start => "Cannot overwrite the empty range at byte " ++ toString start
  | .splitsCharacter span =>
      "Edit " ++ span.describe ++ " does not fall on UTF-8 character boundaries"
  | .overlap first second =>
      "Edits overlap: " ++ first.describe ++ " and " ++ second.describe

/-- The text that an edit of `source` replaces. -/
def Edit.replaced (source : Text) (e : Edit) : Except EditError Text :=
  if e.span.start > e.span.stop ∨ e.span.stop > byteSize source then
    .error (.invalidRange e.span (byteSize source))
  else if e.span.start = e.span.stop then .error (.emptyRange e.span.start)
  else
    match slice? source e.span with
    | some t => .ok t
    | none => .error (.splitsCharacter e.span)

/-- A text and the edits recorded for it, oldest first. -/
structure Splicer where
  source : Text
  edits : List Edit := []
  deriving Repr

/-- Records an edit, if its range is one of the source. -/
def Splicer.record (e : Edit) : ExceptT EditError (StateM Splicer) Unit := do
  let s ← get
  match e.replaced s.source with
  | .ok _ => set { s with edits := s.edits ++ [e] }
  | .error err => throw err

/-- One call: its answer, and the splicer that it leaves behind. -/
def Splicer.call (s : Splicer) (e : Edit) : Except EditError Unit × Splicer :=
  (record e).run.run s

/-- One call, by a caller that gives the splicer up if the edit is refused. -/
def Splicer.overwrite (s : Splicer) (e : Edit) : Except EditError Splicer :=
  (s.call e).1.map fun () => (s.call e).2

theorem Splicer.call_eq (s : Splicer) (e : Edit) :
    s.call e = match e.replaced s.source with
      | .ok _ => (.ok (), { s with edits := s.edits ++ [e] })
      | .error err => (.error err, s) := by
  change (match e.replaced s.source with
    | .ok _ => set { s with edits := s.edits ++ [e] }
    | .error err => throw err : ExceptT EditError (StateM Splicer) Unit).run.run s = _
  cases e.replaced s.source <;> rfl

theorem Splicer.overwrite_eq (s : Splicer) (e : Edit) :
    s.overwrite e = (e.replaced s.source).map fun _ => { s with edits := s.edits ++ [e] } := by
  rw [overwrite, call_eq]
  cases e.replaced s.source <;> rfl

inductive PieceKind
  | unchanged
  | replaced
  deriving DecidableEq, Repr

/-- A stretch of the result: its text and the range of the source it stands for. -/
structure Piece where
  source : Span
  text : Text
  kind : PieceKind
  deriving DecidableEq, Repr

/-- Order of edits in the source. -/
def Edit.le (a b : Edit) : Bool :=
  a.span.start < b.span.start || (a.span.start == b.span.start && a.span.stop ≤ b.span.stop)

def Splicer.ordered (s : Splicer) : List Edit := s.edits.mergeSort Edit.le

/-- The first two neighbours in a list of ordered edits that overlap. -/
def firstOverlap? : List Edit → Option (Span × Span)
  | a :: b :: es =>
      if a.span.stop > b.span.start then some (a.span, b.span) else firstOverlap? (b :: es)
  | _ => none

def unchangedPiece (source : Text) (start stop : Nat) : List Piece :=
  if start < stop then [⟨⟨start, stop⟩, sliceBytes source start stop, .unchanged⟩] else []

/-- The result of ordered edits from byte `start` of the source on, as pieces. -/
def pieces (source : Text) (start : Nat) : List Edit → List Piece
  | [] => unchangedPiece source start (byteSize source)
  | e :: es =>
      unchangedPiece source start e.span.start ++
        ⟨e.span, e.text, .replaced⟩ :: pieces source e.span.stop es

def Splicer.pieces (s : Splicer) : Except EditError (List Piece) :=
  match firstOverlap? s.ordered with
  | some (a, b) => .error (.overlap a b)
  | none => .ok (MarkupHighlight.pieces s.source 0 s.ordered)

end MarkupHighlight
