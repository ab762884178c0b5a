import MarkupHighlight.Edit.Splice

/-! Which range of the source each range of the spliced text came from. -/
namespace MarkupHighlight

structure Segment where
  generated : Span
  source : Span
  kind : PieceKind
  deriving DecidableEq, Repr

structure PositionMap where
  segments : List Segment
  sourceSize : Nat
  generatedSize : Nat
  deriving DecidableEq, Repr

/-- Places pieces one after the other from byte `start` of the result on. -/
def segmentsFrom (start : Nat) : List Piece → List Segment
  | [] => []
  | p :: ps =>
      let stop := start + byteSize p.text
      ⟨⟨start, stop⟩, p.source, p.kind⟩ :: segmentsFrom stop ps

/-- The source offset of byte `n` of the result: exact in unchanged text, the start of the replaced
range in a replacement, and the source's end at the end. -/
def PositionMap.sourceOffset? (m : PositionMap) (n : Nat) : Option Nat :=
  if n = m.generatedSize then some m.sourceSize
  else
    match m.segments.find? (n < ·.generated.stop) with
    | none => none
    | some s =>
        if s.generated.start > n then none
        else
          match s.kind with
          | .unchanged => some (s.source.start + (n - s.generated.start))
          | .replaced => some s.source.start

structure Spliced where
  code : Text
  map : PositionMap
  deriving DecidableEq, Repr

/-- Applies all edits at once, unless two of them overlap. -/
def Splicer.apply (s : Splicer) : Except EditError Spliced :=
  s.pieces.map fun ps =>
    let code := ps.flatMap (·.text)
    ⟨code, ⟨segmentsFrom 0 ps, byteSize s.source, byteSize code⟩⟩

end MarkupHighlight
