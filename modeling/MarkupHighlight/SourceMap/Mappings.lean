import MarkupHighlight.SourceMap.Vlq
import MarkupHighlight.Text.Lines

/-!
The `mappings` text of a source map: lines end at `;`, mappings at `,`, and a mapping is four
numbers, each the difference to the one before. The generated column starts anew on every line.
-/
namespace MarkupHighlight

/-- One place of the generated text and the place of a source it came from, counted from zero. -/
structure Mapping where
  generatedLine : Nat
  generatedColumn : Nat
  sourceIndex : Nat
  sourceLine : Nat
  sourceColumn : Nat
  deriving DecidableEq, Repr

/-- The numbers from which the next mapping counts. -/
structure MappingBase where
  generatedColumn : Int := 0
  sourceIndex : Int := 0
  sourceLine : Int := 0
  sourceColumn : Int := 0
  deriving DecidableEq, Repr

def Mapping.base (m : Mapping) : MappingBase :=
  ⟨m.generatedColumn, m.sourceIndex, m.sourceLine, m.sourceColumn⟩

def encodeMapping (b : MappingBase) (m : Mapping) : Text :=
  Vlq.encode (m.generatedColumn - b.generatedColumn) ++
    Vlq.encode (m.sourceIndex - b.sourceIndex) ++ Vlq.encode (m.sourceLine - b.sourceLine) ++
      Vlq.encode (m.sourceColumn - b.sourceColumn)

/-- The mappings of one line, and the base after the last of them. -/
def encodeLine (b : MappingBase) : List Mapping → List Text × MappingBase
  | [] => ([], b)
  | m :: ms =>
      let (texts, last) := encodeLine m.base ms
      (encodeMapping b m :: texts, last)

/-- The texts of `count` lines from `line` on. A mapping for a line that is past is not written, nor
is any after it. -/
def encodeLines (b : MappingBase) (line : Nat) : Nat → List Mapping → List Text
  | 0, _ => []
  | count + 1, ms =>
      let (texts, last) :=
        encodeLine { b with generatedColumn := 0 } (ms.takeWhile (·.generatedLine == line))
      joinWith [','] texts ::
        encodeLines last (line + 1) count (ms.dropWhile (·.generatedLine == line))

def encodeMappings (ms : List Mapping) (lineCount : Nat) : Text :=
  joinWith [';'] (encodeLines {} 0 lineCount ms)

/-- Sums are kept in a signed word. -/
def wrapSum (n : Int) : Int := n.bmod Vlq.wordSize

/-- Reads one mapping as differences to `b`. -/
def decodeMapping (b : MappingBase) (line : Nat) (s : Text) : Option (Mapping × MappingBase) := do
  let [column, index, sourceLine, sourceColumn] ← Vlq.decode s | none
  let next : MappingBase :=
    ⟨wrapSum (b.generatedColumn + column), wrapSum (b.sourceIndex + index),
      wrapSum (b.sourceLine + sourceLine), wrapSum (b.sourceColumn + sourceColumn)⟩
  if 0 ≤ next.generatedColumn ∧ 0 ≤ next.sourceIndex ∧ 0 ≤ next.sourceLine ∧
      0 ≤ next.sourceColumn then
    some (⟨line, next.generatedColumn.toNat, next.sourceIndex.toNat, next.sourceLine.toNat,
      next.sourceColumn.toNat⟩, next)
  else none

def decodeLine (b : MappingBase) (line : Nat) : List Text → Option (List Mapping × MappingBase)
  | [] => some ([], b)
  | s :: rest => do
      if s.isEmpty then decodeLine b line rest
      else
        let (m, next) ← decodeMapping b line s
        let (ms, last) ← decodeLine next line rest
        return (m :: ms, last)

def decodeLines (b : MappingBase) (line : Nat) : List Text → Option (List Mapping)
  | [] => some []
  | l :: ls => do
      let (ms, last) ← decodeLine { b with generatedColumn := 0 } line (splitOnChar ',' l)
      let more ← decodeLines last (line + 1) ls
      return ms ++ more

/-- The mappings that a text writes, if it is well formed. -/
def decodeMappings (s : Text) : Option (List Mapping) := decodeLines {} 0 (splitOnChar ';' s)

end MarkupHighlight
