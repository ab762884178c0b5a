import MarkupHighlight.Edit.PositionMap
import MarkupHighlight.Json.Reader
import MarkupHighlight.SourceMap.Mappings
import MarkupHighlight.Text.Position

/-!
Source maps of version 3: how a spliced text gets one, and their JSON form.
-/
namespace MarkupHighlight

structure SourceMap where
  version : Nat
  file : Option Text
  sources : List Text
  sourcesContent : Option (List Text)
  names : List Text
  mappings : Text
  deriving DecidableEq, Repr

/-- The offsets of a segment that get a mapping, with the source offset of each: the segment's start
and the starts of the lines that begin inside it. -/
def Segment.anchors (code : Text) (s : Segment) : List (Nat × Nat) :=
  if s.generated.start = s.generated.stop then []
  else
    let starts := lineStartsFrom s.generated.start
      (sliceBytes code s.generated.start s.generated.stop)
    (s.generated.start, s.source.start) ::
      (starts.filter (· < s.generated.stop)).map fun n =>
        match s.kind with
        | .unchanged => (n, s.source.start + (n - s.generated.start))
        | .replaced => (n, s.source.start)

/-- The mapping of an offset of the generated text to an offset of the source. -/
def Mapping.ofOffsets (generated source : LineTable) (anchor : Nat × Nat) : Mapping :=
  let g := generated.position anchor.1
  let s := source.position anchor.2
  ⟨g.line, g.column, 0, s.line, s.column⟩

/-- The map from a spliced text back to `source`, which goes by the given name. -/
def SourceMap.generate (spliced : Spliced) (source name : Text) (includeContent : Bool) :
    SourceMap :=
  let table := LineTable.ofText spliced.code
  let anchors := spliced.map.segments.flatMap (·.anchors spliced.code)
  { version := 3
    file := none
    sources := [name]
    sourcesContent := if includeContent then some [source] else none
    names := []
    mappings := encodeMappings (anchors.map (.ofOffsets table (.ofText source))) table.lineCount }

def SourceMap.toJson (m : SourceMap) : Text :=
  let optional (key : String) (value : Option Text) := value.toList.map (key, ·)
  Json.objectText <|
    [("version", decimal m.version)] ++ optional "file" (m.file.map Json.quote) ++
      [("sources", Json.quoteArray m.sources)] ++
      optional "sourcesContent" (m.sourcesContent.map Json.quoteArray) ++
      [("names", Json.quoteArray m.names), ("mappings", Json.quote m.mappings)]

namespace SourceMap

/-- A whole number below 256, written with digits alone. -/
def version? : Json.Value → Option Nat
  | .number lexeme =>
      if lexeme.all isDecimalDigit ∧ decimalValue lexeme < 256 then some (decimalValue lexeme)
      else none
  | _ => none

def text? : Json.Value → Option Text
  | .string s => s
  | _ => none

def texts? : Json.Value → Option (List Text)
  | .array vs => vs.mapM text?
  | _ => none

/-- Reads a value that may be null. -/
def nullable? {α : Type} (read : Json.Value → Option α) : Json.Value → Option (Option α)
  | .null => some none
  | v => (read v).map some

/-- The fields of a source map, in the order of its array form. -/
def ofFields? (version file sources sourcesContent names mappings : Json.Value) :
    Option SourceMap := do
  return ⟨← version? version, ← nullable? text? file, ← texts? sources,
    ← nullable? texts? sourcesContent, ← texts? names, ← text? mappings⟩

/-- The value of a field that occurs once; `none` inside if it does not occur. -/
def field? (fields : List (Option Text × Json.Value)) (key : String) : Option (Option Json.Value) :=
  match fields.filter (·.1 == some key.toList) with
  | [] => some none
  | [(_, v)] => some (some v)
  | _ => none

/-- Reads a source map from an object or from an array of all six fields. Other fields of an object
do not matter, but each key must be a text. -/
def ofJson? : Json.Value → Option SourceMap
  | .array [version, file, sources, sourcesContent, names, mappings] =>
      ofFields? version file sources sourcesContent names mappings
  | .object fields => do
      if fields.any (·.1.isNone) then none
      ofFields? (← ← field? fields "version") ((← field? fields "file").getD .null)
        (← ← field? fields "sources") ((← field? fields "sourcesContent").getD .null)
        (← ← field? fields "names") (← ← field? fields "mappings")
  | _ => none

def parse? (s : Text) : Option SourceMap := do ofJson? (← Json.parse s)

end SourceMap

end MarkupHighlight
