import MarkupHighlight.Toml.Reader

/-!
A TOML document as a table. A table is defined once: by a header, by dotted keys, or as an inline
value; a header may still define a table that only stands above other headers so far.
-/
namespace MarkupHighlight.Toml

/-- How a table has come about. -/
inductive Origin
  | implied
  | header
  | dotted
  deriving DecidableEq, Repr

/-- A table under construction. -/
inductive Item
  | value (v : Value)
  | table (origin : Origin) (fields : List (Text × Item))
  | tables (items : List (List (Text × Item)))

abbrev Fields := List (Text × Item)

def Fields.replace (fields : Fields) (key : Text) (item : Item) : Fields :=
  fields.map fun (k, i) => if k == key then (k, item) else (k, i)

/-- Puts a value at the end of a dotted key. -/
def insertValue (fields : Fields) (key : List Text) (v : Value) : Option Fields :=
  match key with
  | [] => none
  | [k] => if fields.any (·.1 == k) then none else some (fields ++ [(k, .value v)])
  | k :: ks =>
      match fields.find? (·.1 == k) with
      | none => (insertValue [] ks v).map fun inner => fields ++ [(k, .table .dotted inner)]
      | some (_, .table .header _) => none
      | some (_, .table origin inner) =>
          (insertValue inner ks v).map fun inner' =>
            Fields.replace fields k (.table origin inner')
      | some _ => none

/-- Changes the table that a path of headers leads to, making the tables on the way. -/
def atHeader (fields : Fields) (path : List Text) (change : Fields → Option Fields) :
    Option Fields :=
  match path with
  | [] => change fields
  | k :: ks =>
      match fields.find? (·.1 == k) with
      | none => (atHeader [] ks change).map fun inner => fields ++ [(k, .table .implied inner)]
      | some (_, .table origin inner) =>
          (atHeader inner ks change).map fun inner' =>
            Fields.replace fields k (.table origin inner')
      | some (_, .tables items) =>
          match items.getLast? with
          | some last =>
              (atHeader last ks change).map fun last' =>
                Fields.replace fields k (.tables (items.dropLast ++ [last']))
          | none => none
      | some (_, .value _) => none

/-- Defines the table `[… k]`. -/
def openTable (k : Text) (fields : Fields) : Option Fields :=
  match fields.find? (·.1 == k) with
  | none => some (fields ++ [(k, .table .header [])])
  | some (_, .table .implied inner) => some (Fields.replace fields k (.table .header inner))
  | some _ => none

/-- Adds a table to the array `[[… k]]`. -/
def openTables (k : Text) (fields : Fields) : Option Fields :=
  match fields.find? (·.1 == k) with
  | none => some (fields ++ [(k, .tables [[]])])
  | some (_, .tables items) => some (Fields.replace fields k (.tables (items ++ [[]])))
  | some _ => none

/-- A document that has been read up to some line: its tables, and the path of the last header. -/
structure Draft where
  fields : Fields := []
  path : List Text := []

/-- Reads a table header from after its first bracket. -/
def readHeader (d : Draft) (s : Text) : Option (Draft × Text) := do
  let (double, s) := match s with
    | '[' :: r => (true, r)
    | r => (false, r)
  let (path, r) ← readKey (s.length + 1) s
  let ']' :: r := r | none
  let r ← if double then
      match r with
      | ']' :: r => some r
      | _ => none
    else some r
  let r ← endLine r
  let k ← path.getLast?
  let fields ← atHeader d.fields path.dropLast (if double then openTables k else openTable k)
  return (⟨fields, path⟩, r)

/-- Reads a line with a key and a value. -/
def readField (d : Draft) (s : Text) : Option (Draft × Text) := do
  let (key, r) ← readKey (s.length + 1) s
  let '=' :: r := skipBlanks r | none
  let r := skipBlanks r
  let (v, r) ← readValue (2 * r.length + 2) r
  let r ← endLine r
  let fields ← atHeader d.fields d.path (insertValue · key v)
  return ({ d with fields }, r)

def readLinesFrom (fuel : Nat) (d : Draft) (s : Text) : Option Draft :=
  match fuel with
  | 0 => none
  | fuel + 1 => do
      match ← skipSpace s with
      | [] => return d
      | '[' :: r =>
          let (d, r) ← readHeader d r
          readLinesFrom fuel d r
      | r =>
          let (d, r) ← readField d r
          readLinesFrom fuel d r

mutual

def Item.toValue : Item → Value
  | .value v => v
  | .table _ fields => .table (fieldValues fields)
  | .tables items => .array (tableValues items)

def fieldValues : List (Text × Item) → List (Text × Value)
  | [] => []
  | (k, i) :: fs => (k, i.toValue) :: fieldValues fs

def tableValues : List (List (Text × Item)) → List Value
  | [] => []
  | fs :: rest => .table (fieldValues fs) :: tableValues rest

end

/-- The fields of a document. A byte order mark in front of it does not count. -/
def parse (s : Text) : Option (List (Text × Value)) :=
  let s := match s with
    | '\ufeff' :: r => r
    | r => r
  (readLinesFrom (s.length + 1) {} s).map fun d => fieldValues d.fields

end MarkupHighlight.Toml
