import MarkupHighlight.Text.Lines

/-!
File paths as rows of names between slashes. Repeated slashes, slashes at the end and `.` after the
first place mean nothing; a `.` in the first place is a part of the path.
-/
namespace MarkupHighlight.Path

/-- How a path starts: at the root, at `.`, or with a name. -/
inductive Lead
  | root
  | here
  | none
  deriving DecidableEq, Repr

/-- The start of a path and the text after it. -/
def splitLead : Text → Lead × Text
  | '/' :: s => (.root, s)
  | ['.'] => (.here, [])
  | '.' :: '/' :: s => (.here, '/' :: s)
  | s => (.none, s)

/-- The text of a path that starts in a given way. -/
def withLead (lead : Lead) (body : Text) : Text :=
  match lead with
  | .root => '/' :: body
  | .here => '.' :: body
  | .none => body

def isName (piece : Text) : Bool := !piece.isEmpty && piece != ['.']

/-- The names in the text after a path's start. -/
def namesOf (body : Text) : List Text := (splitOnChar '/' body).filter isName

/-- The text after a path's start, less the pieces at its ends that mean nothing. -/
def trimPieces (body : Text) : Text :=
  let pieces := (splitOnChar '/' body).dropWhile fun p => !isName p
  joinWith ['/'] (pieces.reverse.dropWhile fun p => !isName p).reverse

/-- The text after a path's start, less the pieces at its end that mean nothing. -/
def trimEndPieces (body : Text) : Text :=
  joinWith ['/'] ((splitOnChar '/' body).reverse.dropWhile fun p => !isName p).reverse

/-- The pieces that are left when the given names are taken off the front. -/
def stripNames : List Text → List Text → Option (List Text)
  | [], pieces => some pieces
  | n :: ns, pieces =>
      match pieces.dropWhile fun p => !isName p with
      | [] => none
      | p :: rest => if p = n then stripNames ns rest else none

/-- `path` as seen from `base`, if it lies there. -/
def relativeTo? (base path : Text) : Option Text :=
  let (baseLead, baseBody) := splitLead base
  let (lead, body) := splitLead path
  let names := namesOf baseBody
  if baseLead = .none ∧ names.isEmpty then
    some (withLead lead (trimEndPieces body))
  else if baseLead = lead then
    (stripNames names (splitOnChar '/' body)).map fun pieces => trimPieces (joinWith ['/'] pieces)
  else none

/-- The directory that a path stands in. The root and the empty path stand in none. -/
def parent? (path : Text) : Option Text :=
  let (lead, body) := splitLead path
  match (splitOnChar '/' body).reverse.dropWhile fun p => !isName p with
  | [] => if lead = .here then some [] else none
  | _ :: outer =>
      some (withLead lead (joinWith ['/'] (outer.dropWhile fun p => !isName p).reverse))

def isAbsolute (path : Text) : Bool := path.head? == some '/'

/-- `path` seen from `base`. -/
def join (base path : Text) : Text :=
  if isAbsolute path || base.isEmpty then path
  else if base.getLast? = some '/' then base ++ path
  else base ++ '/' :: path

/-- A file as shown to people: as seen from `base`, or as given when it lies elsewhere or no base is
known. -/
def display (file : Text) (base? : Option Text) : Text :=
  match base? with
  | none => file
  | some base =>
      match relativeTo? base file with
      | some [] => file
      | some relative => relative
      | none => file

end MarkupHighlight.Path
