import MarkupHighlight.Path

/-!
A directory with the files below it, seen from a directory among them: the one that a program runs
in. Directories are those that files lie in, so none is empty but perhaps the top one and those that
lead to the run directory. If it is not known where the program runs, the top directory is the run
directory, and what lies above it is out of reach; otherwise the top directory is the root.
-/
namespace MarkupHighlight

/-- The names that lead from the top directory to a file or a directory. -/
abbrev FilePlace := List Text

structure FileTree where
  files : List (FilePlace × Text)
  deriving DecidableEq, Repr

namespace FileTree

inductive Fault
  | missing
  | notDirectory
  | isDirectory
  deriving DecidableEq, Repr

def Fault.message : Fault → String
  | .missing => "No such file or directory (os error 2)"
  | .notDirectory => "Not a directory (os error 20)"
  | .isDirectory => "Is a directory (os error 21)"

def content? (t : FileTree) (p : FilePlace) : Option Text := (t.files.find? (·.1 == p)).map (·.2)

def hasFile (t : FileTree) (p : FilePlace) : Bool := (t.content? p).isSome

/-- Where `p` lies as seen from the directory `dir`, if it lies below it. -/
def below? (dir p : FilePlace) : Option FilePlace :=
  match dir, p with
  | [], [] => none
  | [], p => some p
  | _ :: _, [] => none
  | d :: dir, n :: p => if d = n then below? dir p else none

def hasDirectory (t : FileTree) (p : FilePlace) : Bool :=
  p.isEmpty || t.files.any fun (q, _) => (below? p q).isSome

/-- The place of the run directory, from its path if that is known. -/
def runPlace (runDir? : Option Text) : FilePlace := (runDir?.map Path.namesOf).getD []

/-- Whether files lie at a place, or it is on the way to the run directory. -/
def isDirectory (t : FileTree) (runDir? : Option Text) (p : FilePlace) : Bool :=
  t.hasDirectory p || p.isPrefixOf (runPlace runDir?)

/-- Follows one piece of a path. Nothing lies above the root. -/
def follow (t : FileTree) (runDir? : Option Text) (here : FilePlace) (piece : Text) :
    Except Fault FilePlace :=
  if !t.isDirectory runDir? here then .error .notDirectory
  else if !Path.isName piece then .ok here
  else if piece = ['.', '.'] then
    if here.isEmpty && runDir?.isNone then .error .missing else .ok here.dropLast
  else
    let there := here ++ [piece]
    if t.hasFile there || t.isDirectory runDir? there then .ok there else .error .missing

/-- The place that a path leads to from the run directory. -/
def locate (t : FileTree) (path : Text) (runDir? : Option Text := none) : Except Fault FilePlace :=
  if path.isEmpty || (Path.isAbsolute path && runDir?.isNone) then .error .missing
  else
    (splitOnChar '/' path).foldlM (t.follow runDir?)
      (if Path.isAbsolute path then [] else runPlace runDir?)

/-- The content of the file that a path leads to. -/
def read (t : FileTree) (path : Text) (runDir? : Option Text := none) : Except Fault Text := do
  match t.content? (← t.locate path runDir?) with
  | some content => .ok content
  | none => .error .isDirectory

/-- Gives the file at `p` a content, and makes the file if there is none. -/
def put (t : FileTree) (p : FilePlace) (content : Text) : FileTree :=
  if t.hasFile p then
    ⟨t.files.map fun (q, old) => if q = p then (q, content) else (q, old)⟩
  else ⟨t.files ++ [(p, content)]⟩

/-- Writes a file where no directory stands. -/
def write (t : FileTree) (p : FilePlace) (content : Text) : Except Fault FileTree :=
  if t.hasDirectory p then .error .isDirectory else .ok (t.put p content)

/-- Places are ordered by their names one after another, and names by their characters. -/
def comesBefore (p q : FilePlace) : Bool := p.lex q fun m n => m.lex n fun c d => c < d

/-- The files below a directory as seen from it, in order. -/
def filesBelow (t : FileTree) (dir : FilePlace) : List FilePlace :=
  (t.files.filterMap fun (p, _) => below? dir p).mergeSort fun p q => !comesBefore q p

/-- The files of `new` that `old` does not have, or not with that content. -/
def changes (old new : FileTree) : List (FilePlace × Text) :=
  new.files.filter fun (p, content) => old.content? p != some content

end FileTree

end MarkupHighlight
