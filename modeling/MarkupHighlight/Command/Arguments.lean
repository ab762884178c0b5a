import MarkupHighlight.Text.Lines

/-!
What the arguments of a command line ask for: a subcommand with its flags and operands. Flags may be
written as a word after two dashes or as letters after one; after `--` there are operands only.
-/
namespace MarkupHighlight.Command

inductive Flag
  | config | write | map | diff | help | version
  deriving DecidableEq, Repr

def Flag.letter : Flag → Char
  | .config => 'c'
  | .write => 'w'
  | .map => 'm'
  | .diff => 'd'
  | .help => 'h'
  | .version => 'V'

def Flag.word : Flag → String
  | .config => "config"
  | .write => "write"
  | .map => "map"
  | .diff => "diff"
  | .help => "help"
  | .version => "version"

inductive Subcommand
  | process | check | languages | help
  deriving DecidableEq, Repr

namespace Subcommand

def word : Subcommand → String
  | .process => "process"
  | .check => "check"
  | .languages => "languages"
  | .help => "help"

def named? (name : Text) : Option Subcommand :=
  [process, check, languages, help].find? (·.word.toList == name)

/-- The flags that may follow a subcommand, or stand where there is none yet. -/
def flags : Option Subcommand → List Flag
  | none => [.config, .help, .version]
  | some .process => [.config, .write, .map, .diff, .help]
  | some .check => [.config, .help]
  | some .languages => [.config, .help]
  | some .help => []

end Subcommand

structure ProcessFlags where
  write : Bool
  map : Bool
  diff : Bool
  deriving DecidableEq, Repr

inductive Action
  | process (flags : ProcessFlags) (paths : List Text)
  | check (paths : List Text)
  | languages
  deriving DecidableEq, Repr

/-- What a command line asks for. -/
inductive Request
  | run (config : Option Text) (action : Action)
  | help (of : Option Subcommand)
  | version
  | misuse
  deriving DecidableEq, Repr

/-- What the arguments so far say. -/
structure Reading where
  subcommand : Option Subcommand := none
  /-- The flags since the subcommand, or since the start if there is none yet. -/
  flags : List Flag := []
  /-- The path of the configuration. That after a subcommand counts more than that before it. -/
  config : Option Text := none
  operands : List Text := []
  /-- The next argument is the configuration's path. -/
  awaitsPath : Bool := false
  onlyOperands : Bool := false
  deriving DecidableEq, Repr

namespace Reading

/-- Takes note of a flag. Help and version are answered at once, whatever follows. -/
def give (r : Reading) : Flag → Except Request Reading
  | .help => .error (.help r.subcommand)
  | .version => .error .version
  | f => if f ∈ r.flags then .error .misuse else .ok { r with flags := r.flags ++ [f] }

def giveConfig (r : Reading) (path : Text) : Except Request Reading :=
  if path.isEmpty then .error .misuse
  else (r.give .config).map fun r => { r with config := some path, awaitsPath := false }

/-- Reads the argument after a flag that wants a path. -/
def readPath (r : Reading) : Text → Except Request Reading
  | '-' :: _ :: _ => .error .misuse
  | path => r.giveConfig path

/-- Reads what follows two dashes. -/
def readWord (r : Reading) (word : Text) : Except Request Reading :=
  let (name, value?) := match splitOnFirst? ['='] word with
    | some (name, value) => (name, some value)
    | none => (word, none)
  match (Subcommand.flags r.subcommand).find? (·.word.toList == name), value? with
  | none, _ => .error .misuse
  | some .config, none => .ok { r with awaitsPath := true }
  | some .config, some path => r.giveConfig path
  | some f, none => r.give f
  | some _, some _ => .error .misuse

/-- Reads what follows one dash: letters, of which one that wants a path takes the rest. -/
def readLetters (r : Reading) : Text → Except Request Reading
  | [] => .ok r
  | c :: rest =>
      match (Subcommand.flags r.subcommand).find? (·.letter == c) with
      | none => .error .misuse
      | some .config =>
          match rest with
          | [] => .ok { r with awaitsPath := true }
          | '=' :: path => r.giveConfig path
          | path => r.giveConfig path
      | some f => do (← r.give f).readLetters rest

/-- Reads the name of a subcommand, or what a subcommand is about. -/
def readOperand (r : Reading) (arg : Text) : Except Request Reading :=
  match r.subcommand with
  | none =>
      match Subcommand.named? arg with
      | some s =>
          if r.onlyOperands then .error .misuse
          else .ok { r with subcommand := some s, flags := [], onlyOperands := s = .help }
      | none => .error .misuse
  | some .languages => .error .misuse
  | some .help => .ok { r with operands := r.operands ++ [arg] }
  | some _ => if arg.isEmpty then .error .misuse else .ok { r with operands := r.operands ++ [arg] }

def readArgument (r : Reading) (arg : Text) : Except Request Reading :=
  if r.awaitsPath then r.readPath arg
  else if r.onlyOperands then r.readOperand arg
  else
    match arg with
    | ['-', '-'] => .ok { r with onlyOperands := true }
    | '-' :: '-' :: word => r.readWord word
    | '-' :: c :: letters => r.readLetters (c :: letters)
    | operand => r.readOperand operand

/-- What is asked for when there are no more arguments. -/
def request (r : Reading) : Request :=
  if r.awaitsPath then .misuse
  else
    match r.subcommand, r.operands with
    | none, _ => .misuse
    | some .languages, _ => .run r.config .languages
    | some .help, [] => .help none
    | some .help, [name] =>
        match Subcommand.named? name with
        | some s => .help (some s)
        | none => .misuse
    | some .help, _ => .misuse
    | some _, [] => .misuse
    | some .check, paths => .run r.config (.check paths)
    | some .process, paths =>
        .run r.config
          (.process ⟨.write ∈ r.flags, .map ∈ r.flags, .diff ∈ r.flags⟩ paths)

end Reading

def Request.ofArguments (args : List Text) : Request :=
  match args.foldlM Reading.readArgument {} with
  | .ok r => r.request
  | .error answer => answer

end MarkupHighlight.Command
