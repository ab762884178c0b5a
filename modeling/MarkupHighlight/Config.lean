import MarkupHighlight.Filter
import MarkupHighlight.Format.Layout
import MarkupHighlight.Path
import MarkupHighlight.Toml.Document

/-!
The settings of a preprocessor as a TOML document: which paths to ignore, the directory that paths
are shown from, and the formatter's options.
-/
namespace MarkupHighlight

structure Config where
  ignorePath : Option Text := none
  baseDir : Option Text := none
  formatter : FormatOverrides := {}
  deriving DecidableEq, Repr

inductive ConfigIssue
  | invalidPattern (pattern : Text)
  | zeroWidth (field : String)
  | emptyField (field : String)
  deriving DecidableEq, Repr

def ConfigIssue.message : ConfigIssue → Text
  | .invalidPattern p => "ignore_path '".toList ++ p ++ "' is not a valid regex".toList
  | .zeroWidth field => ("'" ++ field ++ "' must be at least 1").toList
  | .emptyField field => ("'" ++ field ++ "' must not be empty").toList

/-- One line for each issue. -/
def issuesMessage (issues : List ConfigIssue) : Text :=
  joinWith ['\n'] (issues.map ConfigIssue.message)

/-- All that is wrong with the values of a configuration. -/
def Config.issues (c : Config) (properties : CharSet.Properties := CharSet.property?) :
    List ConfigIssue :=
  (match c.ignorePath with
    | some p => if (Pattern.parse p properties).isNone then [.invalidPattern p] else []
    | none => []) ++
  (if c.formatter.tabWidth = some 0 then [.zeroWidth "formatter.tab_width"] else []) ++
  (if c.baseDir = some [] then [.emptyField "base_dir"] else [])

/-- The rule for ignored paths, if the configuration has one. -/
def Config.ignoreRule? (c : Config) (properties : CharSet.Properties := CharSet.property?) :
    Option IgnoreRule :=
  c.ignorePath.bind fun source => IgnoreRule.ofPattern? source properties

namespace Config

def text? : Toml.Value → Option Text
  | .string s => some s
  | _ => none

def width? : Toml.Value → Option Nat
  | .integer n => if 0 ≤ n then some n.toNat else none
  | _ => none

def flag? : Toml.Value → Option Bool
  | .boolean b => some b
  | _ => none

/-- The value of a field that may be missing. -/
def optional? {α : Type} (read : Toml.Value → Option α) (fields : List (Text × Toml.Value))
    (key : String) : Option (Option α) :=
  match fields.find? (·.1 == key.toList) with
  | none => some none
  | some (_, v) => (read v).map some

/-- Whether all keys are among the known ones. -/
def onlyKeys (known : List String) (fields : List (Text × Toml.Value)) : Bool :=
  fields.all fun (k, _) => known.any (·.toList == k)

/-- The formatter's options from a table, or from an array with a value for each. -/
def formatter? : Toml.Value → Option FormatOverrides
  | .table fields => do
      if !onlyKeys ["tab_width", "use_tabs", "normalize_spacing"] fields then none
      return ⟨← optional? width? fields "tab_width", ← optional? flag? fields "use_tabs",
        ← optional? flag? fields "normalize_spacing"⟩
  | .array (w :: t :: n :: _) => do
      return ⟨some (← width? w), some (← flag? t), some (← flag? n)⟩
  | _ => none

def ofFields? (fields : List (Text × Toml.Value)) : Option Config := do
  if !onlyKeys ["ignore_path", "base_dir", "formatter"] fields then none
  return ⟨← optional? text? fields "ignore_path", ← optional? text? fields "base_dir",
    (← optional? formatter? fields "formatter").getD {}⟩

end Config

/-- Why a configuration could not be had. The path is that of its file, if it came from one. -/
inductive ConfigError
  | unreadable (path : Text) (reason : Text)
  | malformed (path : Option Text)
  | invalid (path : Option Text) (issues : List ConfigIssue)
  deriving DecidableEq, Repr

def ConfigError.message : ConfigError → Text
  | .unreadable path reason =>
      "failed to read config from ".toList ++ path ++ ':' :: ' ' :: reason
  | .malformed path => "failed to parse config TOML".toList ++ inParentheses path
  | .invalid path issues =>
      "invalid config".toList ++ inParentheses path ++ ':' :: ' ' :: issuesMessage issues
where
  inParentheses : Option Text → Text
    | some p => ' ' :: '(' :: p ++ [')']
    | none => []

/-- What a configuration error has been caused by. -/
def ConfigError.cause? : ConfigError → Option Text
  | .unreadable _ reason => some reason
  | .malformed _ => none
  | .invalid _ issues => some (issuesMessage issues)

/-- The configuration that a document describes; `path` is the document's own, if it has one. -/
def Config.ofText (path : Option Text) (document : Text)
    (properties : CharSet.Properties := CharSet.property?) : Except ConfigError Config :=
  match (Toml.parse document).bind Config.ofFields? with
  | none => .error (.malformed path)
  | some c =>
      let issues := c.issues properties
      if issues.isEmpty then .ok c else .error (.invalid path issues)

/-- The configuration that a file describes. A relative directory is meant from where the file
stands. -/
def Config.ofFile (path document : Text)
    (properties : CharSet.Properties := CharSet.property?) : Except ConfigError Config :=
  (Config.ofText (some path) document properties).map fun c =>
    match c.baseDir, Path.parent? path with
    | some dir, some parent =>
        if Path.isAbsolute dir then c else { c with baseDir := some (Path.join parent dir) }
    | _, _ => c

end MarkupHighlight
