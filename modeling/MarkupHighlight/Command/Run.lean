import MarkupHighlight.Command.Help
import MarkupHighlight.Command.Report
import MarkupHighlight.Diff.Lines

/-!
Running a command line in a directory: what is printed, how the run ends and which files it leaves.
-/
namespace MarkupHighlight.Command

/-- What a run goes by besides its command line and the files. -/
structure Environment where
  /-- The path of the directory that it runs in. The files are then given from the root, and
  otherwise from that directory. -/
  runDir? : Option Text := none
  /-- What property names in patterns stand for. -/
  properties : CharSet.Properties := CharSet.property?

/-- What a run has done so far. -/
structure Session where
  tree : FileTree
  output : Text := []
  messages : Text := []
  deriving DecidableEq, Repr

/-- Steps of a run. What was done before a failure stays done. -/
abbrev Run := ExceptT Report (StateM Session)

def print (s : Text) : Run Unit := modify fun r => { r with output := r.output ++ s }

def tell (s : Text) : Run Unit := modify fun r => { r with messages := r.messages ++ s }

/-- One warning; its further lines are moved in. -/
def warn (s : Text) : Run Unit :=
  tell ("[WARN ] ".toList ++ joinWith "\n    ".toList (splitLines s) ++ ['\n'])

def writeFile (p : FilePlace) (content : Text) (onFault : FileTree.Fault → Report) : Run Unit := do
  match (← get).tree.write p content with
  | .ok tree => modify fun r => { r with tree }
  | .error fault => throw (onFault fault)

/-- A file to deal with: where it lies, and the path it goes by. -/
structure Target where
  path : Text
  place : FilePlace
  deriving DecidableEq, Repr

/-- The ending of files that a directory is searched for. -/
def isComponentName (name : Text) : Bool :=
  match splitOnChar '.' name with
  | [] => false
  | [[], _] => false
  | pieces => 1 < pieces.length && pieces.getLast? == some "svelte".toList

/-- The files that a path stands for: itself, or the components below it. -/
def targetsAt (env : Environment) (tree : FileTree) (path : Text) :
    Except Report (List Target) :=
  match tree.locate path env.runDir? with
  | .error _ => .error ⟨"No such file or directory: ".toList ++ path, []⟩
  | .ok place =>
      if tree.hasFile place then .ok [⟨path, place⟩]
      else
        let found := (tree.filesBelow place).filter fun p =>
          (p.getLast?.map isComponentName).getD false
        .ok (found.map fun p => ⟨Path.join path (joinWith ['/'] p), place ++ p⟩)

def targets (env : Environment) (tree : FileTree) (paths : List Text) :
    Except Report (List Target) := do
  return (← paths.mapM (targetsAt env tree)).flatten

/-- Highlights the content that a file has now. Gives that content too. -/
def highlightFile (p : Preprocessor) (t : Target) :
    Run (Text × Except PreprocessFailure (Option Processed)) := do
  let content := ((← get).tree.content? t.place).getD []
  return (content, p.markup content t.path)

/-- The lines in which the code for a file differs from its content. -/
def diffText (path content code : Text) : Text :=
  "\n--- ".toList ++ path ++ " (original)\n+++ ".toList ++ path ++ " (highlighted)\n".toList ++
    Diff.render content code

/-- The place of the source map beside a file. -/
def mapPlace (p : FilePlace) : FilePlace := p.dropLast ++ [p.getLast?.getD [] ++ ".map".toList]

structure Tally where
  changed : Nat := 0
  skipped : Nat := 0
  deriving DecidableEq, Repr

def processFile (p : Preprocessor) (flags : ProcessFlags) (tally : Tally) (t : Target) :
    Run Tally := do
  let (content, result) ← highlightFile p t
  match result with
  | .error f =>
      f.diagnostics.forM fun d => warn d.warning
      throw (.ofPreprocessError t.path f.error)
  | .ok none =>
      tell ("Skipped ".toList ++ t.path ++ ['\n'])
      return { tally with skipped := tally.skipped + 1 }
  | .ok (some processed) =>
      processed.diagnostics.forM fun d => warn d.warning
      let changed := processed.code ≠ content
      if flags.diff ∧ changed then print (diffText t.path content processed.code)
      if flags.write ∧ changed then
        writeFile t.place processed.code (.ofFault "failed to write" t.path)
      if ¬flags.write ∧ ¬flags.diff then print processed.code
      if flags.map then
        writeFile (mapPlace t.place) processed.map.toJson
          (.ofFault "failed to write source map for" t.path)
      let count := if flags.write ∧ changed then 1 else 0
      return { tally with changed := tally.changed + count }

def process (env : Environment) (p : Preprocessor) (flags : ProcessFlags) (paths : List Text) :
    Run Nat := do
  let files ← targets env (← get).tree paths
  let tally ← files.foldlM (processFile p flags) {}
  if flags.write then
    tell ("Done: ".toList ++ decimal tally.changed ++ " rewritten, ".toList ++
      decimal tally.skipped ++ " skipped\n".toList)
  return 0

structure Findings where
  blocks : Nat := 0
  diagnostics : Nat := 0
  deriving DecidableEq, Repr

def checkFile (p : Preprocessor) (findings : Findings) (t : Target) : Run Findings := do
  let (_, result) ← highlightFile p t
  match result with
  | .error f => throw (.ofPreprocessError t.path f.error)
  | .ok none => return findings
  | .ok (some processed) =>
      processed.diagnostics.forM fun d => print (d.display ++ ['\n'])
      return ⟨findings.blocks + processed.blocks.length,
        findings.diagnostics + processed.diagnostics.length⟩

/-- Fails, without a message, if there is something to report. -/
def check (env : Environment) (p : Preprocessor) (paths : List Text) : Run Nat := do
  let files ← targets env (← get).tree paths
  let findings ← files.foldlM (checkFile p) {}
  let line (n : Nat) (what : String) : Text :=
    ' ' :: ' ' :: decimal n ++ ' ' :: what.toList ++ ['\n']
  print ("\nSummary:\n".toList ++ line files.length "files" ++ line findings.blocks "code blocks" ++
    line findings.diagnostics "diagnostics")
  return if findings.diagnostics = 0 then 0 else 1

def listLanguages (p : Preprocessor) : Run Nat := do
  p.supported.names.forM fun name => print (name.toList ++ ['\n'])
  return 0

/-- The name of the configuration that is used if it is there and no other is named. -/
def configName : Text := "highlight.toml".toList

def loadConfig (env : Environment) (tree : FileTree) (path : Option Text) :
    Except ConfigError Config :=
  let load (path : Text) := match tree.read path env.runDir? with
    | .ok document => Config.ofFile path document env.properties
    | .error fault => .error (.unreadable path fault.message.toList)
  match path with
  | some path => load path
  | none =>
      if tree.hasFile (FileTree.runPlace env.runDir? ++ [configName]) then load configName
      else .ok {}

def preprocessor (parse : Syntax.Parser) (env : Environment) (c : Config) : Preprocessor :=
  .bundled parse ((c.ignoreRule? env.properties).getD .standard) c.formatter.resolve
    (c.baseDir.or env.runDir?)

def perform (parse : Syntax.Parser) (env : Environment) (config : Option Text) (action : Action) :
    Run Nat := do
  match loadConfig env (← get).tree config with
  | .error e => throw (.ofConfigError e)
  | .ok c =>
      let p := preprocessor parse env c
      match action with
      | .process flags paths => process env p flags paths
      | .check paths => check env p paths
      | .languages => listLanguages p

/-- How a run has ended. -/
structure Outcome where
  status : Nat
  output : Text
  messages : Text
  tree : FileTree
  deriving DecidableEq, Repr

/-- Runs a command line in a directory. Status 1 is a failure, 2 a misuse of the command line. -/
def execute (parse : Syntax.Parser) (tree : FileTree) (args : List Text)
    (env : Environment := {}) : Outcome :=
  match Request.ofArguments args with
  | .misuse => ⟨2, [], (usageLine none).toList, tree⟩
  | .help s? => ⟨0, (helpText s?).toList, [], tree⟩
  | .version => ⟨0, versionText.toList, [], tree⟩
  | .run config action =>
      let (result, s) := (perform parse env config action).run.run { tree }
      match result with
      | .ok status => ⟨status, s.output, s.messages, s.tree⟩
      | .error report => ⟨1, s.output, s.messages ++ report.display, s.tree⟩

end MarkupHighlight.Command
