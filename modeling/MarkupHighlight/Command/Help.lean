import MarkupHighlight.Command.Arguments

/-! The texts that explain the command line. -/
namespace MarkupHighlight.Command

def programName : String := "svelte-highlight"

def versionText : String := programName ++ " 0.1.0\n"

namespace Subcommand

def purpose : Subcommand → String
  | .process => "Preprocess components and print or write the result"
  | .check => "Report diagnostics without writing; exits non-zero if any were found"
  | .languages => "List the accepted data-language values"
  | .help => "Print this message or the help of the given subcommand(s)"

/-- The operands of a subcommand, with what they are. -/
def operandHelp : Subcommand → Option (String × String)
  | .process => some ("<PATHS>...", "Files or directories to process")
  | .check => some ("<PATHS>...", "Files or directories to check")
  | .languages => none
  | .help => some ("[COMMAND]...", "Print help for the subcommand(s)")

end Subcommand

def Flag.purpose : Flag → String
  | .config => "Config file (defaults to ./highlight.toml when present)"
  | .write => "Rewrite files in place instead of printing them"
  | .map => "Write a source map next to each file as <file>.map"
  | .diff => "Show unified diff of changes"
  | .help => "Print help"
  | .version => "Print version"

def Flag.spelling (f : Flag) : String :=
  "-" ++ f.letter.toString ++ ", --" ++ f.word ++ if f = .config then " <CONFIG>" else ""

/-- A titled list of terms with their meanings, which stand in one column. -/
def helpSection (title : String) (entries : List (String × String)) : List String :=
  let width := (entries.map (·.1.length)).foldl max 0
  if entries.isEmpty then []
  else
    [title ++ ":\n" ++ String.join (entries.map fun (term, meaning) =>
      "  " ++ term ++ String.ofList (List.replicate (width - term.length + 2) ' ') ++ meaning ++
        "\n")]

def usageLine : Option Subcommand → String
  | none => "Usage: " ++ programName ++ " [OPTIONS] <COMMAND>\n"
  | some s =>
      let options := if (Subcommand.flags (some s)).isEmpty then "" else " [OPTIONS]"
      let operands := match s.operandHelp with
        | some (term, _) => " " ++ term
        | none => ""
      "Usage: " ++ programName ++ " " ++ s.word ++ options ++ operands ++ "\n"

/-- The help for a subcommand, or for the program. -/
def helpText (s? : Option Subcommand) : String :=
  let options := (Subcommand.flags s?).map fun f => (f.spelling, f.purpose)
  let sections := match s? with
    | none =>
        ["Format and syntax-highlight annotated <pre> blocks in Svelte components\n",
          usageLine none] ++
          helpSection "Commands"
            ([Subcommand.process, .check, .languages, .help].map fun s => (s.word, s.purpose))
    | some s => [s.purpose ++ "\n", usageLine s] ++ helpSection "Arguments" s.operandHelp.toList
  "\n".intercalate (sections ++ helpSection "Options" options)

end MarkupHighlight.Command
