import MarkupHighlight.Text.Lines

/-!
Settings of the formatter, how formatting fails, and the layout of a piece of code: no blank lines
around it, no two in a row inside it, no blanks at the ends of lines, and the indentation that all
lines share taken away.
-/
namespace MarkupHighlight

structure FormatOptions where
  tabWidth : Nat := 2
  useTabs : Bool := false
  normalizeSpacing : Bool := true
  deriving DecidableEq, Repr

/-- What a caller sets of the options. -/
structure FormatOverrides where
  tabWidth : Option Nat := none
  useTabs : Option Bool := none
  normalizeSpacing : Option Bool := none
  deriving DecidableEq, Repr

def FormatOverrides.resolve (o : FormatOverrides) : FormatOptions :=
  let defaults : FormatOptions := {}
  ⟨o.tabWidth.getD defaults.tabWidth, o.useTabs.getD defaults.useTabs,
    o.normalizeSpacing.getD defaults.normalizeSpacing⟩

structure FormatError where
  message : Text
  frame : Option Text
  deriving DecidableEq, Repr

/-- Formats code with the parser of the given name. -/
abbrev Formatter := Text → String → FormatOptions → Except FormatError Text

namespace Layout

/-- A tab of no width counts as one column. -/
def columnsPerTab (o : FormatOptions) : Nat := max 1 o.tabWidth

/-- The width in columns of the blanks and tabs at the start of a line, and what follows them. -/
def splitIndent (tab : Nat) : Text → Nat × Text
  | [] => (0, [])
  | c :: s =>
      if c = ' ' then ((splitIndent tab s).1 + 1, (splitIndent tab s).2)
      else if c = '\t' then ((splitIndent tab s).1 + tab, (splitIndent tab s).2)
      else (0, c :: s)

def renderIndent (o : FormatOptions) (width : Nat) : Text :=
  if o.useTabs then
    List.replicate (width / columnsPerTab o) '\t' ++ List.replicate (width % columnsPerTab o) ' '
  else List.replicate width ' '

/-- Drops the blank lines at both ends. -/
def trimBlankLines (ls : List Text) : List Text :=
  ((ls.dropWhile List.isEmpty).reverse.dropWhile List.isEmpty).reverse

/-- Keeps one blank line of each run. -/
def collapseBlankLines : List Text → List Text
  | [] :: [] :: ls => collapseBlankLines ([] :: ls)
  | l :: ls => l :: collapseBlankLines ls
  | [] => []

/-- The least indentation of the lines that are not blank. -/
def commonIndent (tab : Nat) (ls : List Text) : Nat :=
  (((ls.filter (!·.isEmpty)).map fun l => (splitIndent tab l).1).min?).getD 0

/-- A line with `common` columns less of indentation. -/
def reindent (o : FormatOptions) (common : Nat) (line : Text) : Text :=
  if line.isEmpty then []
  else
    let (width, rest) := splitIndent (columnsPerTab o) line
    renderIndent o (width - common) ++ rest

/-- The lines of some code, laid out. -/
def layoutLines (o : FormatOptions) (code : Text) : List Text :=
  let body := trimBlankLines ((textLines code).map trimEnd)
  let common := commonIndent (columnsPerTab o) body
  collapseBlankLines (body.map (reindent o common))

def normalize (o : FormatOptions) (code : Text) : Text := joinWith ['\n'] (layoutLines o code)

end Layout

end MarkupHighlight
