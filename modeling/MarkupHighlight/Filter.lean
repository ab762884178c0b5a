import MarkupHighlight.Pattern.Reader
import MarkupHighlight.Text.Category

/-!
Which files are left alone: those without a name, ignored ones and empty ones. A rule shows its
pattern as a quoted literal in which every character can be seen: marks that join to the character
before them, and characters without a shape, are written as escapes.
-/
namespace MarkupHighlight

/-- Characters that have a shape of their own. -/
def isPrintable (c : Char) : Bool :=
  match category c with
  | .control | .format | .privateUse | .unassigned | .lineSeparator | .paragraphSeparator => false
  | .spaceSeparator => c == ' '
  | _ => true

/-- Marks that extend the character before them. -/
def extendsCharacter (c : Char) : Bool :=
  let k := category c
  let n := c.toNat
  k == .nonspacingMark || k == .enclosingMark || n == 0x200C || n == 0xFF9E || n == 0xFF9F

def debugChar (c : Char) : Text :=
  if c = '\x00' then ['\\', '0']
  else if c = '\t' then ['\\', 't']
  else if c = '\r' then ['\\', 'r']
  else if c = '\n' then ['\\', 'n']
  else if c = '\\' ∨ c = '\x22' then ['\\', c]
  else if extendsCharacter c || !isPrintable c then
    ['\\', 'u', '{'] ++ hexText c.toNat ++ ['}']
  else [c]

def debugText (s : Text) : Text := '\x22' :: s.flatMap debugChar ++ ['\x22']

inductive IgnoreRule
  | pattern (source : Text) (pattern : Pattern)
  | predicate (ignores : Text → Bool)

namespace IgnoreRule

/-- The rule that ignores every path in which an expression occurs. -/
def ofPattern? (source : Text) (properties : CharSet.Properties := CharSet.property?) :
    Option IgnoreRule :=
  (Pattern.parse source properties).map (.pattern source)

/-- Directories of dependencies and of generated files. -/
def defaultSource : Text := "(node_modules|\\.svelte-kit)".toList

/-- What `defaultSource` writes. -/
def defaultPattern : Pattern :=
  let literal (s : String) := Pattern.concat (s.toList.map fun c => .oneOf (.single c))
  .alt (literal "node_modules") (literal ".svelte-kit")

def standard : IgnoreRule := .pattern defaultSource defaultPattern

def ignores : IgnoreRule → Text → Bool
  | .pattern _ p, path => p.occursIn path
  | .predicate f, path => f path

def describe : IgnoreRule → Text
  | .pattern source _ => "Pattern(".toList ++ debugText source ++ [')']
  | .predicate _ => "Predicate(..)".toList

end IgnoreRule

def shouldProcess (path : Option Text) (content : Text) (rule : IgnoreRule) : Bool :=
  match path with
  | none => false
  | some p => !p.isEmpty && !rule.ignores p && !content.isEmpty

end MarkupHighlight
