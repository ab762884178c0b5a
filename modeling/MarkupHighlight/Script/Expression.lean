import MarkupHighlight.Script.Scan
import MarkupHighlight.Script.Escape

/-!
The three forms of an expression in braces: a string literal, a template literal, and any other
code, which is kept as text.
-/
namespace MarkupHighlight.Script

/-- A static part of a template, as written and with its escapes decoded. -/
structure Fragment where
  raw : Text
  cooked : Text
  deriving DecidableEq, Repr

def Fragment.ofRaw (raw : Text) : Fragment := ⟨raw, unescape raw⟩

inductive Expression
  | literal (value : Text)
  | template (fragments : List Fragment)
  | other (raw : Text)
  deriving DecidableEq, Repr

/-- The static parts of a template's body, cut out between its substitutions; `held` is the part
being read, last character first. A substitution that is not closed takes the rest of the body. -/
def splitFragments (held : Text) : Text → List Text
  | [] => [held.reverse]
  | '\\' :: c :: s => splitFragments (c :: '\\' :: held) s
  | '$' :: '{' :: s =>
      match _h : afterBrace s with
      | some r => held.reverse :: splitFragments [] r
      | none => [held.reverse, []]
  | c :: s => splitFragments (c :: held) s
  termination_by s => s.length
  decreasing_by
    · simp only [List.length_cons]
      omega
    · have := afterBrace_length _h
      simp only [List.length_cons]
      omega
    · simp only [List.length_cons]
      omega

/-- Reads the form of an expression. It is a literal only if the literal takes all of the text. -/
def Expression.classify (s : Text) : Expression :=
  match s with
  | [] => .other []
  | c :: r =>
      if isQuote c && afterQuoted c r == some [] then .literal (unescape r.dropLast)
      else if c == '\x60' && afterTemplate r == some [] then
        .template ((splitFragments [] r.dropLast).map .ofRaw)
      else .other (c :: r)

end MarkupHighlight.Script
