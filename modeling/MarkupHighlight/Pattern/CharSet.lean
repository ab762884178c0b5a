import MarkupHighlight.Text.Basic
import MarkupHighlight.Text.CaseVariants

/-! Sets of characters, as a pattern can describe them. -/
namespace MarkupHighlight

inductive CharSet
  | empty
  | range (first last : Char)
  | space
  | inCategories (categories : List Category)
  | alphabetic
  | union (a b : CharSet)
  | inter (a b : CharSet)
  | compl (a : CharSet)
  /-- All case variants of the members. -/
  | caseless (a : CharSet)
  deriving DecidableEq, Repr

namespace CharSet

def contains : CharSet → Char → Bool
  | .empty, _ => false
  | .range a b, c => a ≤ c && c ≤ b
  | .space, c => isBlank c
  | .inCategories ks, c => ks.contains (category c)
  | .alphabetic, c => isAlphabetic c
  | .union a b, c => a.contains c || b.contains c
  | .inter a b, c => a.contains c && b.contains c
  | .compl a, c => !a.contains c
  | .caseless a, c => (caseVariants c).any a.contains

def single (c : Char) : CharSet := .range c c

def all : CharSet := .compl .empty

def unionAll (sets : List CharSet) : CharSet := sets.foldl .union .empty

def complIf (negated : Bool) (s : CharSet) : CharSet := if negated then .compl s else s

def ascii : CharSet := .range '\x00' '\x7f'

def asciiDigit : CharSet := .range '0' '9'

def asciiLower : CharSet := .range 'a' 'z'

def asciiUpper : CharSet := .range 'A' 'Z'

def asciiAlpha : CharSet := .union asciiLower asciiUpper

def asciiWord : CharSet := unionAll [asciiAlpha, asciiDigit, single '_']

def asciiSpace : CharSet := .union (.range '\t' '\r') (single ' ')

def digit : CharSet := .inCategories [.decimalNumber]

/-- Letters, marks, digits, connectors such as `_`, and the two joiners. -/
def word : CharSet :=
  unionAll [.alphabetic,
    .inCategories [.nonspacingMark, .spacingMark, .enclosingMark, .decimalNumber,
      .connectorPunctuation],
    .range '\u200c' '\u200d']

/-- The sets that have a name between `[:` and `:]`. -/
def named? (name : String) : Option CharSet :=
  match name with
  | "alnum" => some (.union asciiAlpha asciiDigit)
  | "alpha" => some asciiAlpha
  | "ascii" => some ascii
  | "blank" => some (.union (single '\t') (single ' '))
  | "cntrl" => some (.union (.range '\x00' '\x1f') (single '\x7f'))
  | "digit" => some asciiDigit
  | "graph" => some (.range '!' '~')
  | "lower" => some asciiLower
  | "print" => some (.range ' ' '~')
  | "punct" =>
      some (unionAll [.range '!' '/', .range ':' '@', .range '[' '\x60', .range '\x7b' '~'])
  | "space" => some asciiSpace
  | "upper" => some asciiUpper
  | "word" => some asciiWord
  | "xdigit" => some (unionAll [asciiDigit, .range 'a' 'f', .range 'A' 'F'])
  | _ => none

/-- The categories that a short or long name of the general category property stands for. -/
def categories? (name : String) : Option (List Category) :=
  match name with
  | "l" | "letter" =>
      some [.uppercaseLetter, .lowercaseLetter, .titlecaseLetter, .modifierLetter, .otherLetter]
  | "lc" | "casedletter" => some [.uppercaseLetter, .lowercaseLetter, .titlecaseLetter]
  | "lu" | "uppercaseletter" => some [.uppercaseLetter]
  | "ll" | "lowercaseletter" => some [.lowercaseLetter]
  | "lt" | "titlecaseletter" => some [.titlecaseLetter]
  | "lm" | "modifierletter" => some [.modifierLetter]
  | "lo" | "otherletter" => some [.otherLetter]
  | "m" | "mark" | "combiningmark" => some [.nonspacingMark, .spacingMark, .enclosingMark]
  | "mn" | "nonspacingmark" => some [.nonspacingMark]
  | "mc" | "spacingmark" => some [.spacingMark]
  | "me" | "enclosingmark" => some [.enclosingMark]
  | "n" | "number" => some [.decimalNumber, .letterNumber, .otherNumber]
  | "nd" | "decimalnumber" | "digit" => some [.decimalNumber]
  | "nl" | "letternumber" => some [.letterNumber]
  | "no" | "othernumber" => some [.otherNumber]
  | "p" | "punctuation" | "punct" =>
      some [.connectorPunctuation, .dashPunctuation, .openPunctuation, .closePunctuation,
        .initialPunctuation, .finalPunctuation, .otherPunctuation]
  | "pc" | "connectorpunctuation" => some [.connectorPunctuation]
  | "pd" | "dashpunctuation" => some [.dashPunctuation]
  | "ps" | "openpunctuation" => some [.openPunctuation]
  | "pe" | "closepunctuation" => some [.closePunctuation]
  | "pi" | "initialpunctuation" => some [.initialPunctuation]
  | "pf" | "finalpunctuation" => some [.finalPunctuation]
  | "po" | "otherpunctuation" => some [.otherPunctuation]
  | "s" | "symbol" => some [.mathSymbol, .currencySymbol, .modifierSymbol, .otherSymbol]
  | "sm" | "mathsymbol" => some [.mathSymbol]
  | "sc" | "currencysymbol" => some [.currencySymbol]
  | "sk" | "modifiersymbol" => some [.modifierSymbol]
  | "so" | "othersymbol" => some [.otherSymbol]
  | "z" | "separator" => some [.spaceSeparator, .lineSeparator, .paragraphSeparator]
  | "zs" | "spaceseparator" => some [.spaceSeparator]
  | "zl" | "lineseparator" => some [.lineSeparator]
  | "zp" | "paragraphseparator" => some [.paragraphSeparator]
  | "c" | "other" => some [.control, .format, .privateUse, .unassigned]
  | "cc" | "control" | "cntrl" => some [.control]
  | "cf" | "format" => some [.format]
  | "co" | "privateuse" => some [.privateUse]
  | "cn" | "unassigned" => some [.unassigned]
  | _ => none

/-- Property names are compared without case, blanks, `_`, `-` and what is not ASCII, and without
`is` in front. -/
def plainName (s : Text) : String :=
  let plain (t : Text) : Text :=
    t.filter fun c => c.toNat < 128 && !(c == ' ' || c == '_' || c == '-')
  String.ofList <| match s.map Char.toLower with
    | 'i' :: 's' :: r => if plain r = ['c'] then ['i', 's', 'c'] else plain r
    | t => plain t

/-- A lookup of what stands between `\p{` and `}`: the name of a property, or a name and a value. -/
abbrev Properties := Text → Option CharSet

/-- The properties that have a table here: general categories, and some of the characters that have
a property or not. There are none for scripts. -/
def property? : Properties := fun name =>
  let valueOf (sep : Char) : Option (Text × Text) :=
    if name.contains sep then
      some (name.takeWhile (· != sep), (name.dropWhile (· != sep)).drop 1)
    else none
  match (valueOf ':').orElse fun _ => valueOf '=' with
  | some (key, value) =>
      if ["gc", "generalcategory"].contains (plainName key) then
        (categories? (plainName value)).map .inCategories
      else none
  | none =>
      match plainName name with
      | "any" => some all
      | "ascii" => some ascii
      | "assigned" => some (.compl (.inCategories [.unassigned]))
      | "alphabetic" | "alpha" => some .alphabetic
      | "whitespace" | "wspace" | "space" => some .space
      | n => (categories? n).map .inCategories

end CharSet

end MarkupHighlight
