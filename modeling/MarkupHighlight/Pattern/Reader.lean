import MarkupHighlight.Pattern.Basic

/-!
Reading the text of a regular expression. Readers take what is left of the text, give what they
read with what is left after it, and give nothing where the text is no expression. Properties of
characters go by names, which are looked up.
-/
namespace MarkupHighlight.Pattern

/-- The flags in force at some point of an expression. -/
structure Flags where
  caseless : Bool := false
  multiLine : Bool := false
  dotAll : Bool := false
  returns : Bool := false
  unicode : Bool := true
  verbose : Bool := false
  deriving DecidableEq, Repr

def afterLineFeed (s : Text) : Text := (s.dropWhile (· != '\n')).drop 1

/-- In verbose expressions, drops blanks and comments. -/
def skipVerbose (flags : Flags) (s : Text) : Text :=
  if flags.verbose then skip s.length s else s
where
  skip : Nat → Text → Text
    | 0, s => s
    | n + 1, s =>
        match s.dropWhile isBlank with
        | '#' :: r => skip n (afterLineFeed r)
        | r => r

def isMeta (c : Char) : Bool := "\\.+*?()|[]\x7b\x7d^$#&-~".toList.contains c

/-- Characters that stand for themselves after a backslash. -/
def isPlainEscape (c : Char) : Bool :=
  isMeta c || (c.toNat < 128 && !c.isAlphanum && c != '<' && c != '>')

/-- What a character or an escape stands for. -/
inductive Unit
  | char (c : Char)
  | set (s : CharSet)
  | assertion (a : Assertion)
  deriving Repr

def charOfNat? (n : Nat) : Option Char := if n.isValidChar then some (Char.ofNat n) else none

/-- The digits of a hexadecimal escape: `width` of them, or any number in braces. -/
def readHexEscape (width : Nat) : Text → Option (Char × Text)
  | '{' :: s => do
      let digits := s.takeWhile (· != '}')
      let c ← charOfNat? (← hexNumber? digits)
      match s.dropWhile (· != '}') with
      | '}' :: r => some (c, r)
      | _ => none
  | s => do
      if (s.take width).length < width then none
      let c ← charOfNat? (← hexNumber? (s.take width))
      return (c, s.drop width)

/-- Without Unicode, a character must be one byte. -/
def allowed (flags : Flags) (c : Char) : Bool := flags.unicode || c.toNat < 128

/-- Adds the case variants, if the flags ask for it. Without Unicode those are ASCII letters. -/
def foldCase (flags : Flags) (s : CharSet) : CharSet :=
  if !flags.caseless then s
  else if flags.unicode then .caseless s
  else .inter .ascii (.caseless (.inter .ascii s))

/-- A property after `\p` or, negated, after `\P`. Case variants are added before the negation. -/
def readProperty (properties : CharSet.Properties) (flags : Flags) (negated : Bool) (s : Text) :
    Option (CharSet × Text) :=
  match skipVerbose flags s with
  | '{' :: s =>
      match s.dropWhile (· != '}') with
      | '}' :: r =>
          let body := s.takeWhile (· != '}')
          let (unlike, name) := match splitOnFirst? ['!', '='] body with
            | some (key, value) => (true, key ++ '=' :: value)
            | none => (false, body)
          (properties name).map fun set => (.complIf (negated != unlike) (foldCase flags set), r)
      | _ => none
  | c :: s => (properties [c]).map fun set => (.complIf negated (foldCase flags set), s)
  | [] => none

def wordSet (flags : Flags) : CharSet := if flags.unicode then .word else .asciiWord

/-- The class that a letter such as `d` or `W` stands for after a backslash. A negated class of
bytes would hold parts of characters. -/
def letterSet? (flags : Flags) (c : Char) : Option CharSet :=
  let pick (wide narrow : CharSet) := if flags.unicode then wide else narrow
  let negated (s : CharSet) : Option CharSet := if flags.unicode then some (.compl s) else none
  match c with
  | 'd' => some (pick .digit .asciiDigit)
  | 's' => some (pick .space .asciiSpace)
  | 'w' => some (wordSet flags)
  | 'D' => negated .digit
  | 'S' => negated .space
  | 'W' => negated .word
  | _ => none

/-- A word boundary, of a special kind if a name in braces follows. -/
def readBoundary (flags : Flags) (s : Text) : Option (Unit × Text) :=
  let w := wordSet flags
  let isNameChar (c : Char) : Bool := c.isAlpha || c == '-'
  let plain := some (Unit.assertion (.wordBoundary w), s)
  match s with
  | '{' :: r =>
      match skipVerbose flags r with
      | [] => none
      | c :: t =>
          if !isNameChar c then plain
          else
            match (c :: t).dropWhile isNameChar with
            | '}' :: rest =>
                match String.ofList ((c :: t).takeWhile isNameChar) with
                | "start" => some (.assertion (.wordStart w), rest)
                | "end" => some (.assertion (.wordEnd w), rest)
                | "start-half" => some (.assertion (.wordStartHalf w), rest)
                | "end-half" => some (.assertion (.wordEndHalf w), rest)
                | _ => none
            | _ => none
  | _ => plain

/-- Reads an escape from just after its backslash. -/
def readEscape (properties : CharSet.Properties) (flags : Flags) : Text → Option (Unit × Text)
  | [] => none
  | c :: s =>
      let char (d : Char) : Option (Unit × Text) := some (.char d, s)
      match c with
      | 'x' => (readHexEscape 2 s).map fun (d, r) => (.char d, r)
      | 'u' => (readHexEscape 4 s).map fun (d, r) => (.char d, r)
      | 'U' => (readHexEscape 8 s).map fun (d, r) => (.char d, r)
      | 'p' | 'P' =>
          if flags.unicode then
            (readProperty properties flags (c == 'P') s).map fun (t, r) => (.set t, r)
          else none
      | 'a' => char '\x07'
      | 'f' => char '\x0c'
      | 't' => char '\t'
      | 'n' => char '\n'
      | 'r' => char '\r'
      | 'v' => char '\x0b'
      | 'A' => some (.assertion .textStart, s)
      | 'z' => some (.assertion .textEnd, s)
      | 'b' => readBoundary flags s
      | 'B' => some (.assertion (.noWordBoundary (wordSet flags)), s)
      | '<' => some (.assertion (.wordStart (wordSet flags)), s)
      | '>' => some (.assertion (.wordEnd (wordSet flags)), s)
      | _ =>
          match letterSet? flags c with
          | some set => some (.set set, s)
          | none => if isPlainEscape c then char c else none

/-- Without Unicode, a class must hold no byte above 127. -/
def checkBytes (flags : Flags) (s : CharSet) : Option CharSet :=
  if flags.unicode || (List.range' 128 128).all fun n => !s.contains (Char.ofNat n) then some s
  else none

/-- A single character or escape inside brackets. -/
def readMember (properties : CharSet.Properties) (flags : Flags) : Text → Option (Unit × Text)
  | [] => none
  | '\\' :: s => readEscape properties flags s
  | c :: s => some (.char c, s)

/-- A member or range of members inside brackets. -/
def readRange (properties : CharSet.Properties) (flags : Flags) (s : Text) :
    Option (CharSet × Text) := do
  let (a, r) ← readMember properties flags s
  let r := skipVerbose flags r
  if r.isEmpty then none
  let single : Option (CharSet × Text) :=
    match a with
    | .char c => if allowed flags c then some (.single c, r) else none
    | .set t => some (t, r)
    | .assertion _ => none
  match r with
  | '-' :: t =>
      let next := (skipVerbose flags t).head?
      if next == some ']' || next == some '-' then single
      else
        match skipVerbose flags t with
        | [] => none
        | t => do
            let (b, r) ← readMember properties flags t
            match a, b with
            | .char c, .char d =>
                if c ≤ d && allowed flags c && allowed flags d then some (.range c d, r) else none
            | _, _ => none
  | _ => single

/-- A named class such as `[:alpha:]`, read from its first bracket. -/
def readNamedSet (flags : Flags) : Text → Option (CharSet × Text)
  | '[' :: ':' :: s => do
      let (negated, s) := match s with
        | '^' :: r => (true, r)
        | r => (false, r)
      let set ← CharSet.named? (String.ofList (s.takeWhile (· != ':')))
      match s.dropWhile (· != ':') with
      | ':' :: ']' :: r => return (.complIf negated (foldCase flags set), r)
      | _ => none
  | _ => none

inductive SetOp
  | intersection
  | difference
  | symmetricDifference
  deriving DecidableEq, Repr

def SetOp.apply : SetOp → CharSet → CharSet → CharSet
  | .intersection, a, b => .inter a b
  | .difference, a, b => .inter a (.compl b)
  | .symmetricDifference, a, b => .union (.inter a (.compl b)) (.inter b (.compl a))

/-- The operator at the start of a text. -/
def readSetOp : Text → Option (SetOp × Text)
  | '&' :: '&' :: s => some (.intersection, s)
  | '-' :: '-' :: s => some (.difference, s)
  | '~' :: '~' :: s => some (.symmetricDifference, s)
  | _ => none

/-- The start of a class after its bracket: whether it is negated, and the members that only the
start of a class can hold. -/
def readSetStart (flags : Flags) (s : Text) : Option (Bool × CharSet × Text) := do
  let s := skipVerbose flags s
  if s.isEmpty then none
  let (negated, s) := match s with
    | '^' :: r => (true, skipVerbose flags r)
    | r => (false, r)
  let isDash (c : Char) : Bool := c == '-' || (flags.verbose && isBlank c)
  let (dashes, s) := if s.head? == some '-' then (CharSet.single '-', s.dropWhile isDash)
    else (.empty, s)
  if s.isEmpty then none
  match s with
  | ']' :: r =>
      if dashes == .empty then
        let r := skipVerbose flags r
        if r.isEmpty then none else return (negated, .single ']', r)
      else return (negated, dashes, s)
  | _ => return (negated, dashes, s)

/-- Reads the members of a class up to its closing bracket. `pending` is an operator with its left
operand, `held` the members read since. -/
def readSet (properties : CharSet.Properties) (fuel : Nat) (flags : Flags) (negated : Bool)
    (pending : Option (SetOp × CharSet)) (held : CharSet) (s : Text) : Option (CharSet × Text) :=
  match fuel with
  | 0 => none
  | fuel + 1 =>
      let operand := foldCase flags held
      let whole := match pending with
        | some (op, left) => op.apply left operand
        | none => operand
      match skipVerbose flags s with
      | [] => none
      | ']' :: r => (checkBytes flags (.complIf negated whole)).map (·, r)
      | '[' :: r =>
          match readNamedSet flags ('[' :: r) with
          | some (set, r) => readSet properties fuel flags negated pending (.union held set) r
          | none => do
              let (inner, start, r) ← readSetStart flags r
              let (set, r) ← readSet properties fuel flags inner none start r
              readSet properties fuel flags negated pending (.union held set) r
      | r =>
          match readSetOp r with
          | some (op, r) => readSet properties fuel flags negated (some (op, whole)) .empty r
          | none => do
              let (set, r) ← readRange properties flags r
              readSet properties fuel flags negated pending (.union held set) r

/-- Reads flags after `(?` up to a `)` or `:`, and tells which of the two ends them. -/
def readFlags (fuel : Nat) (flags : Flags) (seen : List Char) (off : Bool) (s : Text) :
    Option (Flags × List Char × Char × Text) :=
  match fuel, s with
  | fuel + 1, c :: r =>
      if c = ':' ∨ c = ')' then
        if off && seen.head? == some '-' then none else some (flags, seen, c, r)
      else if seen.contains c then none
      else
        let next (f : Flags) := readFlags fuel f (c :: seen) off r
        match c with
        | '-' => readFlags fuel flags (c :: seen) true r
        | 'i' => next { flags with caseless := !off }
        | 'm' => next { flags with multiLine := !off }
        | 's' => next { flags with dotAll := !off }
        | 'R' => next { flags with returns := !off }
        | 'u' => next { flags with unicode := !off }
        | 'x' => next { flags with verbose := !off }
        | 'U' => next flags
        | _ => none
  | _, _ => none

def isNameStart (c : Char) : Bool := c == '_' || isAlphabetic c

def isNameChar (c : Char) : Bool :=
  isNameStart c || c == '.' || c == '[' || c == ']' ||
    (CharSet.inCategories [.decimalNumber, .letterNumber, .otherNumber]).contains c

/-- The name of a group, up to its `>`. -/
def readGroupName (s : Text) : Option (Text × Text) :=
  let name := s.takeWhile (· != '>')
  match name, s.dropWhile (· != '>') with
  | c :: cs, '>' :: r => if isNameStart c && cs.all isNameChar then some (name, r) else none
  | _, _ => none

/-- How a group begins: at once with its content, given by a name, or with flags of its own; or it
is no group but flags for what follows. -/
inductive GroupStart
  | content (name : Option Text) (flags : Flags)
  | setting (flags : Flags)

/-- Reads what follows an opening parenthesis. Looking ahead or behind is not possible. -/
def readGroupStart (flags : Flags) (s : Text) : Option (GroupStart × Text) :=
  match skipVerbose flags s with
  | '?' :: '=' :: _ | '?' :: '!' :: _ | '?' :: '<' :: '=' :: _ | '?' :: '<' :: '!' :: _ => none
  | '?' :: 'P' :: '<' :: r | '?' :: '<' :: r =>
      (readGroupName r).map fun (name, r) => (.content (some name) flags, r)
  | '?' :: r => do
      let (inner, seen, last, r) ← readFlags (r.length + 1) flags [] false r
      if last = ':' then return (.content none inner, r)
      else if seen.isEmpty then none
      else return (.setting inner, r)
  | r => some (.content none flags, r)

/-- A decimal number with blanks around it. -/
def readCount (s : Text) : Option (Nat × Text) :=
  let s := s.dropWhile isBlank
  let digits := s.takeWhile isDecimalDigit
  if digits.isEmpty || decimalValue digits ≥ 0x100000000 then none
  else some (decimalValue digits, (s.dropWhile isDecimalDigit).dropWhile isBlank)

/-- The bounds of a counted repetition, read from after its brace. -/
def readBounds (flags : Flags) (s : Text) : Option (Nat × Option Nat × Text) := do
  let (least, r) ← readCount (skipVerbose flags s)
  match r with
  | '}' :: r => return (least, some least, r)
  | ',' :: r =>
      match skipVerbose flags r with
      | '}' :: r => return (least, none, r)
      | r =>
          let (most, r) ← readCount r
          match r with
          | '}' :: r => if least ≤ most then return (least, some most, r) else none
          | _ => none
  | _ => none

/-- Drops the mark of a repetition that prefers few rounds. It does not matter for whether there is
a match. -/
def skipLazy : Text → Text
  | '?' :: s => s
  | s => s

/-- A repetition sign at the start of a text, with its bounds. -/
def readRepetition (flags : Flags) : Text → Option (Option (Nat × Option Nat × Text))
  | '*' :: s => some (some (0, none, skipLazy s))
  | '+' :: s => some (some (1, none, skipLazy s))
  | '?' :: s => some (some (0, some 1, skipLazy s))
  | '{' :: s =>
      (readBounds flags s).map fun (a, b, r) => some (a, b, skipLazy (skipVerbose flags r))
  | _ => some none

def charPattern (flags : Flags) (c : Char) : Option Pattern :=
  if allowed flags c then some (.oneOf (foldCase flags (.single c))) else none

def dotPattern (flags : Flags) : Option Pattern :=
  if !flags.unicode then none
  else if flags.dotAll then some (.oneOf .all)
  else if flags.returns then some (.oneOf (.compl (.union (.single '\n') (.single '\r'))))
  else some (.oneOf (.compl (.single '\n')))

def unitPattern (flags : Flags) : Unit → Option Pattern
  | .char c => charPattern flags c
  | .set s => some (.oneOf (foldCase flags s))
  | .assertion a => some (.assert a)

/-- What has been read of a group: the alternatives before the present one, and the parts of the
present one, both newest first. A part that only sets flags is missing. -/
structure Draft where
  alternatives : List Pattern := []
  parts : List (Option Pattern) := []
  names : List Text := []

def Draft.push (d : Draft) (p : Option Pattern) : Draft := { d with parts := p :: d.parts }

def Draft.closeAlternative (d : Draft) : Draft :=
  { d with
    alternatives := concat (d.parts.reverse.filterMap id) :: d.alternatives
    parts := [] }

def Draft.pattern (d : Draft) : Pattern :=
  match d.closeAlternative.alternatives with
  | [] => .empty
  | a :: as => as.foldl (fun p q => .alt q p) a

/-- Reads up to the end of a group, or to the end of the text. -/
def readGroup (properties : CharSet.Properties) (fuel : Nat) (flags : Flags) (d : Draft)
    (s : Text) : Option (Draft × Text) :=
  match fuel with
  | 0 => none
  | fuel + 1 =>
      match skipVerbose flags s with
      | [] => some (d, [])
      | ')' :: r => some (d, ')' :: r)
      | '|' :: r => readGroup properties fuel flags d.closeAlternative r
      | '(' :: r => do
          match ← readGroupStart flags r with
          | (.setting inner, r) => readGroup properties fuel inner (d.push none) r
          | (.content name inner, r) =>
              if name.any d.names.contains then none
              let (g, r) ← readGroup properties fuel inner { names := name.toList ++ d.names } r
              match r with
              | ')' :: r =>
                  readGroup properties fuel flags
                    { d.push (some g.pattern) with names := g.names } r
              | _ => none
      | '[' :: r => do
          let (negated, start, r) ← readSetStart flags r
          let (set, r) ← readSet properties (2 * r.length + 2) flags negated none start r
          readGroup properties fuel flags (d.push (some (.oneOf set))) r
      | '.' :: r => do readGroup properties fuel flags (d.push (some (← dotPattern flags))) r
      | '^' :: r =>
          let a := if flags.multiLine then .lineStart flags.returns else .textStart
          readGroup properties fuel flags (d.push (some (.assert a))) r
      | '$' :: r =>
          let a := if flags.multiLine then .lineEnd flags.returns else .textEnd
          readGroup properties fuel flags (d.push (some (.assert a))) r
      | '\\' :: r => do
          let (unit, r) ← readEscape properties flags r
          readGroup properties fuel flags (d.push (some (← unitPattern flags unit))) r
      | c :: r => do
          match ← readRepetition flags (c :: r) with
          | some (least, most, r) =>
              match d.parts with
              | some p :: ps =>
                  readGroup properties fuel flags
                    { d with parts := some (.repeated p least most) :: ps } r
              | _ => none
          | none => readGroup properties fuel flags (d.push (some (← charPattern flags c))) r

/-- Reads a whole expression. -/
def parse (s : Text) (properties : CharSet.Properties := CharSet.property?) : Option Pattern := do
  let (d, r) ← readGroup properties (s.length + 1) {} {} s
  if r.isEmpty then return d.pattern else none

end MarkupHighlight.Pattern
