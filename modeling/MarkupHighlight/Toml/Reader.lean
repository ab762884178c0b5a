import MarkupHighlight.Text.Lines

/-!
The words of a TOML document: keys, strings, numbers, dates, arrays and inline tables. A reader
gives what it has read and the text after it.
-/
namespace MarkupHighlight.Toml

/-- The values of a document. Dates and fractions are kept as written. -/
inductive Value
  | string (s : Text)
  | integer (n : Int)
  | fraction (lexeme : Text)
  | boolean (b : Bool)
  | date (lexeme : Text)
  | array (items : List Value)
  | table (fields : List (Text × Value))
  deriving Repr

def isBlankChar (c : Char) : Bool := c == ' ' || c == '\t'

def skipBlanks (s : Text) : Text := s.dropWhile isBlankChar

/-- Control characters stand nowhere; a tab is none here. -/
def isControl (c : Char) : Bool := (c.toNat < 32 && c != '\t') || c.toNat == 127

/-- What follows a line end. -/
def afterNewline? : Text → Option Text
  | '\n' :: s => some s
  | '\r' :: '\n' :: s => some s
  | _ => none

/-- What follows a comment up to its line end, if one starts here. -/
def skipComment : Text → Option Text
  | '#' :: s =>
      let r := s.dropWhile fun c => !isControl c
      if r.isEmpty || (afterNewline? r).isSome then some r else none
  | s => some s

/-- Skips blanks, line ends and comments. -/
def skipLines : Nat → Text → Option Text
  | 0, s => some s
  | n + 1, s => do
      let r ← skipComment (skipBlanks s)
      match afterNewline? r with
      | some r => skipLines n r
      | none => some r

def skipSpace (s : Text) : Option Text := skipLines (s.length + 1) s

/-- What follows the rest of a line that holds nothing more. -/
def endLine (s : Text) : Option Text := do
  let r ← skipComment (skipBlanks s)
  if r.isEmpty then some [] else afterNewline? r

def charOfHex? (digits : Text) (width : Nat) : Option Char := do
  if digits.length < width then none
  let n ← hexNumber? digits
  if n.isValidChar then some (Char.ofNat n) else none

/-- The character of an escape, read after its backslash. -/
def readEscape : Text → Option (Char × Text)
  | 'b' :: s => some ('\x08', s)
  | 't' :: s => some ('\t', s)
  | 'n' :: s => some ('\n', s)
  | 'f' :: s => some ('\x0c', s)
  | 'r' :: s => some ('\r', s)
  | 'e' :: s => some ('\x1b', s)
  | '\\' :: s => some ('\\', s)
  | '\x22' :: s => some ('\x22', s)
  | 'x' :: s => (charOfHex? (s.take 2) 2).map (·, s.drop 2)
  | 'u' :: s => (charOfHex? (s.take 4) 4).map (·, s.drop 4)
  | 'U' :: s => (charOfHex? (s.take 8) 8).map (·, s.drop 8)
  | _ => none

/-- The rest of a string in double quotes. -/
def readBasic : Nat → Text → Option (Text × Text)
  | n + 1, c :: s =>
      if c = '\x22' then some ([], s)
      else if c = '\\' then do
        let (d, r) ← readEscape s
        let (t, r) ← readBasic n r
        return (d :: t, r)
      else if isControl c then none
      else (readBasic n s).map fun (t, r) => (c :: t, r)
  | _, _ => none

/-- The rest of a string in single quotes. -/
def readLiteral : Text → Option (Text × Text)
  | [] => none
  | c :: s =>
      if c = '\x27' then some ([], s)
      else if isControl c then none
      else (readLiteral s).map fun (t, r) => (c :: t, r)

/-- The end of a string in triple quotes: up to two more quotes belong to the string. -/
def closeTriple (quote : Char) (s : Text) : Option (Text × Text) :=
  let run := (s.takeWhile (· == quote)).length
  if 3 ≤ run then
    let kept := min (run - 3) 2
    some (List.replicate kept quote, s.drop (kept + 3))
  else none

/-- After a backslash at the end of a line, the text from the next character on that is no blank and
no line end. -/
def afterLineBreak? (s : Text) : Option Text :=
  match afterNewline? (skipBlanks s) with
  | some r => some (r.dropWhile fun c => isBlankChar c || c == '\n' || c == '\r')
  | none => none

/-- The rest of a string in triple double quotes. -/
def readLongBasic : Nat → Text → Option (Text × Text)
  | n + 1, c :: s =>
      match closeTriple '\x22' (c :: s) with
      | some r => some r
      | none =>
          if c = '\\' then
            match afterLineBreak? s with
            | some r => readLongBasic n r
            | none => do
                let (d, r) ← readEscape s
                let (t, r) ← readLongBasic n r
                return (d :: t, r)
          else
            match afterNewline? (c :: s) with
            | some r => (readLongBasic n r).map fun (t, r) => ('\n' :: t, r)
            | none =>
                if isControl c then none
                else (readLongBasic n s).map fun (t, r) => (c :: t, r)
  | _, _ => none

/-- The rest of a string in triple single quotes. -/
def readLongLiteral : Nat → Text → Option (Text × Text)
  | n + 1, c :: s =>
      match closeTriple '\x27' (c :: s) with
      | some r => some r
      | none =>
          match afterNewline? (c :: s) with
          | some r => (readLongLiteral n r).map fun (t, r) => ('\n' :: t, r)
          | none =>
              if isControl c then none
              else (readLongLiteral n s).map fun (t, r) => (c :: t, r)
  | _, _ => none

/-- A line end right after three opening quotes does not count. -/
def skipFirstNewline (s : Text) : Text := (afterNewline? s).getD s

/-- A string of any kind. -/
def readString? : Text → Option (Option (Text × Text))
  | '\x22' :: '\x22' :: '\x22' :: s =>
      let t := skipFirstNewline s
      some (readLongBasic (t.length + 1) t)
  | '\x27' :: '\x27' :: '\x27' :: s =>
      let t := skipFirstNewline s
      some (readLongLiteral (t.length + 1) t)
  | '\x22' :: s => some (readBasic (s.length + 1) s)
  | '\x27' :: s => some (readLiteral s)
  | _ => none

def isBareKeyChar (c : Char) : Bool := c.isAlphanum || c == '_' || c == '-'

/-- One part of a key. -/
def readKeyPart (s : Text) : Option (Text × Text) :=
  match s with
  | '\x22' :: r => readBasic (r.length + 1) r
  | '\x27' :: r => readLiteral r
  | _ =>
      let name := s.takeWhile isBareKeyChar
      if name.isEmpty then none else some (name, s.dropWhile isBareKeyChar)

/-- A key: parts with dots between them. -/
def readKey : Nat → Text → Option (List Text × Text)
  | 0, _ => none
  | n + 1, s => do
      let (part, r) ← readKeyPart (skipBlanks s)
      match skipBlanks r with
      | '.' :: r => (readKey n r).map fun (more, r) => (part :: more, r)
      | r => return ([part], r)

/-- Digits with single `_` between them. -/
def isDigitRow (isDigit : Char → Bool) (s : Text) : Bool :=
  (splitOnChar '_' s).all fun part => !part.isEmpty && part.all isDigit

def dropUnderscores (s : Text) : Text := s.filter (· != '_')

/-- The number that digits below `base` write. -/
def digitsValue (base : Nat) (digits : Text) : Nat :=
  digits.foldl (fun n c => base * n + (hexDigit? c).getD 0) 0

/-- Splits a sign off. -/
def splitSign : Text → Option Char × Text
  | '+' :: s => (some '+', s)
  | '-' :: s => (some '-', s)
  | s => (none, s)

/-- A whole decimal number has no leading zero. -/
def isWhole (s : Text) : Bool :=
  isDigitRow isDecimalDigit s && (s.length == 1 || s.head? != some '0')

def inWord (n : Int) : Option Value :=
  if -0x8000000000000000 ≤ n ∧ n < 0x8000000000000000 then some (.integer n) else none

def integer? (s : Text) : Option Value :=
  let based (base : Nat) (isDigit : Char → Bool) (t : Text) : Option Value :=
    if isDigitRow isDigit t then inWord (digitsValue base (dropUnderscores t)) else none
  match s with
  | '0' :: 'x' :: t => based 16 (fun c => (hexDigit? c).isSome) t
  | '0' :: 'o' :: t => based 8 (fun c => '0' ≤ c && c ≤ '7') t
  | '0' :: 'b' :: t => based 2 (fun c => c == '0' || c == '1') t
  | _ =>
      let (sign, t) := splitSign s
      if isWhole t then
        let n : Int := digitsValue 10 (dropUnderscores t)
        inWord (if sign = some '-' then -n else n)
      else none

def fraction? (s : Text) : Option Value :=
  let t := (splitSign s).2
  if t == "inf".toList || t == "nan".toList then some (.fraction s)
  else
    let isMark (c : Char) : Bool := c == 'e' || c == 'E'
    let mantissa := t.takeWhile fun c => !isMark c
    let exponentOk := match t.dropWhile fun c => !isMark c with
      | [] => true
      | _ :: e => isDigitRow isDecimalDigit (splitSign e).2
    let whole := mantissa.takeWhile (· != '.')
    let partOk := match mantissa.dropWhile (· != '.') with
      | [] => mantissa.length < t.length
      | _ :: part => isDigitRow isDecimalDigit part
    if isWhole whole && partOk && exponentOk then some (.fraction s) else none

/-- A number of exactly `width` digits between two bounds. -/
def fixedNumber? (width low high : Nat) (s : Text) : Option (Nat × Text) :=
  let digits := s.take width
  let n := decimalValue digits
  if digits.length = width ∧ digits.all isDecimalDigit ∧ low ≤ n ∧ n ≤ high then
    some (n, s.drop width)
  else none

def isLeap (year : Nat) : Bool := year % 4 == 0 && (year % 100 != 0 || year % 400 == 0)

def daysIn (year month : Nat) : Nat :=
  if month = 2 then if isLeap year then 29 else 28
  else if [4, 6, 9, 11].contains month then 30
  else 31

/-- What follows a calendar date. -/
def afterDate? (s : Text) : Option Text := do
  let (year, s) ← fixedNumber? 4 0 9999 s
  let '-' :: s := s | none
  let (month, s) ← fixedNumber? 2 1 12 s
  let '-' :: s := s | none
  let (_, s) ← fixedNumber? 2 1 (daysIn year month) s
  return s

/-- What follows a time of day. Seconds may be missing. -/
def afterTime? (s : Text) : Option Text := do
  let (_, s) ← fixedNumber? 2 0 23 s
  let ':' :: s := s | none
  let (_, s) ← fixedNumber? 2 0 59 s
  match s with
  | ':' :: s =>
      let (_, s) ← fixedNumber? 2 0 60 s
      match s with
      | '.' :: t =>
          let r := t.dropWhile isDecimalDigit
          if r.length < t.length then some r else none
      | _ => some s
  | _ => some s

/-- Whether a text is nothing or a distance to universal time. -/
def isOffset : Text → Bool
  | [] => true
  | [c] => c == 'Z' || c == 'z'
  | c :: s =>
      (c == '+' || c == '-') &&
        match fixedNumber? 2 0 23 s with
        | some (_, ':' :: t) => (fixedNumber? 2 0 59 t).map (·.2) == some []
        | _ => false

def date? (s : Text) : Option Value :=
  let valid := match afterDate? s with
    | some [] => true
    | some (c :: r) =>
        (c == 'T' || c == 't' || c == ' ') &&
          match afterTime? r with
          | some t => isOffset t
          | none => false
    | none => afterTime? s == some []
  if valid then some (.date s) else none

def isWordChar (c : Char) : Bool :=
  c.isAlphanum || c == '_' || c == '-' || c == '+' || c == '.' || c == ':'

/-- Splits off a word that is a value. A blank may stand between a date and a time. -/
def splitWord (s : Text) : Text × Text :=
  let word := s.takeWhile isWordChar
  match s.dropWhile isWordChar with
  | ' ' :: d :: r =>
      if (afterDate? word == some []) && isDecimalDigit d then
        (word ++ ' ' :: (d :: r).takeWhile isWordChar, (d :: r).dropWhile isWordChar)
      else (word, ' ' :: d :: r)
  | r => (word, r)

/-- A value that is one word. -/
def wordValue? (s : Text) : Option Value :=
  if s == "true".toList then some (.boolean true)
  else if s == "false".toList then some (.boolean false)
  else ((integer? s).orElse fun _ => fraction? s).orElse fun _ => date? s

/-- Puts a value at the end of a dotted key into the fields of an inline table. `none` if the place
is taken. -/
def insertInline (fields : List (Text × Value)) (key : List Text) (v : Value) :
    Option (List (Text × Value)) :=
  match key with
  | [] => none
  | [k] => if fields.any (·.1 == k) then none else some (fields ++ [(k, v)])
  | k :: ks =>
      match fields.find? (·.1 == k) with
      | none => (insertInline [] ks v).map fun inner => fields ++ [(k, .table inner)]
      | some (_, .table inner) =>
          (insertInline inner ks v).map fun inner' =>
            fields.map fun (n, w) => if n == k then (n, .table inner') else (n, w)
      | some _ => none

mutual

/-- Reads one value. The first argument bounds the nesting and the number of items. -/
def readValue (fuel : Nat) (s : Text) : Option (Value × Text) :=
  match fuel with
  | 0 => none
  | fuel + 1 =>
      match readString? s with
      | some r? => r?.map fun (t, r) => (.string t, r)
      | none =>
          match s with
          | '[' :: r => (readItems fuel r).map fun (vs, r) => (.array vs, r)
          | '{' :: r => (readFields fuel [] r).map fun (fs, r) => (.table fs, r)
          | _ =>
              let (word, r) := splitWord s
              (wordValue? word).map (·, r)
  termination_by structural fuel

/-- Reads the items of an array up to its closing bracket. -/
def readItems (fuel : Nat) (s : Text) : Option (List Value × Text) :=
  match fuel with
  | 0 => none
  | fuel + 1 => do
      match ← skipSpace s with
      | ']' :: r => return ([], r)
      | r =>
          let (v, r) ← readValue fuel r
          match ← skipSpace r with
          | ',' :: r => (readItems fuel r).map fun (vs, r) => (v :: vs, r)
          | ']' :: r => return ([v], r)
          | _ => none
  termination_by structural fuel

/-- Reads the fields of an inline table up to its closing brace. -/
def readFields (fuel : Nat) (fields : List (Text × Value)) (s : Text) :
    Option (List (Text × Value) × Text) :=
  match fuel with
  | 0 => none
  | fuel + 1 => do
      match ← skipSpace s with
      | '}' :: r => return (fields, r)
      | r =>
          let (key, r) ← readKey (r.length + 1) r
          let '=' :: r := skipBlanks r | none
          let (v, r) ← readValue fuel (skipBlanks r)
          let fields ← insertInline fields key v
          match ← skipSpace r with
          | ',' :: r => readFields fuel fields r
          | '}' :: r => return (fields, r)
          | _ => none
  termination_by structural fuel

end

end MarkupHighlight.Toml
