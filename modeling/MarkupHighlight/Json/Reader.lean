import MarkupHighlight.Json.Value

/-! Reading JSON text. The whole text must be one value with blanks around it. -/
namespace MarkupHighlight.Json

def isSpace (c : Char) : Bool := c == ' ' || c == '\n' || c == '\r' || c == '\t'

def skipSpace (s : Text) : Text := s.dropWhile isSpace

/-- The character that a one-letter escape names. -/
def simpleEscape? (c : Char) : Option Char :=
  if c = '\x22' || c = '\\' || c = '/' then some c
  else if c = 'b' then some '\x08'
  else if c = 'f' then some '\x0c'
  else if c = 'n' then some '\n'
  else if c = 'r' then some '\r'
  else if c = 't' then some '\t'
  else none

/-- Reads a UTF-16 unit written as `\uXXXX`. -/
def readUnit? : Text → Option (Nat × Text)
  | '\\' :: 'u' :: s =>
      if (s.take 4).length = 4 then (hexNumber? (s.take 4)).map (·, s.drop 4) else none
  | _ => none

def isHighUnit (n : Nat) : Bool := 0xD800 ≤ n && n < 0xDC00

def isLowUnit (n : Nat) : Bool := 0xDC00 ≤ n && n < 0xE000

/-- The character that a high and a low unit write. -/
def pairChar (high low : Nat) : Char :=
  Char.ofNat (0x10000 + (high - 0xD800) * 0x400 + (low - 0xDC00))

/-- The character that starts with the unit `n`, if there is one, and what follows its escapes. -/
def joinUnits (n : Nat) (s : Text) : Option Char × Text :=
  if isHighUnit n then
    match readUnit? s with
    | some (low, r) => if isLowUnit low then (some (pairChar n low), r) else (none, s)
    | none => (none, s)
  else if isLowUnit n then (none, s)
  else (some (Char.ofNat n), s)

theorem readUnit?_length {s r : Text} {n : Nat} (h : readUnit? s = some (n, r)) :
    r.length < s.length := by
  unfold readUnit? at h
  split at h
  · split at h
    · obtain ⟨m, -, he⟩ := Option.map_eq_some_iff.1 h
      obtain ⟨-, rfl⟩ := Prod.mk.inj he
      simp
      omega
    · simp at h
  · simp at h

theorem joinUnits_length (n : Nat) (s : Text) : (joinUnits n s).2.length ≤ s.length := by
  unfold joinUnits
  split
  · split
    · rename_i h
      have := readUnit?_length h
      split <;> simp <;> omega
    · simp
  · split <;> simp

/-- Reads a string from just after its opening quote. -/
def readString (s : Text) : Option (Option Text × Text) :=
  match s with
  | [] => none
  | '\\' :: r =>
      match _h : readUnit? ('\\' :: r) with
      | some (n, t) =>
          let joined := joinUnits n t
          (readString joined.2).map fun (more, rest) =>
            ((do return (← joined.1) :: (← more)), rest)
      | none =>
          match r with
          | [] => none
          | c :: t => do
              let d ← simpleEscape? c
              let (more, rest) ← readString t
              return (more.map (d :: ·), rest)
  | c :: t =>
      if c = '\x22' then some (some [], t)
      else if c.toNat < 32 then none
      else (readString t).map fun (more, rest) => (more.map (c :: ·), rest)
  termination_by s.length
  decreasing_by
    · have := readUnit?_length _h
      have := joinUnits_length n t
      simp only [List.length_cons] at *
      omega
    · simp only [List.length_cons]
      omega
    · simp only [List.length_cons]
      omega

/-- Splits off the decimal digits at the start, one at least. -/
def readDigits? (s : Text) : Option (Text × Text) :=
  let ds := s.takeWhile isDecimalDigit
  if ds.isEmpty then none else some (ds, s.dropWhile isDecimalDigit)

/-- Splits off a fraction, if one starts here. -/
def readFraction? : Text → Option (Text × Text)
  | '.' :: s => (readDigits? s).map fun (ds, r) => ('.' :: ds, r)
  | s => some ([], s)

/-- Splits off an exponent, if one starts here. -/
def readExponent? : Text → Option (Text × Text)
  | c :: s =>
      if c = 'e' ∨ c = 'E' then
        match s with
        | d :: t =>
            if d = '+' ∨ d = '-' then (readDigits? t).map fun (ds, r) => (c :: d :: ds, r)
            else (readDigits? s).map fun (ds, r) => (c :: ds, r)
        | [] => none
      else some ([], c :: s)
  | [] => some ([], [])

/-- Splits off a number. Its whole part has no leading zero. -/
def readNumber? (s : Text) : Option (Text × Text) := do
  let (sign, s) := match s with
    | '-' :: r => (['-'], r)
    | r => ([], r)
  let (whole, s) ← readDigits? s
  if whole.length > 1 ∧ whole.head? = some '0' then none
  let (fraction, s) ← readFraction? s
  let (exponent, s) ← readExponent? s
  return (sign ++ whole ++ fraction ++ exponent, s)

mutual

/-- Reads one value. The first argument bounds the nesting; the length of the text always
suffices. -/
def readValue (fuel : Nat) (s : Text) : Option (Value × Text) :=
  match fuel with
  | 0 => none
  | fuel + 1 =>
      match skipSpace s with
      | 'n' :: 'u' :: 'l' :: 'l' :: r => some (.null, r)
      | 't' :: 'r' :: 'u' :: 'e' :: r => some (.bool true, r)
      | 'f' :: 'a' :: 'l' :: 's' :: 'e' :: r => some (.bool false, r)
      | '[' :: r =>
          match skipSpace r with
          | ']' :: t => some (.array [], t)
          | t => (readItems fuel t).map fun (vs, t) => (.array vs, t)
      | '{' :: r =>
          match skipSpace r with
          | '}' :: t => some (.object [], t)
          | t => (readFields fuel t).map fun (fs, t) => (.object fs, t)
      | '\x22' :: r => (readString r).map fun (t, r) => (.string t, r)
      | r => (readNumber? r).map fun (n, r) => (.number n, r)
  termination_by structural fuel

/-- Reads the items of an array up to its closing bracket. -/
def readItems (fuel : Nat) (s : Text) : Option (List Value × Text) :=
  match fuel with
  | 0 => none
  | fuel + 1 => do
      let (v, r) ← readValue fuel s
      match skipSpace r with
      | ',' :: t =>
          let (vs, t) ← readItems fuel t
          return (v :: vs, t)
      | ']' :: t => return ([v], t)
      | _ => none
  termination_by structural fuel

/-- Reads the fields of an object up to its closing brace. -/
def readFields (fuel : Nat) (s : Text) : Option (List (Option Text × Value) × Text) :=
  match fuel with
  | 0 => none
  | fuel + 1 =>
      match skipSpace s with
      | '\x22' :: s => do
          let (key, r) ← readString s
          match skipSpace r with
          | ':' :: r =>
              let (v, r) ← readValue fuel r
              match skipSpace r with
              | ',' :: t =>
                  let (fs, t) ← readFields fuel t
                  return ((key, v) :: fs, t)
              | '}' :: t => return ([(key, v)], t)
              | _ => none
          | _ => none
      | _ => none
  termination_by structural fuel

end

/-- Reads a text that holds one value and nothing else. -/
def parse (s : Text) : Option Value :=
  match readValue (2 * s.length + 1) s with
  | some (v, r) => if (skipSpace r).isEmpty then some v else none
  | none => none

end MarkupHighlight.Json
