/-!
Texts as lists of characters, measured in UTF-8 bytes. Every offset of the library is a byte
offset; `splitAt?` turns one into a cut, and only at a character boundary.
-/
namespace MarkupHighlight

abbrev Text := List Char

/-- A range of byte offsets; `stop` is exclusive. -/
structure Span where
  start : Nat
  stop : Nat
  deriving DecidableEq, Repr

/-- Number of bytes of the UTF-8 form. -/
def byteSize : Text → Nat
  | [] => 0
  | c :: s => c.utf8Size + byteSize s

@[simp] theorem byteSize_nil : byteSize [] = 0 := rfl

@[simp] theorem byteSize_cons (c : Char) (s : Text) :
    byteSize (c :: s) = c.utf8Size + byteSize s := rfl

@[simp] theorem byteSize_append (s t : Text) : byteSize (s ++ t) = byteSize s + byteSize t := by
  induction s with
  | nil => simp
  | cons c s ih =>
      simp only [List.cons_append, byteSize_cons, ih]
      omega

/-- The part of `s` that stands before its tail `rest`. -/
def before (s rest : Text) : Text := s.take (s.length - rest.length)

@[simp] theorem before_append (p r : Text) : before (p ++ r) r = p := by
  simp [before]

/-- Cuts `s` in two at byte `n`, if `n` is a character boundary of `s`. -/
def splitAt? : Text → Nat → Option (Text × Text)
  | s, 0 => some ([], s)
  | [], _ + 1 => none
  | c :: s, n + 1 =>
      if c.utf8Size ≤ n + 1 then
        (splitAt? s (n + 1 - c.utf8Size)).map fun (p, r) => (c :: p, r)
      else none

/-- Byte `n` is the start of a character of `s` or its end. -/
def isBoundary (s : Text) (n : Nat) : Bool := (splitAt? s n).isSome

/-- The characters whose bytes all lie before byte `n`. -/
def takeBytes : Text → Nat → Text
  | [], _ => []
  | c :: s, n => if c.utf8Size ≤ n then c :: takeBytes s (n - c.utf8Size) else []

/-- What `takeBytes` leaves. -/
def dropBytes : Text → Nat → Text
  | [], _ => []
  | c :: s, n => if c.utf8Size ≤ n then dropBytes s (n - c.utf8Size) else c :: s

/-- The characters between two byte offsets. -/
def sliceBytes (s : Text) (start stop : Nat) : Text := takeBytes (dropBytes s start) (stop - start)

/-- The text of a span, if its ends are in order and at character boundaries of `s`. -/
def slice? (s : Text) (span : Span) : Option Text := do
  let (_, r) ← splitAt? s span.start
  if span.start ≤ span.stop then
    let (m, _) ← splitAt? r (span.stop - span.start)
    some m
  else none

@[simp] theorem takeBytes_append_dropBytes (s : Text) (n : Nat) :
    takeBytes s n ++ dropBytes s n = s := by
  induction s generalizing n with
  | nil => rfl
  | cons c s ih =>
      simp only [takeBytes, dropBytes]
      split <;> simp [ih]

theorem splitAt?_eq_some {s p r : Text} {n : Nat} (h : splitAt? s n = some (p, r)) :
    s = p ++ r ∧ byteSize p = n := by
  fun_induction splitAt? s n generalizing p r with
  | case1 s => simp_all
  | case2 => simp at h
  | case3 c s n hc ih =>
      obtain ⟨⟨q, t⟩, hq, he⟩ := Option.map_eq_some_iff.1 h
      obtain ⟨rfl, rfl⟩ := Prod.mk.inj he
      obtain ⟨rfl, hs⟩ := ih hq
      refine ⟨rfl, ?_⟩
      simp only [byteSize_cons]
      omega
  | case4 => simp at h

/-- ASCII letters to lower case; every other character stays. -/
def lowerAscii (s : Text) : Text := s.map Char.toLower

/-- What follows `lead` in `s`, if `s` starts with it. -/
def afterLead? : Text → Text → Option Text
  | [], s => some s
  | _ :: _, [] => none
  | a :: lead, c :: s => if a = c then afterLead? lead s else none

theorem afterLead?_eq_some_iff {lead s r : Text} : afterLead? lead s = some r ↔ s = lead ++ r := by
  induction lead generalizing s with
  | nil => simp [afterLead?, eq_comm]
  | cons a lead ih =>
      cases s with
      | nil => simp [afterLead?]
      | cons c s =>
          by_cases h : a = c
          · simp [afterLead?, h, ih]
          · simp [afterLead?, h, Ne.symm h]

/-- The first place where `needle` occurs: what stands before it and what follows it. -/
def splitOnFirst? (needle : Text) : Text → Option (Text × Text)
  | [] => (afterLead? needle []).map ([], ·)
  | c :: s =>
      match afterLead? needle (c :: s) with
      | some r => some ([], r)
      | none => (splitOnFirst? needle s).map fun (p, r) => (c :: p, r)

/-! Blanks: those that separate the parts of a tag, and those that trimming removes. -/

/-- Space, tab, line feed, form feed, carriage return. -/
def isTagBlank (c : Char) : Bool :=
  c == ' ' || c == '\t' || c == '\n' || c == '\x0c' || c == '\r'

/-- The Unicode property White_Space. -/
def isBlank (c : Char) : Bool :=
  let n := c.toNat
  (9 ≤ n && n ≤ 13) || n == 0x20 || n == 0x85 || n == 0xA0 || n == 0x1680 ||
    (0x2000 ≤ n && n ≤ 0x200A) || n == 0x2028 || n == 0x2029 || n == 0x202F || n == 0x205F ||
    n == 0x3000

def trimStart (s : Text) : Text := s.dropWhile isBlank

def trimEnd (s : Text) : Text := (s.reverse.dropWhile isBlank).reverse

def trim (s : Text) : Text := trimEnd (trimStart s)

/-! Numbers written in decimal and hexadecimal digits. -/

def decimal (n : Nat) : Text := (toString n).toList

def isDecimalDigit (c : Char) : Bool := '0' ≤ c && c ≤ '9'

/-- The number that a row of decimal digits writes. -/
def decimalValue (digits : Text) : Nat := digits.foldl (fun n c => 10 * n + (c.toNat - 48)) 0

def hexDigit? (c : Char) : Option Nat :=
  if '0' ≤ c ∧ c ≤ '9' then some (c.toNat - 48)
  else if 'a' ≤ c ∧ c ≤ 'f' then some (c.toNat - 87)
  else if 'A' ≤ c ∧ c ≤ 'F' then some (c.toNat - 55)
  else none

/-- The number that a row of hexadecimal digits writes, none for an empty row. -/
def hexNumber? (digits : Text) : Option Nat :=
  if digits.isEmpty then none
  else digits.foldlM (fun n c => (hexDigit? c).map (16 * n + ·)) 0

/-- The digit, in lower case, of a number below sixteen. -/
def hexChar (n : Nat) : Char := if n < 10 then Char.ofNat (48 + n) else Char.ofNat (87 + n)

/-- A number in hexadecimal digits, in lower case. -/
def hexText (n : Nat) : Text :=
  if n < 16 then [hexChar n] else hexText (n / 16) ++ [hexChar (n % 16)]

end MarkupHighlight
