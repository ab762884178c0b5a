import MarkupHighlight.Text.Basic

/-!
Lines and columns of byte offsets, in two systems: counted from one in characters, for people, and
counted from zero in UTF-16 units, for source maps.
-/
namespace MarkupHighlight

structure LineColumn where
  line : Nat
  column : Nat
  deriving DecidableEq, Repr

/-- Line and column, from one, of the last character boundary at or before byte `n`. -/
def lineColumn (s : Text) (n : Nat) : LineColumn :=
  let read := takeBytes s n
  ⟨read.count '\n' + 1, (read.reverse.takeWhile (· != '\n')).length + 1⟩

/-- Number of UTF-16 units of a character. -/
def utf16Width (c : Char) : Nat := if c.toNat < 0x10000 then 1 else 2

def utf16Size : Text → Nat
  | [] => 0
  | c :: s => utf16Width c + utf16Size s

/-- The offsets just after the line feeds of `s`, where `s` stands at `base`. -/
def lineStartsFrom (base : Nat) : Text → List Nat
  | [] => []
  | c :: s =>
      let next := base + c.utf8Size
      if c = '\n' then next :: lineStartsFrom next s else lineStartsFrom next s

/-- A text with the offsets at which its lines start. -/
structure LineTable where
  text : Text
  starts : List Nat
  deriving Repr

def LineTable.ofText (s : Text) : LineTable := ⟨s, 0 :: lineStartsFrom 0 s⟩

def LineTable.lineCount (t : LineTable) : Nat := t.starts.length

/-- Line and column, from zero, of byte `n`: the last line that starts at or before `n`, and the
UTF-16 units from its start. -/
def LineTable.position (t : LineTable) (n : Nat) : LineColumn :=
  let line := (t.starts.takeWhile (· ≤ n)).length - 1
  let start := (t.starts[line]?).getD 0
  ⟨line, utf16Size (sliceBytes t.text start n)⟩

end MarkupHighlight
