import MarkupHighlight.Text.Basic

/-!
Signed numbers as Base64 digits of five bits each, low digit first, the sign in the lowest bit and
a sixth bit on every digit but the last. A number read back keeps 64 bits and no more.
-/
namespace MarkupHighlight.Vlq

def alphabet : Text :=
  "ABCDEFGHIJKLMNOPQRSTUVWXYZabcdefghijklmnopqrstuvwxyz0123456789+/".toList

def digitChar (n : Nat) : Char := (alphabet[n]?).getD 'A'

def digit? (c : Char) : Option Nat := alphabet.findIdx? (· == c)

/-- The digits of a natural number. -/
def encodeNat (n : Nat) : Text :=
  if n < 32 then [digitChar n] else digitChar (n % 32 + 32) :: encodeNat (n / 32)

/-- The number with its sign in the lowest bit. -/
def zigzag (n : Int) : Nat := if n < 0 then 2 * n.natAbs + 1 else 2 * n.natAbs

def encode (n : Int) : Text := encodeNat (zigzag n)

def unzigzag (n : Nat) : Int := if n % 2 = 1 then -(n / 2 : Nat) else (n / 2 : Nat)

/-- Numbers read back have 64 bits. -/
def wordSize : Nat := 0x10000000000000000

/-- Reads the numbers of a row of digits, with the low digits of the first one read already: they
have the value `low` and take `shift` bits. -/
def decodeFrom (low shift : Nat) : Text → Option (List Int)
  | [] => if shift = 0 then some [] else none
  | c :: s => do
      let d ← digit? c
      let value := (low + (d % 32) <<< shift) % wordSize
      if 32 ≤ d then
        if shift + 5 > 60 then none else decodeFrom value (shift + 5) s
      else
        let more ← decodeFrom 0 0 s
        return unzigzag value :: more

/-- The numbers that a row of digits writes. -/
def decode (s : Text) : Option (List Int) := decodeFrom 0 0 s

end MarkupHighlight.Vlq
