import MarkupHighlight.Text.Basic

/-!
JSON values and their compact text. A number keeps its spelling, an object its order and repeated
keys; a string whose escapes name half of a surrogate pair has no text.
-/
namespace MarkupHighlight.Json

inductive Value
  | null
  | bool (b : Bool)
  | number (lexeme : Text)
  | string (s : Option Text)
  | array (items : List Value)
  | object (fields : List (Option Text × Value))
  deriving Repr

/-- How a character stands between quotes. -/
def escapeChar (c : Char) : Text :=
  if c = '\x22' then ['\\', '\x22']
  else if c = '\\' then ['\\', '\\']
  else if c = '\x08' then ['\\', 'b']
  else if c = '\x0c' then ['\\', 'f']
  else if c = '\n' then ['\\', 'n']
  else if c = '\r' then ['\\', 'r']
  else if c = '\t' then ['\\', 't']
  else if c.toNat < 32 then
    ['\\', 'u', '0', '0', hexChar (c.toNat / 16), hexChar (c.toNat % 16)]
  else [c]

def quote (s : Text) : Text := '\x22' :: s.flatMap escapeChar ++ ['\x22']

def bracket (opening closing : Char) (items : List Text) : Text :=
  opening :: [','].intercalate items ++ [closing]

def quoteArray (items : List Text) : Text := bracket '[' ']' (items.map quote)

/-- An object with the given keys and the texts of their values. -/
def objectText (fields : List (String × Text)) : Text :=
  bracket '{' '}' (fields.map fun (k, v) => quote k.toList ++ ':' :: v)

end MarkupHighlight.Json
