import MarkupHighlight.Text.Basic

/-!
The escape sequences of string and template literals. `unescape` gives the value of a literal's
body; an escape that names no character gives U+FFFD.
-/
namespace MarkupHighlight.Script

/-- The character that an escape's digits name. One `+` may stand before the digits. -/
def namedChar (digits : Text) : Char :=
  let number? := match digits with
    | '+' :: ds => hexNumber? ds
    | ds => hexNumber? ds
  match number? with
  | some n => if n.isValidChar then Char.ofNat n else '\ufffd'
  | none => '\ufffd'

/-- The value of one escape, read just after its backslash, and what follows the escape. A line
break after a backslash stands for nothing. -/
def readEscape : Text → Text × Text
  | [] => (['\\'], [])
  | 'n' :: s => (['\n'], s)
  | 't' :: s => (['\t'], s)
  | 'r' :: s => (['\r'], s)
  | 'b' :: s => (['\x08'], s)
  | 'f' :: s => (['\x0c'], s)
  | 'v' :: s => (['\x0b'], s)
  | '0' :: s => (['\x00'], s)
  | 'x' :: s => ([namedChar (s.take 2)], s.drop 2)
  | 'u' :: '{' :: s => ([namedChar (s.takeWhile (· != '}'))], (s.dropWhile (· != '}')).drop 1)
  | 'u' :: s => ([namedChar (s.take 4)], s.drop 4)
  | '\n' :: s => ([], s)
  | '\r' :: '\n' :: s => ([], s)
  | '\r' :: s => ([], s)
  | c :: s => ([c], s)

theorem readEscape_length (s : Text) : (readEscape s).2.length ≤ s.length := by
  have h (t : Text) : (t.dropWhile (· != '}')).length ≤ t.length :=
    (List.dropWhile_suffix _).length_le
  fun_cases readEscape s <;> simp <;> grind

/-- The value of the body of a string or template literal. -/
def unescape : Text → Text
  | [] => []
  | c :: s =>
      if c = '\\' then (readEscape s).1 ++ unescape (readEscape s).2 else c :: unescape s
  termination_by s => s.length
  decreasing_by
    · have := readEscape_length s
      simp only [List.length_cons]
      omega
    · simp

end MarkupHighlight.Script
