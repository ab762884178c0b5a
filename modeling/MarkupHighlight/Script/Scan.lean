import MarkupHighlight.Text.Basic

/-!
Where a script expression ends. One scanner reads a text against a stack of open constructs
(code, quoted strings, templates, comments) and answers what is left once the stack is empty.
`resume_length` says that closing a construct takes at least one character.
-/
namespace MarkupHighlight.Script

/-- A construct that is open, with the number of brackets open in it for code. -/
inductive Mode
  | code (depth : Nat)
  | quoted (quote : Char)
  | template
  | lineComment
  | blockComment
  deriving DecidableEq, Repr

def isQuote (c : Char) : Bool := c == '\x27' || c == '\x22'

def isOpening (c : Char) : Bool := c == '{' || c == '(' || c == '['

def isClosing (c : Char) : Bool := c == '}' || c == ')' || c == ']'

/-- Reads until every construct of the stack, innermost first, is closed. Code is closed by a `}`
at depth zero; any closing bracket answers any opening one. A line break ends a quoted string
without closing it, so the whole scan fails. -/
def resume : List Mode → Text → Option Text
  | [], s => some s
  | _ :: _, [] => none
  | .code d :: outer, '/' :: '*' :: s => resume (.blockComment :: .code d :: outer) s
  | .code d :: outer, '/' :: '/' :: s => resume (.lineComment :: .code d :: outer) s
  | .code d :: outer, c :: s =>
      if isQuote c then resume (.quoted c :: .code d :: outer) s
      else if c = '\x60' then resume (.template :: .code d :: outer) s
      else if isOpening c then resume (.code (d + 1) :: outer) s
      else if c = '}' ∧ d = 0 then resume outer s
      else if isClosing c then resume (.code (d - 1) :: outer) s
      else resume (.code d :: outer) s
  | .quoted _ :: _, ['\\'] => none
  | .quoted q :: outer, '\\' :: _ :: s => resume (.quoted q :: outer) s
  | .quoted q :: outer, c :: s =>
      if c = '\n' then none
      else if c = q then resume outer s
      else resume (.quoted q :: outer) s
  | .template :: _, ['\\'] => none
  | .template :: outer, '\\' :: _ :: s => resume (.template :: outer) s
  | .template :: outer, '$' :: '{' :: s => resume (.code 0 :: .template :: outer) s
  | .template :: outer, c :: s =>
      if c = '\x60' then resume outer s else resume (.template :: outer) s
  | .lineComment :: outer, c :: s =>
      if c = '\n' then resume outer s else resume (.lineComment :: outer) s
  | .blockComment :: outer, '*' :: '/' :: s => resume outer s
  | .blockComment :: outer, _ :: s => resume (.blockComment :: outer) s

/-- What follows the `}` that closes a brace opened just before `s`. -/
def afterBrace (s : Text) : Option Text := resume [.code 0] s

/-- What follows the closing quote of a string opened just before `s`. -/
def afterQuoted (quote : Char) (s : Text) : Option Text := resume [.quoted quote] s

/-- What follows the closing backtick of a template opened just before `s`. -/
def afterTemplate (s : Text) : Option Text := resume [.template] s

/-- Closing a stack of constructs takes at least one character for each. -/
theorem resume_length {stack : List Mode} {s r : Text} (h : resume stack s = some r) :
    r.length + stack.length ≤ s.length := by
  fun_induction resume stack s <;> simp_all <;> omega

theorem afterBrace_length {s r : Text} (h : afterBrace s = some r) : r.length < s.length := by
  have := resume_length h
  simp only [List.length_singleton] at this
  omega

end MarkupHighlight.Script
