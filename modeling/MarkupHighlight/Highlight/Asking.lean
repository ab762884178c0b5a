import MarkupHighlight.Highlight.Highlighter

/-!
Computations that put questions to a highlighter. What such a computation asks, and how it goes on
with each answer, is a part of it; a highlighter only answers.
-/
namespace MarkupHighlight

/-- A question to a highlighter. -/
inductive Call
  | highlight (code : Text) (language : String)
  | detect (code : Text) (names? : Option (List String))
  deriving DecidableEq, Repr

abbrev Answer := Except HighlightError Highlighted

def Highlighter.answer (h : Highlighter) : Call → Answer
  | .highlight code language => h.highlight code language
  | .detect code names? => h.detect code names?

/-- A computation that puts questions and goes on with the answers. -/
inductive Asking (α : Type)
  | done (a : α)
  | ask (call : Call) (next : Answer → Asking α)

namespace Asking

variable {α β : Type}

def bind : Asking α → (α → Asking β) → Asking β
  | .done a, f => f a
  | .ask call next, f => .ask call fun answer => (next answer).bind f

instance : Monad Asking where
  pure := .done
  bind := Asking.bind

def run (answer : Call → Answer) : Asking α → α
  | .done a => a
  | .ask call next => (next (answer call)).run answer

end Asking

/-- Puts a question. An error for an answer ends the computation. -/
def Call.put (call : Call) : ExceptT HighlightError Asking Highlighted := .mk (.ask call .done)

/-- The result of a computation whose questions get the given answers. -/
def answered {ε α : Type} (answer : Call → Answer) (x : ExceptT ε Asking α) : Except ε α :=
  x.run.run answer

end MarkupHighlight
