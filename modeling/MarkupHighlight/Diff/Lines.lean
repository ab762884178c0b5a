import MarkupHighlight.Diff.Compact

/-!
The difference of two texts, line by line: each line with a sign that says whether it stays, goes or
comes. Of lines that go and come at one place, those that go stand first.
-/
namespace MarkupHighlight.Diff

/-- The lines of a text with their ends: a line feed, a carriage return, or both. -/
def linesWithEnds : Text → List Text
  | [] => []
  | '\r' :: '\n' :: s => ['\r', '\n'] :: linesWithEnds s
  | c :: s =>
      if c = '\n' ∨ c = '\r' then [c] :: linesWithEnds s
      else
        match linesWithEnds s with
        | [] => [[c]]
        | l :: ls => (c :: l) :: ls

def signed (sign : Char) (ls : List Text) : List (Char × Text) := ls.map (sign, ·)

/-- The signed lines of a script, where `gone` and `come` are those of the present place so far. -/
def changesFrom (gone come : List Text) : List Op → List (Char × Text)
  | [] => signed '-' gone ++ signed '+' come
  | .equal ls :: ops =>
      signed '-' gone ++ signed '+' come ++ signed ' ' ls ++ changesFrom [] [] ops
  | .delete ls :: ops => changesFrom (gone ++ ls) come ops
  | .insert ls :: ops => changesFrom gone (come ++ ls) ops

def changes (old new : Text) : List (Char × Text) :=
  changesFrom [] [] (compact (script (linesWithEnds old) (linesWithEnds new)))

/-- A signed line, ended if its text does not end it. -/
def renderChange (change : Char × Text) : Text :=
  let ended := change.2.getLast? == some '\n' || change.2.getLast? == some '\r'
  change.1 :: change.2 ++ if ended then [] else ['\n']

def render (old new : Text) : Text := (changes old new).flatMap renderChange

end MarkupHighlight.Diff
