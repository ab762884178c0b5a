import MarkupHighlight.Text.Basic

/-! Cutting a text at a separator, and lines as the pieces between line feeds. -/
namespace MarkupHighlight

/-- The pieces of `s` between the separators, at least one. -/
def splitOnChar (sep : Char) : Text → List Text
  | [] => [[]]
  | c :: s =>
      if c = sep then [] :: splitOnChar sep s
      else
        match splitOnChar sep s with
        | [] => [[c]]
        | l :: ls => (c :: l) :: ls

/-- The pieces between line feeds. A line feed at the end leaves an empty last piece. -/
def splitLines (s : Text) : List Text := splitOnChar '\n' s

/-- Joins pieces with `sep` between them. -/
def joinWith (sep : Text) : List Text → Text
  | [] => []
  | [l] => l
  | l :: ls => l ++ sep ++ joinWith sep ls

/-- Drops every carriage return at the end. -/
def dropReturns (s : Text) : Text := (s.reverse.dropWhile (· == '\r')).reverse

/-- The lines of `s` without their ends, of which a last empty piece is none. A line ends at a line
feed, with the one carriage return before it. -/
def textLines (s : Text) : List Text :=
  let pieces := splitLines s
  let ended := pieces.dropLast.map fun l =>
    if l.getLast? = some '\r' then l.dropLast else l
  match pieces.getLast? with
  | some (c :: l) => ended ++ [c :: l]
  | _ => ended

end MarkupHighlight
