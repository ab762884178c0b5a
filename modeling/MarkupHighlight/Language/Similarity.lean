/-!
Jaro-Winkler similarity of two words, between zero and one: the share of letters that occur in both
at nearby places, less half of those out of order, raised for a common beginning.
-/
namespace MarkupHighlight.Similarity

/-- Marks the first unmarked occurrence of `x` at an index from `low` to below `high`; `i` is the
index of the list's head. -/
def claim (x : Char) (low high i : Nat) : List (Char × Bool) → Option (List (Char × Bool))
  | [] => none
  | (c, taken) :: rest =>
      if low ≤ i ∧ i < high ∧ c = x ∧ taken = false then some ((c, true) :: rest)
      else (claim x low high (i + 1) rest).map ((c, taken) :: ·)

/-- Matches the letters of the first word, from index `i` on, in turn with letters of the second at
most `range` places away. Gives the matched letters and the marks on the second word. -/
def matchLetters (range i : Nat) (b : List (Char × Bool)) :
    List Char → List Char × List (Char × Bool)
  | [] => ([], b)
  | x :: rest =>
      match claim x (i - range) (min b.length (i + range + 1)) 0 b with
      | some b' =>
          let (found, marks) := matchLetters range (i + 1) b' rest
          (x :: found, marks)
      | none => matchLetters range (i + 1) b rest

/-- Number of places at which two lists of matched letters differ. -/
def mismatches (a b : List Char) : Nat := (a.zip b).countP fun (x, y) => x != y

def jaro (a b : List Char) : Float :=
  if a.isEmpty && b.isEmpty then 1.0
  else if a.isEmpty || b.isEmpty then 0.0
  else
    let range := max a.length b.length / 2 - 1
    let (found, marks) := matchLetters range 0 (b.map (·, false)) a
    let m := found.length
    let swaps := mismatches found ((marks.filter (·.2)).map (·.1)) / 2
    if m = 0 then 0.0
    else
      (m.toFloat / a.length.toFloat + m.toFloat / b.length.toFloat +
        (m - swaps).toFloat / m.toFloat) / 3.0

/-- Length of the common beginning, four at most. -/
def commonStart (a b : List Char) : Nat :=
  (((a.take 4).zip b).takeWhile fun (x, y) => x == y).length

def jaroWinkler (a b : List Char) : Float :=
  let s := jaro a b
  if s > 0.7 then s + 0.1 * (commonStart a b).toFloat * (1.0 - s) else s

end MarkupHighlight.Similarity
