import MarkupHighlight.Text.Basic

/-!
Edit scripts between two lists of lines, and a search for one with as few changes as can be: the
middle of a shortest script is found from both ends at once, and both halves are searched anew.
-/
namespace MarkupHighlight.Diff

/-- A stretch of lines that stay, go or come. -/
inductive Op
  | equal (lines : List Text)
  | delete (lines : List Text)
  | insert (lines : List Text)
  deriving DecidableEq, Repr

def Op.lines : Op → List Text
  | .equal ls | .delete ls | .insert ls => ls

/-- Number of lines that two lists have in common at their starts. -/
def commonStart : List Text → List Text → Nat
  | a :: as, b :: bs => if a = b then commonStart as bs + 1 else 0
  | _, _ => 0

def commonEnd (a b : List Text) : Nat := commonStart a.reverse b.reverse

/-- For each diagonal `k`, how far a path has come on it. -/
structure Frontier where
  offset : Nat
  reach : Array Nat
  deriving Repr

def Frontier.ofBound (n : Nat) : Frontier := ⟨n, Array.replicate (2 * n + 1) 0⟩

def Frontier.get (f : Frontier) (k : Int) : Nat := (f.reach[(k + f.offset).toNat]?).getD 0

def Frontier.set (f : Frontier) (k : Int) (x : Nat) : Frontier :=
  { f with reach := f.reach.setIfInBounds (k + f.offset).toNat x }

/-- Where a path of `d` changes starts on diagonal `k`, from paths of one change less. -/
def Frontier.step (f : Frontier) (d k : Int) : Nat :=
  if k = -d ∨ (k ≠ d ∧ f.get (k - 1) < f.get (k + 1)) then f.get (k + 1) else f.get (k - 1) + 1

/-- The diagonals that `d` changes can lead to, from `d` down to `-d`. -/
def diagonals (d : Nat) : List Int := (List.range (d + 1)).map fun (i : Nat) => (d : Int) - 2 * i

/-- The paths from the start. Ends with the place at which the last stretch of equal lines of one
path begins, if that path meets one from the end. -/
def forward (old new : List Text) (d : Nat) (back : Frontier) :
    List Int → Frontier → Except (Nat × Nat) Frontier
  | [], f => .ok f
  | k :: ks, f =>
      let delta : Int := (old.length : Int) - new.length
      let start := f.step d k
      let y := ((start : Int) - k).toNat
      let x := start + commonStart (old.drop start) (new.drop y)
      let f := f.set k x
      if delta % 2 ≠ 0 ∧ (k - delta).natAbs + 1 ≤ d ∧ x + back.get (delta - k) ≥ old.length then
        .error (start, y)
      else forward old new d back ks f

/-- The paths from the end, over the reversed lists. -/
def backward (old new : List Text) (d : Nat) (front : Frontier) :
    List Int → Frontier → Except (Nat × Nat) Frontier
  | [], f => .ok f
  | k :: ks, f =>
      let delta : Int := (old.length : Int) - new.length
      let start := f.step d k
      let y := ((start : Int) - k).toNat
      let run := commonStart (old.reverse.drop start) (new.reverse.drop y)
      let f := f.set k (start + run)
      if delta % 2 = 0 ∧ (k - delta).natAbs ≤ d ∧
          start + run + front.get (delta - k) ≥ old.length then
        .error (old.length - (start + run), new.length - (y + run))
      else backward old new d front ks f

/-- Searches with `d` changes from each end, then with more, `fuel` times. -/
def middleFrom (old new : List Text) :
    (fuel d : Nat) → Frontier → Frontier → Option (Nat × Nat)
  | 0, _, _, _ => none
  | fuel + 1, d, front, back =>
      match forward old new d back (diagonals d) front with
      | .error place => some place
      | .ok front =>
          match backward old new d front (diagonals d) back with
          | .error place => some place
          | .ok back => middleFrom old new fuel (d + 1) front back

/-- A place on a shortest script, counted in lines of both lists. -/
def middle? (old new : List Text) : Option (Nat × Nat) :=
  let bound := (old.length + new.length + 1) / 2 + 1
  middleFrom old new bound 0 (.ofBound bound) (.ofBound bound)

def equalOp (ls : List Text) : List Op := if ls.isEmpty then [] else [.equal ls]

/-- A script that turns `old` into `new`. -/
def script (old new : List Text) : List Op :=
  let lead := commonStart old new
  let old₁ := old.drop lead
  let new₁ := new.drop lead
  let tail := commonEnd old₁ new₁
  let a := old₁.take (old₁.length - tail)
  let b := new₁.take (new₁.length - tail)
  let inner :=
    if b.isEmpty then if a.isEmpty then [] else [.delete a]
    else if a.isEmpty then [.insert b]
    else
      match middle? a b with
      | some (x, y) =>
          if _h : x ≤ a.length ∧ y ≤ b.length ∧ 0 < x + y ∧ x + y < a.length + b.length then
            script (a.take x) (b.take y) ++ script (a.drop x) (b.drop y)
          else [.delete a, .insert b]
      | none => [.delete a, .insert b]
  equalOp (old.take lead) ++ inner ++ equalOp (old₁.drop (old₁.length - tail))
  termination_by old.length + new.length
  decreasing_by
    all_goals
      have ha : a.length ≤ old.length := by
        simp only [a, old₁, List.length_take, List.length_drop]
        omega
      have hb : b.length ≤ new.length := by
        simp only [b, new₁, List.length_take, List.length_drop]
        omega
      simp only [List.length_take, List.length_drop]
      omega

end MarkupHighlight.Diff
