import MarkupHighlight.Diff.Script

/-!
Moving the operations of a script to where they read best. A stretch that comes in between equal
lines can stand elsewhere among them; it is moved up as far as it goes, to meet others of its kind,
and then down as far as it goes. Neighbours of one kind become one.
-/
namespace MarkupHighlight.Diff

def Op.weight (o : Op) : Nat := o.lines.length + 1

def weightOf : List Op → Nat
  | [] => 0
  | o :: ops => o.weight + weightOf ops

@[simp] theorem weightOf_cons (o : Op) (ops : List Op) :
    weightOf (o :: ops) = o.lines.length + 1 + weightOf ops := rfl

/-- Equal lines in front of a list of operations. -/
def consEqual (ls : List Text) : List Op → List Op
  | .equal rs :: ops => .equal (ls ++ rs) :: ops
  | ops => .equal ls :: ops

/-- Equal lines behind a list of operations, of which the nearest comes first. -/
def snocEqual (ls : List Text) : List Op → List Op
  | .equal rs :: ops => .equal (rs ++ ls) :: ops
  | ops => .equal ls :: ops

/-- Moves `op` up among the operations before it, nearest first. -/
def shiftUp (before : List Op) (op : Op) (after : List Op) : List Op × Op × List Op :=
  match before with
  | [] => ([], op, after)
  | prev :: outer =>
      match op, prev with
      | .insert xs, .equal es =>
          let n := commonEnd es xs
          if n = 0 then
            if es.isEmpty then shiftUp outer op after else (before, op, after)
          else
            let moved := es.drop (es.length - n)
            let op := .insert (moved ++ xs.take (xs.length - n))
            let kept := es.take (es.length - n)
            if kept.isEmpty then shiftUp outer op (consEqual moved after)
            else if kept.length < es.length then
              shiftUp (.equal kept :: outer) op (consEqual moved after)
            else (before, op, after)
      | .delete _, .equal es =>
          if es.isEmpty then shiftUp outer op after else (before, op, after)
      | .insert _, .delete _ => shiftUp outer op (prev :: after)
      | .delete _, .insert _ => shiftUp outer op (prev :: after)
      | .insert xs, .insert ys => shiftUp outer (.insert (ys ++ xs)) after
      | .delete xs, .delete ys => shiftUp outer (.delete (ys ++ xs)) after
      | .equal _, _ => (before, op, after)
  termination_by weightOf before
  decreasing_by all_goals simp_all [Op.lines] <;> omega

/-- Moves `op` down among the operations after it. -/
def shiftDown (before : List Op) (op : Op) (after : List Op) : List Op × Op × List Op :=
  match after with
  | [] => (before, op, [])
  | next :: outer =>
      match op, next with
      | .insert xs, .equal es =>
          let n := commonStart es xs
          if n = 0 then
            if es.isEmpty then shiftDown before op outer else (before, op, after)
          else
            let moved := es.take n
            let op := .insert (xs.drop n ++ moved)
            let kept := es.drop n
            if kept.isEmpty then shiftDown (snocEqual moved before) op outer
            else if kept.length < es.length then
              shiftDown (snocEqual moved before) op (.equal kept :: outer)
            else (before, op, after)
      | .delete _, .equal es =>
          if es.isEmpty then shiftDown before op outer else (before, op, after)
      | .insert _, .delete _ => shiftDown (next :: before) op outer
      | .delete _, .insert _ => shiftDown (next :: before) op outer
      | .insert xs, .insert ys => shiftDown before (.insert (xs ++ ys)) outer
      | .delete xs, .delete ys => shiftDown before (.delete (xs ++ ys)) outer
      | .equal _, _ => (before, op, after)
  termination_by weightOf after
  decreasing_by all_goals simp_all [Op.lines] <;> omega

def Op.isDelete : Op → Bool
  | .delete _ => true
  | _ => false

def Op.isInsert : Op → Bool
  | .insert _ => true
  | _ => false

/-- Moves every operation that `picks` holds of, from the first one on. -/
def compactFrom (picks : Op → Bool) : Nat → List Op → List Op → List Op
  | 0, before, after => before.reverse ++ after
  | _ + 1, before, [] => before.reverse
  | fuel + 1, before, op :: after =>
      if picks op then
        let (before, op, after) := shiftUp before op after
        let (before, op, after) := shiftDown before op after
        compactFrom picks fuel (op :: before) after
      else compactFrom picks fuel (op :: before) after

/-- Each pass visits an operation again only after one of those it moves has become part of another,
so the square of the number of lines and operations bounds it. -/
def compact (ops : List Op) : List Op :=
  let fuel := (weightOf ops + 1) * (weightOf ops + 1)
  let ops := compactFrom Op.isDelete fuel [] ops
  compactFrom Op.isInsert fuel [] ops

end MarkupHighlight.Diff
