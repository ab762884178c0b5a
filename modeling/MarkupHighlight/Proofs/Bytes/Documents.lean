import MarkupHighlight.Proofs.Bytes.Tokens
import MarkupHighlight.Proofs.Markup.Parsing

/-!
A document read at byte offsets. The tree is built on a stack whose bottom is a frame for the whole
document, and a closing tag takes frames off that stack. `parse_eq` says that this ends for every
text as the reading of characters ends, so that nothing the parser does on the way is a fault.
-/
namespace MarkupHighlight.Bytewise
open Script Markup

/-- The open elements, innermost first, and below them the frame of the document. -/
abbrev Frames := List OpenElement

def documentFrame (nodes : List Node) : OpenElement := ⟨[], 0, [], nodes⟩

def push (n : Node) : Frames → Frames
  | [] => []
  | e :: frames => e.add n :: frames

/-- The top of the stack and what is below it. -/
def pop : Frames → Run (OpenElement × Frames)
  | [] => .error (.fault .pop)
  | e :: frames => .ok (e, frames)

/-- How many frames are below the innermost open element of a name. The frame of the document has no
name. -/
def depth? (name : Text) : Frames → Option Nat
  | [] | [_] => none
  | e :: e' :: frames =>
      if e.name = name then some (frames.length + 1) else depth? name (e' :: frames)

@[simp] theorem length_push (n : Node) (frames : Frames) :
    (push n frames).length = frames.length := by cases frames <;> rfl

theorem length_of_pop {frames rest : Frames} {e : OpenElement} (h : pop frames = .ok (e, rest)) :
    frames.length = rest.length + 1 := by
  cases frames with
  | nil => cases h
  | cons => cases h; rfl

/-- Ends the elements above the given depth at a byte. -/
def closeAbove (depth stop : Nat) (frames : Frames) : Run Frames :=
  if depth + 1 < frames.length then
    match _h : pop frames with
    | .error e => .error e
    | .ok (e, rest) => closeAbove depth stop (push (e.close stop) rest)
  else .ok frames
  termination_by frames.length
  decreasing_by
    have := length_of_pop _h
    rw [length_push]
    omega

/-- Closes the innermost element of a name. -/
def closeElement (name : Text) (tag : Span) (frames : Frames) : Run Frames := do
  let some depth := depth? name frames
    | throw (.refused (.unexpectedClosingTag name tag.start))
  let above ← closeAbove depth tag.start frames
  let (e, outer) ← pop above
  return push (e.close tag.stop) outer

def place (frames : Frames) : Token → Run Frames
  | .node n => .ok (push n frames)
  | .openTag name start attributes => .ok (⟨name, start, attributes, []⟩ :: frames)
  | .closeTag name tag => closeElement name tag frames

/-- The document, if no element is open at its end. -/
def finish (size : Nat) (frames : Frames) : Run Document := do
  if 1 < frames.length then
    let (e, _) ← pop frames
    throw (.refused (.unclosedElement e.name e.start))
  else
    let (e, _) ← pop frames
    return ⟨size, e.children.reverse⟩

/-- Reads the rest of a document from a byte on. -/
def parseFrom (s : Text) (frames : Frames) (i : Nat) : Run Document :=
  if _h : i < byteSize s then do
    let (token, stop) ← readToken s i
    let j ← onward s i stop
    let frames ← place frames token
    parseFrom s frames j
  else finish (byteSize s) frames
  termination_by byteSize s - i

def parse (s : Text) : Run Document := parseFrom s [documentFrame []] 0

/-! The stack and the outline of a document. -/

def framesOf (o : Outline) : Frames := o.opened ++ [documentFrame o.nodes]

/-- How a run ends that ends as a reading of characters does. -/
def ofReading {α : Type} (reading : Except Error α) : Run α := reading.mapError .refused

theorem push_framesOf (n : Node) (o : Outline) : push n (framesOf o) = framesOf (o.add n) := by
  obtain ⟨nodes, opened⟩ := o
  cases opened <;> rfl

@[simp] theorem depth?_push (name : Text) (n : Node) (frames : Frames) :
    depth? name (push n frames) = depth? name frames := by
  match frames with
  | [] | [_] | _ :: _ :: _ => rfl

theorem depth?_lt {name : Text} {frames : Frames} {d : Nat} (h : depth? name frames = some d) :
    d < frames.length := by
  fun_induction depth? name frames <;> grind

/-! Closing tags. -/

section
variable {name : Text} {tag : Span}

theorem closeElement_same {e : OpenElement} {frames : Frames} (hne : frames ≠ [])
    (hname : e.name = name) :
    closeElement name tag (e :: frames) = .ok (push (e.close tag.stop) frames) := by
  obtain ⟨e', rest, rfl⟩ := List.exists_cons_of_ne_nil hne
  rw [closeElement, depth?, if_pos hname]
  simp only
  rw [closeAbove, if_neg (by simp)]
  rfl

/-- An element of another name is ended first, where the closing tag starts. -/
theorem closeElement_other {e : OpenElement} {frames : Frames} (hne : frames ≠ [])
    (hname : e.name ≠ name) :
    closeElement name tag (e :: frames) =
      closeElement name tag (push (e.close tag.start) frames) := by
  obtain ⟨e', rest, rfl⟩ := List.exists_cons_of_ne_nil hne
  rw [closeElement, closeElement, depth?, if_neg hname, depth?_push]
  cases hd : depth? name (e' :: rest) with
  | none => rfl
  | some d =>
    have hlt := depth?_lt hd
    simp only
    rw [closeAbove, if_pos (by simpa using hlt)]
    rfl

/-- A closing tag does to the stack what it does to the open elements. -/
theorem closeElement_append (es : List OpenElement) (bottom : OpenElement) :
    closeElement name tag (es ++ [bottom]) =
      match closeThrough name tag [] es with
      | none => .error (.refused (.unexpectedClosingTag name tag.start))
      | some (n, outer) => .ok (push n (outer ++ [bottom])) := by
  match es with
  | [] => rfl
  | e :: outer =>
    have hne : outer ++ [bottom] ≠ [] := List.append_ne_nil_of_right_ne_nil outer (by simp)
    rw [closeThrough, List.foldl_nil, List.cons_append]
    by_cases hname : e.name = name
    · rw [closeElement_same hne hname]
      simp only [hname, if_true]
    · rw [closeElement_other hne hname]
      simp only [hname, if_false]
      -- what the ended element was in now has it as a child, so the recursion is on their number
      cases outer with
      | nil => rfl
      | cons e' es =>
        have hmore := closeElement_append (e'.add (e.close tag.start) :: es) bottom
        rw [closeThrough, List.foldl_nil] at hmore
        rw [closeThrough]
        exact hmore
  termination_by es.length

end

theorem place_framesOf (o : Outline) (t : Token) :
    place (framesOf o) t = ofReading ((o.step t).map framesOf) := by
  cases t with
  | node n => exact congrArg Except.ok (push_framesOf n o)
  | openTag => rfl
  | closeTag name tag =>
    rw [place, framesOf, closeElement_append, Outline.step]
    cases closeThrough name tag [] o.opened with
    | none => rfl
    | some x =>
      exact congrArg Except.ok (push_framesOf x.1 { o with opened := x.2 })

theorem finish_framesOf (o : Outline) (size : Nat) :
    finish size (framesOf o) = ofReading (o.finish size) := by
  obtain ⟨nodes, opened⟩ := o
  cases opened with
  | nil => rfl
  | cons e es =>
    rw [finish, if_pos (by simp [framesOf])]
    rfl

/-! Documents. -/

/-- The rest of a document is read as its characters are. -/
theorem parseFrom_eq {s t : Text} {i : Nat} (h : Tail s i t) (o : Outline) :
    parseFrom s (framesOf o) i =
      ofReading ((o.run ⟨i, t⟩).bind fun o' => o'.finish (byteSize s)) := by
  by_cases ht : t = []
  · have hend : ¬ i < byteSize s := Nat.not_lt.mpr (Tail.le_of_nil (ht ▸ h))
    rw [parseFrom, dif_neg hend, finish_framesOf, ht, Outline.run_nil]
    rfl
  · have hread := readToken_agrees h ht
    have hstart : i < byteSize s := by
      have := h.size
      have := byteSize_pos ht
      omega
    rw [parseFrom, dif_pos hstart]
    cases htoken : Markup.readToken ⟨i, t⟩ with
    | error e =>
      rw [htoken] at hread
      rw [hread.of_error, Outline.run_failure ht htoken]
      rfl
    | ok x =>
      obtain ⟨token, c⟩ := x
      rw [htoken] at hread
      obtain ⟨hrun, hrest⟩ := hread.of_ok
      have hshorter : c.rest.length < t.length := readToken_shorter ht htoken
      have hmoves : i < c.offset ∧ c.offset ≤ byteSize s :=
        ⟨h.lt_of_length hrest hshorter, hrest.le⟩
      rw [hrun, ok_bind]
      simp only [onward_eq hmoves, ok_bind, place_framesOf]
      rw [Outline.run_token ht htoken]
      cases o.step token with
      | error e => rfl
      | ok o' => exact parseFrom_eq hrest o'
  termination_by t.length

theorem parse_eq (s : Text) : parse s = ofReading (Markup.parse s) := by
  rw [parse_eq_run, parse]
  exact parseFrom_eq (tail_zero s) {}

theorem ofReading_ne_fault {α : Type} (reading : Except Error α) (f : Fault) :
    ofReading reading ≠ .error (.fault f) := by
  cases reading <;> exact fun h => nomatch h

/-- Whatever the text is, parsing it and reading its form as an expression end, and nothing on the
way is a fault: every cut has its ends in order and at character boundaries, every byte looked at is
there, no difference falls below zero, the stack is never popped when empty and every step of a loop
takes a byte. The results are those of the readers of characters. -/
theorem never_faults (s : Text) :
    (∀ f, parse s ≠ .error (.fault f)) ∧ (∀ f, classify s ≠ .error (.fault f)) ∧
      parse s = ofReading (Markup.parse s) ∧ classify s = .ok (Expression.classify s) := by
  have hparse := parse_eq s
  have hclassify := classify_eq s
  refine ⟨fun f => ?_, fun f => ?_, hparse, hclassify⟩
  · rw [hparse]
    exact ofReading_ne_fault _ f
  · rw [hclassify]
    exact fun h => nomatch h

end MarkupHighlight.Bytewise
