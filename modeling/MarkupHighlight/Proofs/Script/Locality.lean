import MarkupHighlight.Script.Scan

/-!
A scan looks at what it takes and no further: whatever it took off one text it takes off any other
text that starts the same way. `resume_local` is the statement for a stack of open constructs.
-/
namespace MarkupHighlight.Script

/-- Closing the stack takes `u` off whatever text it stands before. -/
def Takes (stack : List Mode) (u : Text) : Prop := ∀ t, resume stack (u ++ t) = some t

theorem takes_nil : Takes [] [] := by
  intro t
  simp [resume]

theorem Takes.ne_nil {m : Mode} {outer : List Mode} {u : Text} (h : Takes (m :: outer) u) :
    u ≠ [] := by
  rintro rfl
  simpa [resume] using h []

theorem Takes.lead {stack stack' : List Mode} {lead u : Text} (h : Takes stack' u)
    (hstep : ∀ t, resume stack (lead ++ (u ++ t)) = resume stack' (u ++ t)) :
    Takes stack (lead ++ u) := by
  intro t
  rw [List.append_assoc, hstep, h t]

theorem ne_backslash {c : Char} {s : Text} (hend : c = '\\' → s = [] → False)
    (hescape : ∀ e t, c = '\\' → s = e :: t → False) : c ≠ '\\' := by
  intro hc
  cases s with
  | nil => exact hend hc rfl
  | cons e t => exact hescape e t hc rfl

theorem resume_local {stack : List Mode} {s r : Text} (h : resume stack s = some r) :
    ∃ u, s = u ++ r ∧ Takes stack u := by
  fun_induction resume stack s
  all_goals try (simp at h; done)
  case case1 => exact ⟨[], by simp_all [takes_nil]⟩
  all_goals
    rename_i ih
    obtain ⟨u, rfl, hu⟩ := ih h
  -- steps over two characters
  case case3 => exact ⟨['/', '*'] ++ u, rfl, hu.lead fun t => by simp [resume]⟩
  case case4 => exact ⟨['/', '/'] ++ u, rfl, hu.lead fun t => by simp [resume]⟩
  case case12 => exact ⟨['\\', _] ++ u, rfl, hu.lead fun t => by simp [resume]⟩
  case case17 => exact ⟨['\\', _] ++ u, rfl, hu.lead fun t => by simp [resume]⟩
  case case18 => exact ⟨['$', '{'] ++ u, rfl, hu.lead fun t => by simp [resume]⟩
  case case23 => exact ⟨['*', '/'] ++ u, rfl, hu.lead fun t => by simp [resume]⟩
  -- steps over one character that needs no look at the next one
  case case6 => exact ⟨['\x60'] ++ u, rfl, hu.lead fun t => by simp [resume, isQuote]⟩
  case case19 => exact ⟨['\x60'] ++ u, rfl, hu.lead fun t => by simp [resume]⟩
  case case21 => exact ⟨['\n'] ++ u, rfl, hu.lead fun t => by simp [resume]⟩
  case case22 => exact ⟨[_] ++ u, rfl, hu.lead fun t => by simp_all [resume]⟩
  case case8 => exact ⟨[_] ++ u, rfl, hu.lead fun t => by simp_all [resume, isQuote, isOpening]⟩
  case case14 c _ hend hesc =>
    have hc := ne_backslash hend hesc
    exact ⟨[c] ++ u, rfl, hu.lead fun t => by simp_all [resume]⟩
  -- the stack stays open, so the next character is part of what is taken
  all_goals
    refine ⟨[_] ++ u, rfl, hu.lead fun t => ?_⟩
    have hne := hu.ne_nil
    cases u with
    | nil => contradiction
    | cons d u => simp_all [resume]

/-- A stack is closed from its innermost construct on. -/
theorem resume_append (inner outer : List Mode) (s : Text) :
    resume (inner ++ outer) s = (resume inner s).bind (resume outer) := by
  fun_induction resume inner s with
  | case1 => rfl
  | case2 => simp [resume]
  | _ => simp_all [resume]

theorem Takes.append {inner outer : List Mode} {u v : Text} (hu : Takes inner u)
    (hv : Takes outer v) : Takes (inner ++ outer) (u ++ v) := by
  intro t
  rw [List.append_assoc, resume_append, hu, Option.bind_some, hv]

theorem afterBrace_local {s r : Text} (h : afterBrace s = some r) :
    ∃ u, s = u ++ r ∧ ∀ t, afterBrace (u ++ t) = some t := resume_local h

end MarkupHighlight.Script
