import MarkupHighlight.Proofs.Text.Cutting
import MarkupHighlight.Text.Lines

/-!
Texts line by line: how a text that is put together from pieces is cut into them again, and
induction over the lines of a text (`lines_induction`).
-/
namespace MarkupHighlight

/-! Pieces between separators. -/

section
variable {sep : Char}

theorem splitOnChar_of_notMem {s : Text} (h : sep ∉ s) : splitOnChar sep s = [s] := by
  induction s with
  | nil => rfl
  | cons c s ih =>
    obtain ⟨hc, hs⟩ := not_or.mp (mt List.mem_cons.mpr h)
    rw [splitOnChar, if_neg (Ne.symm hc), ih hs]

theorem splitOnChar_ne_nil (sep : Char) (s : Text) : splitOnChar sep s ≠ [] := by
  fun_cases splitOnChar sep s <;> simp

theorem splitOnChar_append_cons (sep : Char) (s t : Text) :
    splitOnChar sep (s ++ sep :: t) = splitOnChar sep s ++ splitOnChar sep t := by
  induction s with
  | nil => simp [splitOnChar]
  | cons c s ih =>
    by_cases hc : c = sep
    · rw [List.cons_append, splitOnChar, if_pos hc, ih, splitOnChar, if_pos hc, List.cons_append]
    · obtain ⟨l, ls, hls⟩ := List.exists_cons_of_ne_nil (splitOnChar_ne_nil sep s)
      simp only [List.cons_append, splitOnChar, if_neg hc, ih, hls]

theorem splitOnChar_append {s : Text} (h : sep ∉ s) (t : Text) :
    splitOnChar sep (s ++ sep :: t) = s :: splitOnChar sep t := by
  rw [splitOnChar_append_cons, splitOnChar_of_notMem h, List.singleton_append]

theorem splitOnChar_joinWith {ls : List Text} (hne : ls ≠ []) (h : ∀ l ∈ ls, sep ∉ l) :
    splitOnChar sep (joinWith [sep] ls) = ls := by
  induction ls with
  | nil => exact False.elim (hne rfl)
  | cons l ls ih =>
    have hl := h l (List.mem_cons_self ..)
    cases ls with
    | nil => exact splitOnChar_of_notMem hl
    | cons l' ls =>
      rw [joinWith, List.append_assoc, List.singleton_append, splitOnChar_append hl,
        ih (List.cons_ne_nil _ _) fun x hx => h x (List.mem_cons_of_mem _ hx)]
      exact List.cons_ne_nil _ _

theorem mem_joinWith {c : Char} {ls : List Text} (h : c ∈ joinWith [sep] ls) :
    c = sep ∨ ∃ l ∈ ls, c ∈ l := by
  induction ls with
  | nil => cases h
  | cons l ls ih =>
    cases ls with
    | nil => exact .inr ⟨l, List.mem_singleton_self l, h⟩
    | cons l' ls =>
      rw [joinWith, List.mem_append, List.mem_append, List.mem_singleton] at h
      · rcases h with (h | h) | h
        · exact .inr ⟨l, List.mem_cons_self .., h⟩
        · exact .inl h
        · rcases ih h with h | ⟨l'', hl, h⟩
          · exact .inl h
          · exact .inr ⟨l'', List.mem_cons_of_mem _ hl, h⟩
      · exact List.cons_ne_nil _ _

end

/-- A line starts behind the text, or the text is empty. -/
def EndsLine (s : Text) : Prop := s = [] ∨ ∃ u, s = u ++ ['\n']

theorem EndsLine.tail {l s : Text} (h : EndsLine (l ++ '\n' :: s)) : EndsLine s := by
  rcases h with h | ⟨u, hu⟩
  · simp at h
  · rcases List.eq_nil_or_concat s with rfl | ⟨s, c, rfl⟩
    · exact .inl rfl
    · rw [List.concat_eq_append] at hu ⊢
      rw [← List.cons_append, ← List.append_assoc] at hu
      exact .inr ⟨s, congrArg (s ++ ·) (List.append_inj' hu rfl).2⟩

/-- Induction over the lines of a text; the last one may lack its line feed. -/
@[elab_as_elim]
theorem lines_induction {motive : Text → Prop} (nil : motive [])
    (last : ∀ l, l ≠ [] → '\n' ∉ l → motive l)
    (line : ∀ l t, '\n' ∉ l → motive t → motive (l ++ '\n' :: t)) (s : Text) : motive s := by
  induction hlength : s.length using Nat.strongRecOn generalizing s with
  | ind n ih =>
    obtain ⟨l, r, rfl, -, -, hl, hr⟩ := exists_run (· != '\n') s
    have hnewline : '\n' ∉ l := fun h => by simpa using hl _ h
    cases r with
    | nil =>
      rw [List.append_nil]
      by_cases hnil : l = []
      · rw [hnil]
        exact nil
      · exact last l hnil hnewline
    | cons c t =>
      obtain rfl : c = '\n' := by simpa using hr c rfl
      refine line l t hnewline (ih t.length ?_ t rfl)
      rw [← hlength, List.length_append, List.length_cons]
      omega

/-- A line without the carriage return at its end. -/
def withoutReturn (l : Text) : Text := if l.getLast? = some '\r' then l.dropLast else l

theorem exists_withoutReturn (l : Text) :
    ∃ w, l = withoutReturn l ++ w ∧ ∀ c ∈ w, c = '\r' := by
  unfold withoutReturn
  split
  next hreturn =>
    obtain ⟨m, rfl⟩ := List.getLast?_eq_some_iff.mp hreturn
    exact ⟨['\r'], by rw [List.dropLast_concat], by simp⟩
  next => exact ⟨[], (List.append_nil l).symm, by simp⟩

theorem textLines_last {l : Text} (hne : l ≠ []) (h : '\n' ∉ l) : textLines l = [l] := by
  obtain ⟨c, l, rfl⟩ := List.exists_cons_of_ne_nil hne
  rw [textLines, splitLines, splitOnChar_of_notMem h]
  rfl

theorem textLines_line {l : Text} (h : '\n' ∉ l) (t : Text) :
    textLines (l ++ '\n' :: t) = withoutReturn l :: textLines t := by
  obtain ⟨p, ps, hps⟩ := List.exists_cons_of_ne_nil (splitOnChar_ne_nil '\n' t)
  simp only [textLines, splitLines, splitOnChar_append h, hps, List.dropLast_cons_cons,
    List.map_cons, List.getLast?_cons_cons]
  split <;> rfl

theorem notMem_of_mem_textLines {s l : Text} (h : l ∈ textLines s) : '\n' ∉ l := by
  induction s using lines_induction with
  | nil => cases h
  | last m hne hm =>
    rw [textLines_last hne hm, List.mem_singleton] at h
    rwa [h]
  | line m t hm ih =>
    rw [textLines_line hm] at h
    rcases List.mem_cons.mp h with rfl | h
    · obtain ⟨w, hw, -⟩ := exists_withoutReturn m
      intro hmem
      apply hm
      rw [hw]
      exact List.mem_append_left w hmem
    · exact ih h

/-- Lines do not run over the start of a line. -/
theorem textLines_append {s : Text} (h : EndsLine s) (t : Text) :
    textLines (s ++ t) = textLines s ++ textLines t := by
  induction s using lines_induction with
  | nil => rfl
  | last l hne hl =>
    rcases h with rfl | ⟨u, rfl⟩
    · exact absurd rfl hne
    · exact absurd (List.mem_append_right u (List.mem_singleton_self _)) hl
  | line l s hl ih =>
    rw [List.append_assoc, List.cons_append, textLines_line hl, textLines_line hl, ih h.tail,
      List.cons_append]

theorem textLines_joinWith {ls : List Text} (hnewline : ∀ l ∈ ls, '\n' ∉ l)
    (hreturn : ∀ l ∈ ls, l.getLast? ≠ some '\r') (hlast : ∀ l ∈ ls.getLast?, l ≠ []) :
    textLines (joinWith ['\n'] ls) = ls := by
  induction ls with
  | nil => rfl
  | cons l ls ih =>
    obtain ⟨hl, hls⟩ := List.forall_mem_cons.mp hnewline
    obtain ⟨hlr, hlsr⟩ := List.forall_mem_cons.mp hreturn
    cases ls with
    | nil => exact textLines_last (hlast l rfl) hl
    | cons m ms =>
      rw [joinWith, List.append_assoc, List.singleton_append, textLines_line hl,
        ih hls hlsr hlast, withoutReturn, if_neg hlr]
      exact List.cons_ne_nil _ _

end MarkupHighlight
