import MarkupHighlight.Proofs.Text.Lines
import MarkupHighlight.Text.Position
import Mathlib.Data.List.Induction
import Mathlib.Data.List.TakeWhile

/-!
Places of a text counted from zero in lines and UTF-16 units: the place behind a part of a text
depends on that part alone, more text leads to a later place, and line tables find the place
(`position_append`).
-/
namespace MarkupHighlight

/-- The end of `s` from its last line feed on. -/
def lastLine (s : Text) : Text := (s.reverse.takeWhile (· != '\n')).reverse

/-- The line and the UTF-16 column behind `s`, both from zero. -/
def placeBehind (s : Text) : LineColumn := ⟨s.count '\n', utf16Size (lastLine s)⟩

@[simp] theorem utf16Size_append (s t : Text) : utf16Size (s ++ t) = utf16Size s + utf16Size t := by
  induction s with
  | nil => simp [utf16Size]
  | cons c s ih =>
    simp only [List.cons_append, utf16Size, ih]
    omega

theorem utf16Width_pos (c : Char) : 0 < utf16Width c := by
  unfold utf16Width
  split <;> decide

theorem utf16Size_pos {s : Text} (h : s ≠ []) : 0 < utf16Size s := by
  obtain ⟨c, s, rfl⟩ := List.exists_cons_of_ne_nil h
  have := utf16Width_pos c
  rw [utf16Size]
  omega

/-- A character that takes two units has four bytes. -/
theorem utf16Width_le_utf8Size (c : Char) : utf16Width c ≤ c.utf8Size := by
  have hpos := c.utf8Size_pos
  unfold utf16Width
  split
  · omega
  · rename_i h
    have hv : ¬ c.val.toNat < 0x10000 := h
    simp only [Char.utf8Size, UInt32.le_iff_toNat_le, UInt32.toNat_ofNatLT]
    rw [if_neg (by omega), if_neg (by omega)]
    split <;> omega

theorem utf16Size_le_byteSize (s : Text) : utf16Size s ≤ byteSize s := by
  induction s with
  | nil => exact Nat.le_refl _
  | cons c s ih =>
    have := utf16Width_le_utf8Size c
    rw [utf16Size, byteSize]
    omega

theorem length_le_byteSize (s : Text) : s.length ≤ byteSize s := by
  induction s with
  | nil => exact Nat.le_refl _
  | cons c s ih =>
    have := c.utf8Size_pos
    rw [List.length_cons, byteSize]
    omega

theorem lastLine_concat (s : Text) (c : Char) :
    lastLine (s ++ [c]) = if c = '\n' then [] else lastLine s ++ [c] := by
  unfold lastLine
  rw [List.reverse_append, List.reverse_singleton, List.singleton_append, List.takeWhile_cons]
  by_cases h : c = '\n'
  · simp [h]
  · simp [h]

theorem newline_notMem_lastLine (s : Text) : '\n' ∉ lastLine s := by
  intro h
  rw [lastLine, List.mem_reverse] at h
  have := List.all_eq_true.mp List.all_takeWhile _ h
  simp at this

theorem lastLine_append (s : Text) {t : Text} (h : '\n' ∉ t) :
    lastLine (s ++ t) = lastLine s ++ t := by
  have ht : ∀ c ∈ t.reverse, (c != '\n') = true := by
    intro c hc
    rw [bne_iff_ne]
    rintro rfl
    exact h (List.mem_reverse.mp hc)
  unfold lastLine
  rw [List.reverse_append, List.takeWhile_append_of_pos ht, List.reverse_append,
    List.reverse_reverse]

/-- On one line columns add up. -/
theorem placeBehind_append (s : Text) {t : Text} (h : '\n' ∉ t) :
    placeBehind (s ++ t) = ⟨(placeBehind s).line, (placeBehind s).column + utf16Size t⟩ := by
  simp only [placeBehind, lastLine_append s h, utf16Size_append, List.count_append,
    List.count_eq_zero_of_not_mem h, Nat.add_zero]

/-- A place behind more text is on the same line only if no line feed is between. -/
theorem line_placeBehind_append {s t : Text} :
    (placeBehind (s ++ t)).line = (placeBehind s).line ↔ '\n' ∉ t := by
  simp [placeBehind, List.count_eq_zero]

/-- One place stands before another one. -/
def LineColumn.Before (p q : LineColumn) : Prop :=
  p.line < q.line ∨ p.line = q.line ∧ p.column < q.column

/-- More text leads to a later place, whatever the first line and the first column are counted as,
and whatever columns are counted in. -/
theorem LineColumn.before_of_append (first : Nat) {size : Text → Nat}
    (hadd : ∀ s t, size (s ++ t) = size s + size t) (hpos : ∀ t, t ≠ [] → 0 < size t) (s : Text)
    {t : Text} (ht : t ≠ []) :
    LineColumn.Before ⟨s.count '\n' + first, size (lastLine s) + first⟩
      ⟨(s ++ t).count '\n' + first, size (lastLine (s ++ t)) + first⟩ := by
  simp only [LineColumn.Before, List.count_append]
  by_cases hnewline : '\n' ∈ t
  · have := List.count_pos_iff.mpr hnewline
    left
    omega
  · have := hpos t ht
    right
    rw [lastLine_append s hnewline, hadd, List.count_eq_zero_of_not_mem hnewline]
    omega

theorem placeBehind_before (s : Text) {t : Text} (ht : t ≠ []) :
    (placeBehind s).Before (placeBehind (s ++ t)) :=
  LineColumn.before_of_append 0 utf16Size_append (fun _ => utf16Size_pos) s ht

/-! Line tables. -/

theorem lineStartsFrom_append (n : Nat) (s t : Text) :
    lineStartsFrom n (s ++ t) = lineStartsFrom n s ++ lineStartsFrom (n + byteSize s) t := by
  induction s generalizing n with
  | nil => simp [lineStartsFrom]
  | cons c s ih =>
    simp only [List.cons_append, lineStartsFrom, byteSize_cons, ih, Nat.add_assoc]
    split <;> rfl

/-- The lines of a text start behind its line feeds. -/
theorem mem_lineStartsFrom {m n : Nat} {s : Text} :
    m ∈ lineStartsFrom n s ↔ ∃ u v, s = u ++ '\n' :: v ∧ m = n + byteSize (u ++ ['\n']) := by
  induction s generalizing n with
  | nil => simp [lineStartsFrom]
  | cons c s ih =>
    have hmem : m ∈ lineStartsFrom n (c :: s) ↔
        (c = '\n' ∧ m = n + c.utf8Size) ∨ m ∈ lineStartsFrom (n + c.utf8Size) s := by
      by_cases h : c = '\n'
      · simp [lineStartsFrom, h]
      · simp [lineStartsFrom, h]
    rw [hmem, ih]
    constructor
    · rintro (⟨rfl, rfl⟩ | ⟨u, v, rfl, rfl⟩)
      · exact ⟨[], s, rfl, rfl⟩
      · exact ⟨c :: u, v, rfl, by simp [Nat.add_assoc]⟩
    · rintro ⟨u, v, hs, rfl⟩
      cases u with
      | nil =>
        obtain ⟨rfl, rfl⟩ := List.cons.inj hs
        exact .inl ⟨rfl, rfl⟩
      | cons d u =>
        obtain ⟨rfl, rfl⟩ := List.cons.inj hs
        exact .inr ⟨u, v, rfl, by simp [Nat.add_assoc]⟩

theorem length_lineStartsFrom (n : Nat) (s : Text) :
    (lineStartsFrom n s).length = s.count '\n' := by
  induction s generalizing n with
  | nil => rfl
  | cons c s ih =>
    by_cases h : c = '\n'
    · simp [lineStartsFrom, h, ih]
    · simp [lineStartsFrom, h, ih]

/-- The last line of a text starts at the last line start, or with the text. -/
theorem exists_lastLine (n : Nat) (s : Text) :
    ∃ u, s = u ++ lastLine s ∧ EndsLine u ∧
      (n :: lineStartsFrom n s).getLast? = some (n + byteSize u) := by
  induction s using List.reverseRecOn with
  | nil => exact ⟨[], rfl, .inl rfl, rfl⟩
  | append_singleton s c ih =>
    obtain ⟨u, hs, hu, hlast⟩ := ih
    rw [lastLine_concat, lineStartsFrom_append]
    by_cases h : c = '\n'
    · refine ⟨s ++ [c], by simp [h], .inr ⟨s, by rw [h]⟩, ?_⟩
      rw [lineStartsFrom, if_pos h, lineStartsFrom, ← List.cons_append, List.getLast?_concat]
      simp [Nat.add_assoc]
    · refine ⟨u, ?_, hu, ?_⟩
      · rw [if_neg h, ← List.append_assoc, ← hs]
      · simpa [lineStartsFrom, h] using hlast

/-- The lines that start within a part of a text are those of the part. -/
theorem starts_append (s t : Text) :
    (LineTable.ofText (s ++ t)).starts =
      (0 :: lineStartsFrom 0 s) ++ lineStartsFrom (byteSize s) t := by
  rw [LineTable.ofText, lineStartsFrom_append, Nat.zero_add]
  rfl

theorem takeWhile_starts (s t : Text) :
    (LineTable.ofText (s ++ t)).starts.takeWhile (· ≤ byteSize s) = 0 :: lineStartsFrom 0 s := by
  have hnot : (lineStartsFrom (byteSize s) t).takeWhile (· ≤ byteSize s) = [] := by
    rw [List.takeWhile_eq_nil_iff]
    intro h hle
    obtain ⟨x, y, -, hm⟩ := mem_lineStartsFrom.mp (List.get_mem _ ⟨0, h⟩)
    have := byteSize_pos (s := x ++ ['\n']) (by simp)
    simp only [decide_eq_true_eq] at hle
    omega
  have hall : ∀ n ∈ 0 :: lineStartsFrom 0 s, (decide (n ≤ byteSize s)) = true := by
    intro n hn
    rw [decide_eq_true_eq]
    rcases List.mem_cons.mp hn with rfl | hn
    · exact Nat.zero_le _
    · obtain ⟨x, y, rfl, rfl⟩ := mem_lineStartsFrom.mp hn
      simp only [byteSize_append, byteSize_cons, byteSize_nil]
      omega
  rw [starts_append, List.takeWhile_append_of_pos hall, hnot, List.append_nil]

/-- The start of the line that goes on behind a part of a text. -/
theorem exists_getElem?_starts (s t : Text) :
    ∃ u, s = u ++ lastLine s ∧
      (LineTable.ofText (s ++ t)).starts[s.count '\n']? = some (byteSize u) := by
  obtain ⟨u, hs, -, hlast⟩ := exists_lastLine 0 s
  refine ⟨u, hs, ?_⟩
  rw [starts_append, List.getElem?_append_left (by simp [length_lineStartsFrom]),
    ← Nat.zero_add (byteSize u), ← hlast, List.getLast?_eq_getElem?, List.length_cons,
    length_lineStartsFrom, Nat.add_sub_cancel]

/-- A line table gives the place behind the text up to an offset. -/
theorem position_append (s t : Text) :
    (LineTable.ofText (s ++ t)).position (byteSize s) = placeBehind s := by
  obtain ⟨u, hs, hstart⟩ := exists_getElem?_starts s t
  have hline : ((LineTable.ofText (s ++ t)).starts.takeWhile (· ≤ byteSize s)).length - 1 =
      s.count '\n' := by
    rw [takeWhile_starts, List.length_cons, length_lineStartsFrom, Nat.add_sub_cancel]
  have hslice : ∀ l, s = u ++ l → sliceBytes (s ++ t) (byteSize u) (byteSize s) = l := by
    rintro l rfl
    rw [sliceBytes, byteSize_append, Nat.add_sub_cancel_left, List.append_assoc,
      dropBytes_byteSize, takeBytes_byteSize]
  rw [LineTable.position, hline, hstart, Option.getD_some]
  exact congrArg (LineColumn.mk _) (congrArg utf16Size (hslice _ hs))

theorem LineTable.line_position_mono (t : LineTable) {m n : Nat} (h : m ≤ n) :
    (t.position m).line ≤ (t.position n).line := by
  have hle : (t.starts.takeWhile (· ≤ m)).length ≤ (t.starts.takeWhile (· ≤ n)).length := by
    induction t.starts with
    | nil => exact Nat.le_refl _
    | cons k ks ih =>
      by_cases hk : k ≤ m
      · simp [hk, Nat.le_trans hk h, ih]
      · simp [hk]
  simp only [position]
  omega

theorem pairwise_lineStartsFrom (n : Nat) (s : Text) :
    (lineStartsFrom n s).Pairwise (· < ·) := by
  induction s generalizing n with
  | nil => exact .nil
  | cons c s ih =>
    rw [lineStartsFrom]
    by_cases h : c = '\n'
    · rw [if_pos h]
      refine .cons (fun m hm => ?_) (ih _)
      obtain ⟨u, v, -, rfl⟩ := mem_lineStartsFrom.mp hm
      have := byteSize_pos (s := u ++ ['\n']) (by simp)
      omega
    · rw [if_neg h]
      exact ih _

end MarkupHighlight
