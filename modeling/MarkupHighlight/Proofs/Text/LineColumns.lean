import MarkupHighlight.Proofs.Text.Places

/-!
Places of a text counted from one in lines and characters. Like a place in UTF-16 units, the place
behind a part of a text depends on that part alone (`lineColumn_append`). A later place is behind
an earlier one in the order of reading, and the line of a place is the one that the lines of the
text have at its number.
-/
namespace MarkupHighlight

/-- The line and the column behind `s`, both from one. -/
def lineColumnBehind (s : Text) : LineColumn := ⟨s.count '\n' + 1, (lastLine s).length + 1⟩

/-- The last character boundary at or before byte `n`. -/
def lastBoundary (s : Text) (n : Nat) : Nat := byteSize (takeBytes s n)

theorem lineColumn_eq (s : Text) (n : Nat) : lineColumn s n = lineColumnBehind (takeBytes s n) := by
  rw [lineColumn, lineColumnBehind, lastLine, List.length_reverse]

theorem lineColumn_append (s t : Text) :
    lineColumn (s ++ t) (byteSize s) = lineColumnBehind s := by
  rw [lineColumn_eq, takeBytes_byteSize]

/-! Offsets that are no character boundaries. -/

theorem isBoundary_lastBoundary (s : Text) (n : Nat) : isBoundary s (lastBoundary s n) = true :=
  isBoundary_iff.mpr ⟨takeBytes s n, dropBytes s n, (takeBytes_append_dropBytes s n).symm, rfl⟩

theorem lastBoundary_le (s : Text) (n : Nat) : lastBoundary s n ≤ n := by
  unfold lastBoundary
  induction s generalizing n with
  | nil => exact Nat.zero_le _
  | cons c s ih =>
    rw [takeBytes]
    split
    next hc =>
      have := ih (n - c.utf8Size)
      rw [byteSize_cons]
      omega
    next => exact Nat.zero_le _

/-- Every character boundary up to byte `n` is at or before the last one. -/
theorem le_lastBoundary {s : Text} {m n : Nat} (hm : isBoundary s m = true) (hle : m ≤ n) :
    m ≤ lastBoundary s n := by
  obtain ⟨a, b, rfl, rfl⟩ := isBoundary_iff.mp hm
  obtain ⟨k, rfl⟩ := Nat.exists_eq_add_of_le hle
  rw [lastBoundary, takeBytes_append, byteSize_append]
  exact Nat.le_add_right ..

theorem lastBoundary_eq {s : Text} {n : Nat} (h : isBoundary s n = true) : lastBoundary s n = n :=
  Nat.le_antisymm (lastBoundary_le s n) (le_lastBoundary h (Nat.le_refl n))

theorem lineColumn_lastBoundary (s : Text) (n : Nat) :
    lineColumn s (lastBoundary s n) = lineColumn s n := by
  have hcut := lineColumn_append (takeBytes s n) (dropBytes s n)
  rwa [takeBytes_append_dropBytes, ← lineColumn_eq] at hcut

/-! The order of places. -/

theorem lineColumnBehind_append (s : Text) {t : Text} (h : '\n' ∉ t) :
    lineColumnBehind (s ++ t) =
      ⟨(lineColumnBehind s).line, (lineColumnBehind s).column + t.length⟩ := by
  simp only [lineColumnBehind, lastLine_append s h, List.count_append,
    List.count_eq_zero_of_not_mem h, List.length_append, Nat.add_zero, Nat.add_right_comm]

theorem before_lineColumnBehind (s : Text) {t : Text} (h : t ≠ []) :
    (lineColumnBehind s).Before (lineColumnBehind (s ++ t)) :=
  LineColumn.before_of_append 1 (fun _ _ => List.length_append)
    (fun _ => List.length_pos_iff.mpr) s h

theorem before_lineColumn {s : Text} {m n : Nat} (hm : isBoundary s m = true)
    (hn : isBoundary s n = true) (h : m < n) : (lineColumn s m).Before (lineColumn s n) := by
  obtain ⟨a, b, rfl, rfl⟩ := isBoundary_iff.mp hm
  obtain ⟨c, d, hcut, rfl⟩ := isBoundary_iff.mp hn
  obtain ⟨e, rfl, rfl⟩ := exists_of_append_eq hcut (Nat.le_of_lt h)
  rw [lineColumn_append, hcut, lineColumn_append]
  apply before_lineColumnBehind
  rintro rfl
  rw [List.append_nil] at h
  exact Nat.lt_irrefl _ h

theorem LineColumn.Before.asymm {p q : LineColumn} (h : p.Before q) : ¬ q.Before p := by
  unfold Before at *
  omega

/-- Places of character boundaries are in order exactly if the boundaries are. -/
theorem before_lineColumn_iff {s : Text} {m n : Nat} (hm : isBoundary s m = true)
    (hn : isBoundary s n = true) : (lineColumn s m).Before (lineColumn s n) ↔ m < n := by
  refine ⟨fun h => ?_, before_lineColumn hm hn⟩
  by_contra hnot
  rcases Nat.lt_or_eq_of_le (Nat.le_of_not_lt hnot) with hlt | rfl
  · exact h.asymm (before_lineColumn hn hm hlt)
  · exact h.asymm h

theorem lineColumn_injective {s : Text} {m n : Nat} (hm : isBoundary s m = true)
    (hn : isBoundary s n = true) (h : lineColumn s m = lineColumn s n) : m = n := by
  have hirrefl (p : LineColumn) : ¬ p.Before p := fun h => h.asymm h
  have hmn := before_lineColumn_iff hm hn
  have hnm := before_lineColumn_iff hn hm
  rw [h] at hmn hnm
  exact Nat.le_antisymm (Nat.le_of_not_lt fun hlt => hirrefl _ (hnm.mpr hlt))
    (Nat.le_of_not_lt fun hlt => hirrefl _ (hmn.mpr hlt))

/-! The line of a place. -/

theorem lastLine_line (u t : Text) : lastLine (u ++ '\n' :: t) = lastLine t := by
  induction t using List.reverseRecOn with
  | nil =>
    rw [lastLine_concat, if_pos rfl]
    rfl
  | append_singleton t c ih =>
    rw [← List.cons_append, ← List.append_assoc, lastLine_concat, lastLine_concat, ih]

theorem head?_splitLines {l : Text} (h : '\n' ∉ l) (b : Text) :
    (splitLines (l ++ b))[0]? = some (l ++ b.takeWhile (· != '\n')) := by
  obtain ⟨w, r, rfl, hw, -, hall, hhead⟩ := exists_run (· != '\n') b
  have hline : '\n' ∉ l ++ w := by
    rw [List.mem_append, not_or]
    exact ⟨h, fun hmem => by simpa using hall _ hmem⟩
  rw [hw, ← List.append_assoc, splitLines]
  cases r with
  | nil => rw [List.append_nil, splitOnChar_of_notMem hline, List.getElem?_cons_zero]
  | cons c r =>
    obtain rfl : c = '\n' := by simpa using hhead c rfl
    rw [splitOnChar_append hline, List.getElem?_cons_zero]

/-- Behind a part of a text the line of that number goes on: it is what the part has of it, and what
the rest has up to a line feed. -/
theorem getElem?_splitLines (a b : Text) :
    (splitLines (a ++ b))[a.count '\n']? = some (lastLine a ++ b.takeWhile (· != '\n')) := by
  induction a using lines_induction with
  | nil => exact head?_splitLines List.not_mem_nil b
  | last l _ hl =>
    have hlast : lastLine l = l := lastLine_append [] hl
    rw [List.count_eq_zero_of_not_mem hl, hlast]
    exact head?_splitLines hl b
  | line l t hl ih =>
    have hcount : (l ++ '\n' :: t).count '\n' = t.count '\n' + 1 := by
      rw [List.count_append, List.count_eq_zero_of_not_mem hl, Nat.zero_add,
        List.count_cons_self]
    rw [List.append_assoc, List.cons_append, splitLines, splitOnChar_append hl, hcount,
      lastLine_line, List.getElem?_cons_succ]
    exact ih

theorem length_splitLines (s : Text) : (splitLines s).length = s.count '\n' + 1 := by
  induction s using lines_induction with
  | nil => rfl
  | last l _ hl => rw [splitLines, splitOnChar_of_notMem hl, List.count_eq_zero_of_not_mem hl]; rfl
  | line l t hl ih =>
    rw [splitLines, splitOnChar_append hl, List.length_cons, ← splitLines, ih, List.count_append,
      List.count_eq_zero_of_not_mem hl, List.count_cons_self, Nat.zero_add]

/-- A line table gives the number of a place's line and the units before the place on it. -/
theorem exists_position_eq {s : Text} {n : Nat} (h : isBoundary s n = true) :
    ∃ number before line, lineColumn s n = ⟨number + 1, before + 1⟩ ∧
      (splitLines s)[number]? = some line ∧ before ≤ line.length ∧
      (LineTable.ofText s).position n = ⟨number, utf16Size (line.take before)⟩ := by
  obtain ⟨a, b, rfl, rfl⟩ := isBoundary_iff.mp h
  refine ⟨a.count '\n', (lastLine a).length, lastLine a ++ b.takeWhile (· != '\n'),
    lineColumn_append a b, getElem?_splitLines a b, ?_, ?_⟩
  · rw [List.length_append]
    exact Nat.le_add_right ..
  · rw [position_append, List.take_left]
    rfl

end MarkupHighlight
