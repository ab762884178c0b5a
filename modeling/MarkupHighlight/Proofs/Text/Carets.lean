import MarkupHighlight.Proofs.Edit.Correspondence
import MarkupHighlight.Proofs.Text.FrameRows
import MarkupHighlight.Proofs.Text.Trimming

/-!
What stands above the carets of a code frame. A span with its ends in order and at character
boundaries has a caret for each character before its first line feed, or one (`frameCarets_eq`);
where there is more than one, each of them is below its own character of the span
(`exists_over_caret`), which the frame shows unless it is a carriage return at the end of the line
(`getElem?_dropReturns`).
-/
namespace MarkupHighlight

theorem dropReturns_append {w : Text} (hw : ∀ c ∈ w, c = '\r') (s : Text) :
    dropReturns (s ++ w) = dropReturns s := by
  have hall : ∀ c ∈ w.reverse, (c == '\r') = true := by simpa using hw
  rw [dropReturns, List.reverse_append, List.dropWhile_append_of_pos hall]
  rfl

theorem length_dropReturns_le (s : Text) : (dropReturns s).length ≤ s.length := by
  rw [dropReturns, List.length_reverse]
  exact (List.dropWhile_sublist _).length_le.trans_eq List.length_reverse

/-- A character of a line is shown unless it and all that follow it are carriage returns. -/
theorem getElem?_dropReturns (x : Text) (c : Char) (y : Text) :
    (dropReturns (x ++ c :: y))[x.length]? = some c ↔ ¬ (c = '\r' ∧ ∀ d ∈ y, d = '\r') := by
  by_cases hall : c = '\r' ∧ ∀ d ∈ y, d = '\r'
  · rw [dropReturns_append (List.forall_mem_cons.mpr hall),
      List.getElem?_eq_none (length_dropReturns_le x)]
    exact iff_of_false nofun (not_not.mpr hall)
  · obtain ⟨w, hy, hw, hlast⟩ := exists_rdropWhile (· == '\r') (c :: y)
    cases hkept : (c :: y).rdropWhile (· == '\r') with
    | nil =>
      rw [hkept, List.nil_append] at hy
      rw [← hy] at hw
      exact absurd (by simpa using hw) hall
    | cons d k =>
      rw [hkept] at hy hlast
      obtain ⟨rfl, -⟩ := List.cons.inj hy
      have hdrop : dropReturns (x ++ (c :: k ++ w)) = x ++ c :: k := by
        rw [← List.append_assoc]
        refine rdropWhile_append ?_ hw
        rwa [List.getLast?_append_of_ne_nil _ (List.cons_ne_nil _ _)]
      rw [hy, hdrop, List.getElem?_append_right (Nat.le_refl _), Nat.sub_self,
        List.getElem?_cons_zero]
      exact iff_of_true rfl hall

/-- The line on which a place is, cut at the place. -/
theorem exists_line_eq {s marked : Text} {n : Nat}
    (h : (splitLines s)[(lineColumn s n).line - 1]? = some marked) :
    marked = lastLine (takeBytes s n) ++ (dropBytes s n).takeWhile (· != '\n') := by
  have hline := getElem?_splitLines (takeBytes s n) (dropBytes s n)
  rw [takeBytes_append_dropBytes] at hline
  rw [lineColumn_eq] at h
  exact Option.some.inj (h.symm.trans hline)

/-- With more than one caret the ends of the span, cut off at the end of the text, are in order and
at character boundaries, and the carets are for the part before the first line feed. -/
theorem exists_of_one_lt_frameCarets {s line : Text} {span : Span}
    (h : 1 < frameCarets s span line) :
    ∃ a t b, s = a ++ (t ++ b) ∧ byteSize a = span.start ∧ byteSize (a ++ t) ≤ span.stop ∧
      frameCarets s span line ≤ (t.takeWhile (· != '\n')).length := by
  unfold frameCarets caretCount at h ⊢
  simp only at h ⊢
  cases hslice : slice? s ⟨min span.start (byteSize s), min span.stop (byteSize s)⟩ with
  | none =>
    rw [hslice] at h
    simp at h
  | some t =>
    rw [hslice] at h
    simp only at h ⊢
    obtain ⟨a, b, hs, hspan⟩ := slice?_eq_some_iff.mp hslice
    obtain ⟨hstart, hstop⟩ := Span.mk.inj hspan
    refine ⟨a, t, b, hs, ?_, hstop ▸ Nat.min_le_left .., by omega⟩
    -- Of a span that starts behind the end of the text nothing is left.
    have hlength : 0 < t.length :=
      Nat.lt_of_lt_of_le (by omega) (List.takeWhile_sublist (· != '\n')).length_le
    have hpos := byteSize_pos (List.length_pos_iff.mp hlength)
    have hsize := congrArg byteSize hs
    rw [byteSize_append, byteSize_append] at hsize
    omega

/-- Where there is more than one caret, each is below a character of the marked line that belongs
to the span. -/
theorem exists_over_caret {s marked : Text} {span : Span} {j : Nat}
    (hmarked : (splitLines s)[(lineColumn s span.start).line - 1]? = some marked)
    (hmany : 1 < frameCarets s span marked) (hj : j < frameCarets s span marked) :
    ∃ a c b x, s = a ++ c :: b ∧ span.Has (byteSize a) ∧
      lineColumn s (byteSize a) =
        ⟨(lineColumn s span.start).line, (lineColumn s span.start).column + j⟩ ∧
      marked = x ++ c :: b.takeWhile (· != '\n') ∧
      x.length = (lineColumn s span.start).column - 1 + j := by
  obtain ⟨a, t, b, rfl, hstart, hstop, hle⟩ := exists_of_one_lt_frameCarets hmany
  obtain ⟨w, r, rfl, hw, -, hall, -⟩ := exists_run (· != '\n') t
  rw [hw] at hle
  have hlt : j < w.length := Nat.lt_of_lt_of_le hj hle
  obtain ⟨e, c, f, rfl, rfl⟩ : ∃ e c f, w = e ++ c :: f ∧ e.length = j :=
    ⟨w.take j, w[j], w.drop (j + 1), by
      rw [← List.drop_eq_getElem_cons hlt, List.take_append_drop],
      List.length_take_of_le (Nat.le_of_lt hlt)⟩
  obtain ⟨he, hcf⟩ := List.forall_mem_append.mp hall
  obtain ⟨hc, -⟩ := List.forall_mem_cons.mp hcf
  have hnewline : '\n' ∉ e := fun h => by simpa using he _ h
  have hcut : a ++ (e ++ c :: f ++ r ++ b) = (a ++ e) ++ c :: (f ++ r ++ b) := by simp
  have hplace : lineColumn (a ++ (e ++ c :: f ++ r ++ b)) span.start = lineColumnBehind a := by
    rw [← hstart, lineColumn_append]
  have hline := exists_line_eq hmarked
  refine ⟨a ++ e, c, f ++ r ++ b, lastLine a ++ e, hcut, ⟨?_, ?_⟩, ?_, ?_, ?_⟩
  · rw [← hstart, byteSize_append]
    exact Nat.le_add_right ..
  · have := c.utf8Size_pos
    simp only [byteSize_append, byteSize_cons] at hstop ⊢
    omega
  · rw [hplace, hcut, lineColumn_append, lineColumnBehind_append a hnewline]
  · rw [hline, ← hstart, takeBytes_byteSize, dropBytes_byteSize]
    simp only [List.append_assoc, List.cons_append]
    rw [List.takeWhile_append_of_pos he, List.takeWhile_cons_of_pos (p := (· != '\n')) hc]
  · rw [hplace, List.length_append]
    rfl

/-- A span in the text has a caret for each of its characters up to the first line feed, and one at
least: the clamp to the end of the line takes none away. -/
theorem frameCarets_eq {a t b marked : Text}
    (hmarked : (splitLines (a ++ (t ++ b)))[(lineColumn (a ++ (t ++ b)) (byteSize a)).line - 1]? =
      some marked) :
    frameCarets (a ++ (t ++ b)) ⟨byteSize a, byteSize (a ++ t)⟩ marked =
      max 1 (t.takeWhile (· != '\n')).length := by
  have hmin : min (byteSize a) (byteSize (a ++ (t ++ b))) = byteSize a :=
    Nat.min_eq_left (by simp only [byteSize_append]; omega)
  have hmin' : min (byteSize (a ++ t)) (byteSize (a ++ (t ++ b))) = byteSize (a ++ t) :=
    Nat.min_eq_left (by simp only [byteSize_append]; omega)
  have hslice : slice? (a ++ (t ++ b)) ⟨byteSize a, byteSize (a ++ t)⟩ = some t :=
    slice?_eq_some_iff.mpr ⟨a, b, rfl, rfl⟩
  have hline := exists_line_eq hmarked
  rw [takeBytes_byteSize, dropBytes_byteSize] at hline
  have hroom : (t.takeWhile (· != '\n')).length ≤
      ((t ++ b).takeWhile (· != '\n')).length := by
    obtain ⟨w, r, rfl, hw, -, hall, -⟩ := exists_run (· != '\n') t
    rw [hw, List.append_assoc, List.takeWhile_append_of_pos hall, List.length_append]
    exact Nat.le_add_right ..
  simp only [frameCarets, caretCount, hmin, hmin', hslice, lineColumn_append, lineColumnBehind,
    hline, List.length_append]
  omega

end MarkupHighlight
