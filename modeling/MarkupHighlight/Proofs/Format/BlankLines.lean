import MarkupHighlight.Format.Layout
import MarkupHighlight.Proofs.Text.Trimming
import Mathlib.Data.List.Chain

/-!
Blank lines in a list of lines. A list with no blank line at either end is known from its other
lines and from the numbers of blank lines between them (`Bounded.eq`); dropping blank lines at the
ends keeps both, and collapsing runs of them keeps the lines and bounds the numbers by one.
-/
namespace MarkupHighlight.Layout

/-- The lines that are not blank. -/
def nonBlank (ls : List Text) : List Text := ls.filter (!isBlankLine ·)

/-- How many blank lines come directly before each line that is not blank, if `n` of them come
before the list. -/
def blanksBefore (n : Nat) : List Text → List Nat
  | [] => []
  | l :: ls => if isBlankLine l then blanksBefore (n + 1) ls else n :: blanksBefore 0 ls

/-- How many blank lines are between each two neighbours of the lines that are not blank. -/
def gaps (ls : List Text) : List Nat := (blanksBefore 0 ls).tail

theorem mem_nonBlank {l : Text} {ls : List Text} :
    l ∈ nonBlank ls ↔ l ∈ ls ∧ isBlankLine l = false := by
  simp [nonBlank]

/-! Blank lines around others. -/

theorem nonBlank_append (ls ms : List Text) : nonBlank (ls ++ ms) = nonBlank ls ++ nonBlank ms :=
  List.filter_append ..

theorem nonBlank_eq_nil {ls : List Text} (h : ∀ l ∈ ls, isBlankLine l = true) :
    nonBlank ls = [] := by
  rw [nonBlank, List.filter_eq_nil_iff]
  intro l hl
  simp [h l hl]

theorem blanksBefore_append_blank {bs : List Text} (h : ∀ l ∈ bs, isBlankLine l = true) (n : Nat)
    (ls : List Text) : blanksBefore n (ls ++ bs) = blanksBefore n ls := by
  fun_induction blanksBefore n ls with
  | case1 n =>
    rw [List.nil_append]
    induction bs generalizing n with
    | nil => rfl
    | cons b bs ih =>
      obtain ⟨hb, hbs⟩ := List.forall_mem_cons.mp h
      rw [blanksBefore, if_pos hb, ih hbs]
  | case2 n l ls hl ih => rw [List.cons_append, blanksBefore, if_pos hl, ih]
  | case3 n l ls hl ih => rw [List.cons_append, blanksBefore, if_neg hl, ih]

theorem blanksBefore_blank_append {bs : List Text} (h : ∀ l ∈ bs, isBlankLine l = true) (n : Nat)
    (ls : List Text) : blanksBefore n (bs ++ ls) = blanksBefore (n + bs.length) ls := by
  induction bs generalizing n with
  | nil => rfl
  | cons b bs ih =>
    obtain ⟨hb, hbs⟩ := List.forall_mem_cons.mp h
    rw [List.cons_append, blanksBefore, if_pos hb, ih hbs, List.length_cons, Nat.add_assoc,
      Nat.add_comm 1]

/-- Only the first number depends on what comes before the list. -/
theorem tail_blanksBefore (n : Nat) (ls : List Text) : (blanksBefore n ls).tail = gaps ls := by
  have hstart (m n : Nat) : (blanksBefore m ls).tail = (blanksBefore n ls).tail := by
    induction ls generalizing m n with
    | nil => rfl
    | cons l ls ih =>
      rw [blanksBefore, blanksBefore]
      split
      · exact ih (m + 1) (n + 1)
      · rfl
  exact hstart n 0

section
variable {front back : List Text} (hfront : ∀ l ∈ front, isBlankLine l = true)
  (hback : ∀ l ∈ back, isBlankLine l = true) (ls : List Text)
include hfront hback

theorem nonBlank_surrounded : nonBlank (front ++ (ls ++ back)) = nonBlank ls := by
  rw [nonBlank_append, nonBlank_append, nonBlank_eq_nil hfront, nonBlank_eq_nil hback,
    List.nil_append, List.append_nil]

theorem gaps_surrounded : gaps (front ++ (ls ++ back)) = gaps ls := by
  rw [gaps, blanksBefore_blank_append hfront, tail_blanksBefore, gaps,
    blanksBefore_append_blank hback, gaps]

end

section
variable {f : Text → Text} {ls : List Text} (h : ∀ l ∈ ls, isBlankLine (f l) = isBlankLine l)
include h

theorem nonBlank_map : nonBlank (ls.map f) = (nonBlank ls).map f := by
  rw [nonBlank, List.filter_map, nonBlank]
  congr 1
  apply List.filter_congr
  intro l hl
  simp [h l hl]

theorem gaps_map : gaps (ls.map f) = gaps ls := by
  have hmap (n : Nat) : blanksBefore n (ls.map f) = blanksBefore n ls := by
    induction ls generalizing n with
    | nil => rfl
    | cons l ls ih =>
      obtain ⟨hl, hls⟩ := List.forall_mem_cons.mp h
      rw [List.map_cons, blanksBefore, blanksBefore, hl, ih hls, ih hls]
  rw [gaps, hmap, gaps]

end

/-! Lists of lines without a blank line at either end. -/

structure Bounded (ls : List Text) : Prop where
  head : ∀ l ∈ ls.head?, isBlankLine l = false
  last : ∀ l ∈ ls.getLast?, isBlankLine l = false
  /-- Blank lines have no text. -/
  empty : ∀ l ∈ ls, isBlankLine l = true → l = []

/-- The lines, each behind its number of empty ones. -/
def spread : List Nat → List Text → List Text
  | n :: ns, l :: ls => List.replicate n [] ++ l :: spread ns ls
  | _, _ => []

theorem spread_blanksBefore {ls : List Text} (hempty : ∀ l ∈ ls, isBlankLine l = true → l = [])
    (hlast : ∀ l ∈ ls.getLast?, isBlankLine l = false) {n : Nat} (hn : ls = [] → n = 0) :
    spread (blanksBefore n ls) (nonBlank ls) = List.replicate n [] ++ ls := by
  induction ls generalizing n with
  | nil =>
    rw [hn rfl]
    rfl
  | cons l ls ih =>
    obtain ⟨hl, hls⟩ := List.forall_mem_cons.mp hempty
    have hlast' : ∀ m ∈ ls.getLast?, isBlankLine m = false := by
      intro m hm
      apply hlast m
      rw [List.getLast?_cons, Option.mem_def.mp hm]
      rfl
    cases hblank : isBlankLine l with
    | true =>
      have hne : ls = [] → n + 1 = 0 := by
        rintro rfl
        cases hblank.symm.trans (hlast l rfl)
      rw [blanksBefore, if_pos hblank, nonBlank, List.filter_cons_of_neg (by simp [hblank]),
        ← nonBlank, ih hls hlast' hne, hl hblank, List.replicate_succ']
      simp
    | false =>
      rw [blanksBefore, if_neg (by simp [hblank]), nonBlank,
        List.filter_cons_of_pos (by simp [hblank]), ← nonBlank, spread,
        ih hls hlast' fun _ => rfl]
      rfl

theorem Bounded.blanksBefore_eq {ls : List Text} (h : Bounded ls) (hne : ls ≠ []) :
    blanksBefore 0 ls = 0 :: gaps ls := by
  obtain ⟨l, ls, rfl⟩ := List.exists_cons_of_ne_nil hne
  have hl := h.head l rfl
  rw [gaps, blanksBefore, if_neg (by simp [hl]), List.tail_cons]

/-- Two such lists with the same lines and gaps are the same. -/
theorem Bounded.eq {ls ms : List Text} (h : Bounded ls) (h' : Bounded ms)
    (hlines : nonBlank ls = nonBlank ms) (hgaps : gaps ls = gaps ms) : ls = ms := by
  have hnil {xs : List Text} (hx : Bounded xs) (hxs : nonBlank xs = []) : xs = [] := by
    cases xs with
    | nil => rfl
    | cons x xs => simp [nonBlank, hx.head x rfl] at hxs
  by_cases hls : ls = []
  · have hms : nonBlank ms = [] := by rw [← hlines, hls]; rfl
    rw [hls, hnil h' hms]
  · have hms : ms ≠ [] := by
      rintro rfl
      exact hls (hnil h hlines)
    have hspread := spread_blanksBefore h.empty h.last (n := 0) fun _ => rfl
    have hspread' := spread_blanksBefore h'.empty h'.last (n := 0) fun _ => rfl
    rw [h.blanksBefore_eq hls, hgaps, hlines, ← h'.blanksBefore_eq hms, hspread'] at hspread
    exact hspread.symm

/-! Blank lines at the ends. -/

theorem exists_trimBlankLines (ls : List Text) :
    ∃ front back, ls = front ++ (trimBlankLines ls ++ back) ∧ (∀ l ∈ front, l = []) ∧
      (∀ l ∈ back, l = []) ∧ (∀ l ∈ (trimBlankLines ls).head?, l ≠ []) ∧
      ∀ l ∈ (trimBlankLines ls).getLast?, l ≠ [] := by
  obtain ⟨back, hback, hblank, hlast⟩ :=
    exists_rdropWhile (α := Text) List.isEmpty (ls.dropWhile List.isEmpty)
  have htrim : trimBlankLines ls = (ls.dropWhile List.isEmpty).rdropWhile List.isEmpty := rfl
  refine ⟨ls.takeWhile List.isEmpty, back, ?_, ?_, ?_, ?_, ?_⟩
  · rw [htrim, ← hback, List.takeWhile_append_dropWhile]
  · intro l hl
    simpa using List.all_eq_true.mp List.all_takeWhile l hl
  · intro l hl
    simpa using hblank l hl
  · intro l hl
    have hnot := List.head?_dropWhile_not List.isEmpty ls
    rw [hback, List.head?_append, ← htrim, Option.mem_def.mp hl] at hnot
    simpa using hnot
  · intro l hl
    rw [htrim] at hl
    simpa using hlast l hl

theorem mem_trimBlankLines {l : Text} {ls : List Text} (h : l ∈ trimBlankLines ls) : l ∈ ls := by
  obtain ⟨front, back, hls, -⟩ := exists_trimBlankLines ls
  rw [hls]
  exact List.mem_append_right _ (List.mem_append_left _ h)

theorem nonBlank_trimBlankLines (ls : List Text) : nonBlank (trimBlankLines ls) = nonBlank ls := by
  obtain ⟨front, back, hls, hfront, hback, -⟩ := exists_trimBlankLines ls
  conv_rhs => rw [hls]
  exact (nonBlank_surrounded (fun l hl => by rw [hfront l hl]; rfl)
    (fun l hl => by rw [hback l hl]; rfl) _).symm

theorem gaps_trimBlankLines (ls : List Text) : gaps (trimBlankLines ls) = gaps ls := by
  obtain ⟨front, back, hls, hfront, hback, -⟩ := exists_trimBlankLines ls
  conv_rhs => rw [hls]
  exact (gaps_surrounded (fun l hl => by rw [hfront l hl]; rfl)
    (fun l hl => by rw [hback l hl]; rfl) _).symm

/-! Runs of blank lines. -/

theorem mem_collapseBlankLines {l : Text} {ls : List Text} (h : l ∈ collapseBlankLines ls) :
    l ∈ ls := by
  fun_induction collapseBlankLines ls with
  | case1 ls ih => exact List.mem_cons_of_mem _ (ih h)
  | case2 m ls _ ih =>
    rcases List.mem_cons.mp h with rfl | h
    · exact List.mem_cons_self ..
    · exact List.mem_cons_of_mem _ (ih h)
  | case3 => exact h

theorem head?_collapseBlankLines (ls : List Text) : (collapseBlankLines ls).head? = ls.head? := by
  fun_induction collapseBlankLines ls with
  | case1 ls ih => exact ih
  | case2 => rfl
  | case3 => rfl

theorem getLast?_collapseBlankLines (ls : List Text) :
    (collapseBlankLines ls).getLast? = ls.getLast? := by
  fun_induction collapseBlankLines ls with
  | case1 ls ih => rw [ih, List.getLast?_cons_cons]
  | case2 l ls _ ih => rw [List.getLast?_cons, List.getLast?_cons, ih]
  | case3 => rfl

theorem nonBlank_collapseBlankLines (ls : List Text) :
    nonBlank (collapseBlankLines ls) = nonBlank ls := by
  fun_induction collapseBlankLines ls with
  | case1 ls ih => exact ih
  | case2 l ls _ ih =>
    simp only [nonBlank, List.filter_cons] at ih ⊢
    rw [ih]
  | case3 => rfl

/-- No two empty lines are neighbours. -/
theorem isChain_collapseBlankLines (ls : List Text) :
    (collapseBlankLines ls).IsChain fun l m => l = [] → m ≠ [] := by
  fun_induction collapseBlankLines ls with
  | case1 ls ih => exact ih
  | case2 l ls hnot ih =>
    refine List.isChain_cons.mpr ⟨fun m hm hl hmnil => ?_, ih⟩
    rw [head?_collapseBlankLines] at hm
    obtain ⟨ms, hls⟩ := List.head?_eq_some_iff.mp hm
    exact hnot ms hl (hmnil ▸ hls)
  | case3 => exact .nil

theorem map_min_blanksBefore (n : Nat) (ls : List Text) :
    (blanksBefore (n + 1) ls).map (min 1) = (blanksBefore 1 ls).map (min 1) := by
  induction ls generalizing n with
  | nil => rfl
  | cons l ls ih =>
    rw [blanksBefore, blanksBefore]
    split
    · rw [ih (n + 1), ← ih 1]
    · simp

theorem blanksBefore_collapseBlankLines {ls : List Text}
    (h : ∀ l ∈ ls, isBlankLine l = true → l = []) :
    blanksBefore 0 (collapseBlankLines ls) = (blanksBefore 0 ls).map (min 1) := by
  fun_induction collapseBlankLines ls with
  | case1 ls ih =>
    rw [ih (List.forall_mem_cons.mp h).2]
    exact (map_min_blanksBefore 1 ls).symm
  | case2 l ls hnot ih =>
    obtain ⟨hl, hls⟩ := List.forall_mem_cons.mp h
    have hrest := ih hls
    cases hblank : isBlankLine l with
    | false =>
      simp only [blanksBefore, hblank, hrest, Bool.false_eq_true, if_false, List.map_cons]
      rfl
    | true =>
      -- the next line is not blank, or it would have been collapsed with this one
      cases ls with
      | nil => simp [blanksBefore, hblank, collapseBlankLines]
      | cons m ms =>
        have hm : isBlankLine m = false := by
          cases hm : isBlankLine m with
          | false => rfl
          | true => exact False.elim (hnot ms (hl hblank) (by rw [hls m (List.mem_cons_self ..) hm]))
        have hne : m ≠ [] := by
          rintro rfl
          cases hm
        obtain ⟨c, m, rfl⟩ := List.exists_cons_of_ne_nil hne
        rw [collapseBlankLines] at hrest ⊢
        · simp only [blanksBefore, hblank, hm, Bool.false_eq_true, if_true, if_false, List.map_cons,
            List.cons.injEq] at hrest ⊢
          exact ⟨rfl, hrest.2⟩
        all_goals simp
  | case3 => rfl

theorem gaps_collapseBlankLines {ls : List Text} (h : ∀ l ∈ ls, isBlankLine l = true → l = []) :
    gaps (collapseBlankLines ls) = (gaps ls).map (min 1) := by
  rw [gaps, blanksBefore_collapseBlankLines h, ← List.map_tail, gaps]

end MarkupHighlight.Layout
