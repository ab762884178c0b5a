import MarkupHighlight.Proofs.Format.BlankLines
import MarkupHighlight.Proofs.Format.Indentation
import MarkupHighlight.Proofs.Text.Lines

/-!
What laying out code gives (`normalize_eq_iff`). `IsLayout` says it without the steps: which lines
there are, what is between them and how each is indented. Two layouts of the same lines are the
same text (`IsLayout.eq`), so the specification has `normalize` as its only solution.
-/
namespace MarkupHighlight.Layout

/-- `out` is a layout of `code`. -/
structure IsLayout (o : FormatOptions) (code out : Text) : Prop where
  /-- The lines have one line feed between each two and none behind the last. -/
  joined : out = joinWith ['\n'] (textLines out)
  first : ∀ l ∈ (textLines out).head?, isBlankLine l = false
  last : ∀ l ∈ (textLines out).getLast?, isBlankLine l = false
  trimmed : ∀ l ∈ textLines out, Trimmed l
  single : (textLines out).IsChain fun l m => isBlankLine l = true → isBlankLine m = false
  texts : (nonBlank (textLines out)).map unindented =
    (nonBlank (textLines code)).map fun l => trimEnd (unindented l)
  between : gaps (textLines out) = (gaps (textLines code)).map (min 1)
  /-- All lines lose the same width. -/
  widths : ∃ common, (nonBlank (textLines code)).map (indentWidth o) =
    (nonBlank (textLines out)).map (common + indentWidth o ·)
  least : nonBlank (textLines out) ≠ [] → ∃ l ∈ nonBlank (textLines out), indentWidth o l = 0
  spaces : o.useTabs = false → ∀ l ∈ textLines out, indentOf l = List.replicate (indentWidth o l) ' '
  tabs : o.useTabs = true → ∀ l ∈ textLines out,
    indentOf l = List.replicate (indentWidth o l / max 1 o.tabWidth) '\t' ++
      List.replicate (indentWidth o l % max 1 o.tabWidth) ' '

/-! The lines that are laid out. -/

/-- The lines of some code without blanks at their ends, from the first to the last that is not
blank. -/
def bodyLines (code : Text) : List Text := trimBlankLines ((textLines code).map trimEnd)

/-- The width that all lines of some code are indented by. -/
def sharedIndent (o : FormatOptions) (code : Text) : Nat :=
  commonIndent (columnsPerTab o) (bodyLines code)

theorem layoutLines_eq (o : FormatOptions) (code : Text) :
    layoutLines o code =
      collapseBlankLines ((bodyLines code).map (reindent o (sharedIndent o code))) := rfl

section
variable {code line : Text} (h : line ∈ bodyLines code)
include h

theorem exists_of_mem_bodyLines : ∃ l ∈ textLines code, trimEnd l = line := by
  simpa using mem_trimBlankLines h

theorem trimmed_of_mem_bodyLines : Trimmed line := by
  obtain ⟨l, -, rfl⟩ := exists_of_mem_bodyLines h
  exact trimmed_trimEnd l

theorem notMem_of_mem_bodyLines : '\n' ∉ line := by
  obtain ⟨l, hl, rfl⟩ := exists_of_mem_bodyLines h
  obtain ⟨w, hw, -, -⟩ := exists_trimEnd l
  intro hmem
  apply notMem_of_mem_textLines hl
  rw [hw]
  exact List.mem_append_left w hmem

end

theorem nonBlank_bodyLines (code : Text) :
    nonBlank (bodyLines code) = (nonBlank (textLines code)).map trimEnd := by
  rw [bodyLines, nonBlank_trimBlankLines, nonBlank_map fun l _ => isBlankLine_trimEnd l]

theorem gaps_bodyLines (code : Text) : gaps (bodyLines code) = gaps (textLines code) := by
  rw [bodyLines, gaps_trimBlankLines, gaps_map fun l _ => isBlankLine_trimEnd l]

theorem bounded_bodyLines (code : Text) : Bounded (bodyLines code) := by
  obtain ⟨-, -, -, -, -, hhead, hlast⟩ := exists_trimBlankLines ((textLines code).map trimEnd)
  have hempty : ∀ l ∈ bodyLines code, isBlankLine l = true → l = [] := fun l hl =>
    (trimmed_of_mem_bodyLines hl).isBlankLine_iff.mp
  refine ⟨fun l hl => ?_, fun l hl => ?_, hempty⟩
  · exact Bool.eq_false_iff.mpr
      (mt (hempty l (List.mem_of_mem_head? hl)) (hhead l hl))
  · exact Bool.eq_false_iff.mpr
      (mt (hempty l (List.mem_of_getLast? hl)) (hlast l hl))

/-! The width that is taken away. -/

theorem indentWidths_bodyLines (o : FormatOptions) (code : Text) :
    ((bodyLines code).filter (!·.isEmpty)).map (fun l => (splitIndent (columnsPerTab o) l).1) =
      (nonBlank (textLines code)).map (indentWidth o) := by
  have hfilter : (bodyLines code).filter (!·.isEmpty) = nonBlank (bodyLines code) := by
    apply List.filter_congr
    intro l hl
    rw [Bool.eq_iff_iff]
    simp [(trimmed_of_mem_bodyLines hl).isBlankLine_iff, Bool.eq_false_iff]
  rw [hfilter, nonBlank_bodyLines, List.map_map]
  apply List.map_congr_left
  intro l hl
  rw [Function.comp_apply, splitIndent_eq, indentOf_trimEnd (mem_nonBlank.mp hl).2]
  rfl

theorem sharedIndent_le (o : FormatOptions) {code l : Text} (h : l ∈ nonBlank (textLines code)) :
    sharedIndent o code ≤ indentWidth o l := by
  rw [sharedIndent, commonIndent, indentWidths_bodyLines]
  exact List.min?_getD_le_of_mem (List.mem_map_of_mem h)

theorem exists_indentWidth_eq (o : FormatOptions) {code : Text}
    (h : nonBlank (textLines code) ≠ []) :
    ∃ l ∈ nonBlank (textLines code), indentWidth o l = sharedIndent o code := by
  have hne : (nonBlank (textLines code)).map (indentWidth o) ≠ [] := mt List.map_eq_nil_iff.mp h
  obtain ⟨width, hwidth⟩ := Option.isSome_iff_exists.mp (List.isSome_min?_of_ne_nil hne)
  rw [sharedIndent, commonIndent, indentWidths_bodyLines, hwidth]
  exact List.mem_map.mp (List.min?_mem hwidth)

/-! The lines of the layout. -/

section
variable {o : FormatOptions} {code line : Text} (h : line ∈ layoutLines o code)
include h

theorem exists_of_mem_layoutLines :
    ∃ l ∈ bodyLines code, reindent o (sharedIndent o code) l = line :=
  List.mem_map.mp (mem_collapseBlankLines h)

theorem trimmed_of_mem_layoutLines : Trimmed line := by
  obtain ⟨l, hl, rfl⟩ := exists_of_mem_layoutLines h
  exact trimmed_reindent o _ (trimmed_of_mem_bodyLines hl)

theorem notMem_of_mem_layoutLines : '\n' ∉ line := by
  obtain ⟨l, hl, rfl⟩ := exists_of_mem_layoutLines h
  rw [← indentOf_append_unindented (reindent o _ l), indentOf_reindent, unindented_reindent]
  intro hmem
  rcases List.mem_append.mp hmem with hmem | hmem
  · cases mem_renderIndent hmem
  · exact notMem_of_mem_bodyLines hl ((List.dropWhile_sublist _).subset hmem)

theorem indentOf_of_mem_layoutLines : indentOf line = renderIndent o (indentWidth o line) := by
  obtain ⟨l, -, rfl⟩ := exists_of_mem_layoutLines h
  rw [indentOf_reindent, indentWidth_reindent]

end

theorem isBlankLine_iff_of_mem_layoutLines {o : FormatOptions} {code line : Text}
    (h : line ∈ layoutLines o code) : isBlankLine line = true ↔ line = [] :=
  (trimmed_of_mem_layoutLines h).isBlankLine_iff

theorem nonBlank_layoutLines (o : FormatOptions) (code : Text) :
    nonBlank (layoutLines o code) =
      (nonBlank (textLines code)).map fun l => reindent o (sharedIndent o code) (trimEnd l) := by
  rw [layoutLines_eq, nonBlank_collapseBlankLines, nonBlank_map fun l _ => isBlankLine_reindent o _ l,
    nonBlank_bodyLines, List.map_map]
  rfl

theorem gaps_layoutLines (o : FormatOptions) (code : Text) :
    gaps (layoutLines o code) = (gaps (textLines code)).map (min 1) := by
  rw [layoutLines_eq, gaps_collapseBlankLines, gaps_map fun l _ => isBlankLine_reindent o _ l,
    gaps_bodyLines]
  intro l hl
  obtain ⟨m, hm, rfl⟩ := List.mem_map.mp hl
  exact (trimmed_reindent o _ (trimmed_of_mem_bodyLines hm)).isBlankLine_iff.mp

theorem bounded_layoutLines (o : FormatOptions) (code : Text) : Bounded (layoutLines o code) := by
  obtain ⟨hhead, hlast, -⟩ := bounded_bodyLines code
  refine ⟨fun l hl => ?_, fun l hl => ?_, fun l hl => (isBlankLine_iff_of_mem_layoutLines hl).mp⟩
  · rw [layoutLines_eq, head?_collapseBlankLines, List.head?_map] at hl
    obtain ⟨m, hm, rfl⟩ := Option.map_eq_some_iff.mp hl
    rw [isBlankLine_reindent, hhead m hm]
  · rw [layoutLines_eq, getLast?_collapseBlankLines, List.getLast?_map] at hl
    obtain ⟨m, hm, rfl⟩ := Option.map_eq_some_iff.mp hl
    rw [isBlankLine_reindent, hlast m hm]

theorem isChain_layoutLines (o : FormatOptions) (code : Text) :
    (layoutLines o code).IsChain fun l m => isBlankLine l = true → isBlankLine m = false := by
  have hchain := isChain_collapseBlankLines ((bodyLines code).map (reindent o (sharedIndent o code)))
  rw [← layoutLines_eq] at hchain
  refine hchain.imp_of_mem_imp fun l m hl hm hlm hblank => ?_
  rw [Bool.eq_false_iff, ne_eq, isBlankLine_iff_of_mem_layoutLines hm]
  exact hlm ((isBlankLine_iff_of_mem_layoutLines hl).mp hblank)

theorem textLines_normalize (o : FormatOptions) (code : Text) :
    textLines (normalize o code) = layoutLines o code := by
  apply textLines_joinWith
  · exact fun l hl => notMem_of_mem_layoutLines hl
  · intro l hl hreturn
    cases trimmed_of_mem_layoutLines hl _ hreturn
  · intro l hl hnil
    have hblank := (bounded_layoutLines o code).last l hl
    rw [hnil] at hblank
    cases hblank

theorem isLayout_normalize (o : FormatOptions) (code : Text) :
    IsLayout o code (normalize o code) := by
  have hlines := textLines_normalize o code
  have hmem {l : Text} (hl : l ∈ nonBlank (textLines code)) :
      indentWidth o (trimEnd l) = indentWidth o l := by
    rw [indentWidth, indentOf_trimEnd (mem_nonBlank.mp hl).2, indentWidth]
  constructor <;> rw [hlines]
  · rfl
  · exact (bounded_layoutLines o code).head
  · exact (bounded_layoutLines o code).last
  · exact fun l hl => trimmed_of_mem_layoutLines hl
  · exact isChain_layoutLines o code
  · rw [nonBlank_layoutLines, List.map_map]
    apply List.map_congr_left
    intro l hl
    rw [Function.comp_apply, unindented_reindent, unindented_trimEnd (mem_nonBlank.mp hl).2]
  · exact gaps_layoutLines o code
  · refine ⟨sharedIndent o code, ?_⟩
    rw [nonBlank_layoutLines, List.map_map]
    apply List.map_congr_left
    intro l hl
    rw [Function.comp_apply, indentWidth_reindent, hmem hl]
    exact (Nat.add_sub_of_le (sharedIndent_le o hl)).symm
  · rw [nonBlank_layoutLines]
    intro hne
    obtain ⟨l, hl, hwidth⟩ := exists_indentWidth_eq o (mt List.map_eq_nil_iff.mpr hne)
    refine ⟨_, List.mem_map_of_mem hl, ?_⟩
    rw [indentWidth_reindent, hmem hl, hwidth, Nat.sub_self]
  · intro htabs l hl
    rw [indentOf_of_mem_layoutLines hl, renderIndent, if_neg (by simp [htabs])]
  · intro htabs l hl
    rw [indentOf_of_mem_layoutLines hl, renderIndent, if_pos htabs]
    rfl

/-! Layouts of the same lines. -/

/-- The lines of `ls` and of `ms` differ in blanks at their ends, in a shared indentation and in the
lengths of runs of blank lines at most. -/
structure Alike (o : FormatOptions) (ls ms : List Text) : Prop where
  texts : (nonBlank ls).map (fun l => trimEnd (unindented l)) =
    (nonBlank ms).map fun m => trimEnd (unindented m)
  between : (gaps ls).map (min 1) = (gaps ms).map (min 1)
  widths : ∃ a b, (nonBlank ls).map (a + indentWidth o ·) = (nonBlank ms).map (b + indentWidth o ·)

section
variable {o : FormatOptions} {ls ms ns : List Text}

theorem Alike.rfl : Alike o ls ls := ⟨Eq.refl _, Eq.refl _, 0, 0, Eq.refl _⟩

theorem Alike.symm (h : Alike o ls ms) : Alike o ms ls := by
  obtain ⟨a, b, hwidths⟩ := h.widths
  exact ⟨h.texts.symm, h.between.symm, b, a, hwidths.symm⟩

theorem map_add_indentWidth {a b : Nat} (c : Nat)
    (h : (nonBlank ls).map (a + indentWidth o ·) = (nonBlank ms).map (b + indentWidth o ·)) :
    (nonBlank ls).map (c + a + indentWidth o ·) = (nonBlank ms).map (c + b + indentWidth o ·) := by
  have hmap := congrArg (List.map (c + ·)) h
  simpa only [List.map_map, Function.comp_def, ← Nat.add_assoc] using hmap

theorem Alike.trans (h : Alike o ls ms) (h' : Alike o ms ns) : Alike o ls ns := by
  obtain ⟨a, b, hwidths⟩ := h.widths
  obtain ⟨c, d, hwidths'⟩ := h'.widths
  refine ⟨h.texts.trans h'.texts, h.between.trans h'.between, c + a, b + d, ?_⟩
  rw [map_add_indentWidth c hwidths, Nat.add_comm c b, map_add_indentWidth b hwidths']

instance : Trans (Alike o) (Alike o) (Alike o) := ⟨Alike.trans⟩

end

section
variable {o : FormatOptions} {code code' out out' : Text}

theorem IsLayout.bounded (h : IsLayout o code out) : Bounded (textLines out) :=
  ⟨h.first, h.last, fun l hl => (h.trimmed l hl).isBlankLine_iff.mp⟩

theorem IsLayout.map_trimEnd_unindented (h : IsLayout o code out) :
    (nonBlank (textLines out)).map (fun l => trimEnd (unindented l)) =
      (nonBlank (textLines out)).map unindented := by
  apply List.map_congr_left
  intro l hl
  obtain ⟨hl, hblank⟩ := mem_nonBlank.mp hl
  rw [← unindented_trimEnd hblank, (h.trimmed l hl).trimEnd]

theorem IsLayout.map_min_gaps (h : IsLayout o code out) :
    (gaps (textLines out)).map (min 1) = gaps (textLines out) := by
  rw [h.between, List.map_map]
  apply List.map_congr_left
  intro n _
  exact min_eq_right (Nat.min_le_left 1 n)

theorem IsLayout.alike (h : IsLayout o code out) : Alike o (textLines code) (textLines out) := by
  obtain ⟨common, hwidths⟩ := h.widths
  refine ⟨?_, ?_, 0, common, ?_⟩
  · rw [h.map_trimEnd_unindented, h.texts]
  · rw [h.map_min_gaps, h.between]
  · simpa using hwidths

/-- Where the least number is zero on both sides, nothing is added. -/
theorem eq_of_map_add_eq {a b : Nat} {xs ys : List Nat} (h : xs.map (a + ·) = ys.map (b + ·))
    (hxs : xs ≠ [] → 0 ∈ xs) (hys : ys ≠ [] → 0 ∈ ys) : xs = ys := by
  have hle {a b : Nat} {xs ys : List Nat} (h : xs.map (a + ·) = ys.map (b + ·)) (hxs : 0 ∈ xs) :
      b ≤ a := by
    have hmem : a + 0 ∈ ys.map (b + ·) := h ▸ List.mem_map_of_mem hxs
    obtain ⟨y, -, hy⟩ := List.mem_map.mp hmem
    omega
  by_cases hnil : xs = []
  · subst hnil
    exact (List.map_eq_nil_iff.mp h.symm).symm
  · have hne : ys ≠ [] := by
      rintro rfl
      exact hnil (List.map_eq_nil_iff.mp h)
    obtain rfl : a = b := Nat.le_antisymm (hle h.symm (hys hne)) (hle h (hxs hnil))
    exact List.map_injective_iff.mpr (fun _ _ => Nat.add_left_cancel) h

theorem IsLayout.zero_mem (h : IsLayout o code out) :
    (nonBlank (textLines out)).map (indentWidth o) ≠ [] →
      0 ∈ (nonBlank (textLines out)).map (indentWidth o) := by
  intro hne
  obtain ⟨l, hl, hwidth⟩ := h.least (mt List.map_eq_nil_iff.mpr hne)
  exact List.mem_map.mpr ⟨l, hl, hwidth⟩

theorem IsLayout.line_eq (h : IsLayout o code out) {l : Text} (hl : l ∈ textLines out) :
    renderIndent o (indentWidth o l) ++ unindented l = l := by
  conv_rhs => rw [← indentOf_append_unindented l]
  congr 1
  cases htabs : o.useTabs with
  | false => rw [h.spaces htabs l hl, renderIndent, if_neg (by simp [htabs])]
  | true =>
    rw [renderIndent, if_pos htabs]
    exact (h.tabs htabs l hl).symm

/-- The lines of a layout are known from their widths and their texts. -/
theorem IsLayout.nonBlank_eq (h : IsLayout o code out) :
    nonBlank (textLines out) =
      List.zipWith (renderIndent o · ++ ·) ((nonBlank (textLines out)).map (indentWidth o))
        ((nonBlank (textLines out)).map unindented) := by
  rw [List.zipWith_map, List.zipWith_self]
  conv_lhs => rw [← List.map_id (nonBlank (textLines out))]
  apply List.map_congr_left
  intro l hl
  exact (h.line_eq (mem_nonBlank.mp hl).1).symm

/-- There is one layout for lines that are alike. -/
theorem IsLayout.eq (h : IsLayout o code out) (h' : IsLayout o code' out')
    (hcode : Alike o (textLines code) (textLines code')) : out = out' := by
  obtain ⟨htexts, hgaps, a, b, hwidths⟩ := h.alike.symm.trans (hcode.trans h'.alike)
  rw [h.map_trimEnd_unindented, h'.map_trimEnd_unindented] at htexts
  rw [h.map_min_gaps, h'.map_min_gaps] at hgaps
  have hwidths : (nonBlank (textLines out)).map (indentWidth o) =
      (nonBlank (textLines out')).map (indentWidth o) := by
    refine eq_of_map_add_eq (a := a) (b := b) ?_ h.zero_mem h'.zero_mem
    rwa [List.map_map, List.map_map]
  have hnonBlank : nonBlank (textLines out) = nonBlank (textLines out') := by
    rw [h.nonBlank_eq, hwidths, htexts, ← h'.nonBlank_eq]
  rw [h.joined, h.bounded.eq h'.bounded hnonBlank hgaps, ← h'.joined]

/-- Laying out gives what the specification says, and nothing else does. -/
theorem normalize_eq_iff : normalize o code = out ↔ IsLayout o code out := by
  constructor
  · rintro rfl
    exact isLayout_normalize o code
  · intro h
    exact (isLayout_normalize o code).eq h Alike.rfl

theorem normalize_eq_normalize (h : Alike o (textLines code) (textLines code')) :
    normalize o code = normalize o code' :=
  (isLayout_normalize o code).eq (isLayout_normalize o code') h

end

end MarkupHighlight.Layout
