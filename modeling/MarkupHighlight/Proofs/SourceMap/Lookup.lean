import MarkupHighlight.Proofs.Edit.Pieces
import MarkupHighlight.Proofs.SourceMap.Decoding
import MarkupHighlight.Proofs.Text.Places
import MarkupHighlight.SourceMap.Basic

/-!
Looking up a place of an edited text among mappings: the last mapping on the line of the place that
is not behind it. Which mappings the pieces of the text have, and which of them is found.
-/
namespace MarkupHighlight

/-- The last mapping on the line of a place that is not behind it. -/
def lastMapping (ms : List Mapping) (p : LineColumn) : Option Mapping :=
  (ms.filter fun m => m.generatedLine == p.line && decide (m.generatedColumn ≤ p.column)).getLast?

theorem lastMapping_append (ms ms' : List Mapping) (p : LineColumn) :
    lastMapping (ms ++ ms') p = (lastMapping ms' p).or (lastMapping ms p) := by
  rw [lastMapping, List.filter_append, List.getLast?_append]
  rfl

theorem lastMapping_eq_none {ms : List Mapping} {p : LineColumn}
    (h : ∀ m ∈ ms, m.generatedLine = p.line → p.column < m.generatedColumn) :
    lastMapping ms p = none := by
  rw [lastMapping, List.getLast?_eq_none_iff, List.filter_eq_nil_iff]
  intro m hm
  simp only [Bool.and_eq_true, beq_iff_eq, decide_eq_true_eq, not_and]
  intro hline
  have := h m hm hline
  omega

theorem mem_of_lastMapping {ms : List Mapping} {p : LineColumn} {m : Mapping}
    (h : lastMapping ms p = some m) :
    m ∈ ms ∧ m.generatedLine = p.line ∧ m.generatedColumn ≤ p.column := by
  have := List.mem_of_getLast? h
  simpa using this

theorem exists_lastMapping {ms : List Mapping} {p : LineColumn} {m : Mapping} (hm : m ∈ ms)
    (hline : m.generatedLine = p.line) (hcolumn : m.generatedColumn ≤ p.column) :
    ∃ m', lastMapping ms p = some m' := by
  rw [← Option.isSome_iff_exists, lastMapping, List.getLast?_isSome]
  apply List.ne_nil_of_mem (a := m)
  simp [hm, hline, hcolumn]

/-- The mapping of the place behind `u` to the place behind `a`. -/
def Mapping.ofTexts (u a : Text) : Mapping :=
  ⟨(placeBehind u).line, (placeBehind u).column, 0, (placeBehind a).line, (placeBehind a).column⟩

theorem Mapping.ofOffsets_append (u r a b : Text) :
    Mapping.ofOffsets (.ofText (u ++ r)) (.ofText (a ++ b)) (byteSize u, byteSize a) =
      .ofTexts u a := by
  simp only [ofOffsets, position_append, ofTexts]

/-- Of two places in a text one is before the other on its line only with nothing but a part of
that line between them. -/
theorem exists_between {u u' r r' : Text} (h : u ++ r = u' ++ r')
    (hline : (placeBehind u).line = (placeBehind u').line)
    (hcolumn : (placeBehind u).column ≤ (placeBehind u').column) :
    ∃ e, u' = u ++ e ∧ '\n' ∉ e := by
  rcases List.append_eq_append_iff.mp h with ⟨e, rfl, rfl⟩ | ⟨e, rfl, rfl⟩
  · exact ⟨e, rfl, line_placeBehind_append.mp hline.symm⟩
  · have he := line_placeBehind_append.mp hline
    rw [placeBehind_append u' he] at hcolumn
    have hnil : e = [] := by
      by_cases hnil : e = []
      · exact hnil
      · have := utf16Size_pos hnil
        simp only at hcolumn
        omega
    exact ⟨[], by simp [hnil], List.not_mem_nil⟩

/-! The anchors of one piece. -/

/-- Where the place behind `x` in a piece came from. -/
def Piece.offsetBehind (p : Piece) (x : Text) : Nat :=
  match p.kind with
  | .unchanged => p.source.start + byteSize x
  | .replaced => p.source.start

theorem anchors_eq (w z : Text) (p : Piece) :
    (p.segment (byteSize w)).anchors (w ++ (p.text ++ z)) =
      if p.text = [] then [] else
        ((byteSize w :: (lineStartsFrom (byteSize w) p.text).filter
          (· < byteSize w + byteSize p.text)).map fun n =>
            match p.kind with
            | .unchanged => (n, p.source.start + (n - byteSize w))
            | .replaced => (n, p.source.start)) := by
  by_cases h : p.text = []
  · simp [Piece.segment, Segment.anchors, h]
  · have := byteSize_pos h
    rw [Piece.segment, Segment.anchors, if_neg (by simp only; omega), if_neg h]
    have hslice : sliceBytes (w ++ (p.text ++ z)) (byteSize w) (byteSize w + byteSize p.text) =
        p.text := by
      simp [sliceBytes]
    simp only [hslice, List.map_cons]
    cases p.kind <;> simp

/-- The bytes at which a text behind `w` starts or a line starts inside it. -/
theorem mem_starts {w s : Text} (hs : s ≠ []) {n : Nat} :
    n ∈ byteSize w :: (lineStartsFrom (byteSize w) s).filter (· < byteSize w + byteSize s) ↔
      ∃ x y, s = x ++ y ∧ y ≠ [] ∧ EndsLine x ∧ n = byteSize (w ++ x) := by
  rw [List.mem_cons, List.mem_filter, mem_lineStartsFrom]
  constructor
  · rintro (rfl | ⟨⟨u, v, rfl, rfl⟩, hlt⟩)
    · exact ⟨[], s, rfl, hs, .inl rfl, by rw [List.append_nil]⟩
    · refine ⟨u ++ ['\n'], v, by simp, ?_, .inr ⟨u, rfl⟩, (byteSize_append ..).symm⟩
      rintro rfl
      simp at hlt
  · rintro ⟨x, y, rfl, hy, rfl | ⟨u, rfl⟩, rfl⟩
    · exact .inl (by rw [List.append_nil])
    · have := byteSize_pos hy
      refine .inr ⟨⟨u, y, by simp, byteSize_append ..⟩, ?_⟩
      rw [decide_eq_true_eq, byteSize_append w, byteSize_append (u ++ ['\n'])]
      omega

/-- A piece has anchors where it starts and where lines start inside it. -/
theorem mem_anchors {w z : Text} {p : Piece} {anchor : Nat × Nat} :
    anchor ∈ (p.segment (byteSize w)).anchors (w ++ (p.text ++ z)) ↔
      ∃ x y, p.text = x ++ y ∧ y ≠ [] ∧ EndsLine x ∧
        anchor = (byteSize (w ++ x), p.offsetBehind x) := by
  have hoffset (x : Text) : (match p.kind with
      | .unchanged => (byteSize (w ++ x), p.source.start + (byteSize (w ++ x) - byteSize w))
      | .replaced => (byteSize (w ++ x), p.source.start)) =
        (byteSize (w ++ x), p.offsetBehind x) := by
    unfold Piece.offsetBehind
    cases p.kind <;> simp
  rw [anchors_eq]
  by_cases htext : p.text = []
  · rw [if_pos htext]
    constructor
    · intro h
      cases h
    · rintro ⟨x, y, hp, hy, -, -⟩
      exact False.elim (hy (List.append_eq_nil_iff.mp (hp.symm.trans htext)).2)
  · rw [if_neg htext, List.mem_map]
    constructor
    · rintro ⟨n, hn, rfl⟩
      obtain ⟨x, y, hp, hy, hx, rfl⟩ := (mem_starts htext).mp hn
      exact ⟨x, y, hp, hy, hx, hoffset x⟩
    · rintro ⟨x, y, hp, hy, hx, rfl⟩
      exact ⟨byteSize (w ++ x), (mem_starts htext).mpr ⟨x, y, hp, hy, hx, rfl⟩, hoffset x⟩

theorem pairwise_anchors_piece (w z : Text) (p : Piece) :
    ((p.segment (byteSize w)).anchors (w ++ (p.text ++ z))).Pairwise (·.1 < ·.1) := by
  rw [anchors_eq]
  by_cases h : p.text = []
  · rw [if_pos h]
    exact .nil
  · rw [if_neg h, List.pairwise_map]
    have hstarts : (byteSize w :: (lineStartsFrom (byteSize w) p.text).filter
        (· < byteSize w + byteSize p.text)).Pairwise (· < ·) := by
      refine .cons (fun n hn => ?_) ((pairwise_lineStartsFrom _ _).sublist List.filter_sublist)
      obtain ⟨u, v, -, rfl⟩ := mem_lineStartsFrom.mp (List.mem_filter.mp hn).1
      have := byteSize_pos (s := u ++ ['\n']) (by simp)
      omega
    refine hstarts.imp fun {m n} hlt => ?_
    cases p.kind <;> exact hlt

/-- The anchors of a whole text come one behind the other. -/
theorem pairwise_anchors (w : Text) (ps : List Piece) :
    ((segmentsFrom (byteSize w) ps).flatMap
        (·.anchors (w ++ ps.flatMap (·.text)))).Pairwise (·.1 < ·.1) ∧
      ∀ anchor ∈ (segmentsFrom (byteSize w) ps).flatMap (·.anchors (w ++ ps.flatMap (·.text))),
        byteSize w ≤ anchor.1 := by
  induction ps generalizing w with
  | nil => exact ⟨.nil, nofun⟩
  | cons p ps ih =>
    obtain ⟨hpairwise, hle⟩ := ih (w ++ p.text)
    rw [List.append_assoc, byteSize_append] at hpairwise hle
    rw [segmentsFrom, List.flatMap_cons, List.flatMap_cons]
    have hbounds : ∀ anchor ∈ (p.segment (byteSize w)).anchors
        (w ++ (p.text ++ ps.flatMap (·.text))),
        byteSize w ≤ anchor.1 ∧ anchor.1 < byteSize w + byteSize p.text := by
      intro anchor h
      obtain ⟨x, y, hp, hy, -, rfl⟩ := mem_anchors.mp h
      have := byteSize_pos hy
      simp only [hp, byteSize_append]
      omega
    constructor
    · refine List.pairwise_append.mpr ⟨pairwise_anchors_piece w _ p, hpairwise, ?_⟩
      intro anchor h anchor' h'
      have := (hbounds anchor h).2
      have := hle anchor' h'
      omega
    · intro anchor h
      rcases List.mem_append.mp h with h | h
      · exact (hbounds anchor h).1
      · have := hle anchor h
        omega

/-! The mappings of the pieces that a source is cut into. -/

def Segment.mappings (code source : Text) (s : Segment) : List Mapping :=
  (s.anchors code).map (.ofOffsets (.ofText code) (.ofText source))

/-- The source up to where the place behind `x` in a piece came from, if `a` stands before it. -/
def Piece.sourceBehind (p : Piece) (a x : Text) : Text :=
  match p.kind with
  | .unchanged => a ++ x
  | .replaced => a

section
variable {a s : Text} {p : Piece} {ps : List Piece} (h : CutInto (byteSize a) s (p :: ps))
include h

theorem CutInto.offsetBehind (x : Text) : p.offsetBehind x = byteSize (p.sourceBehind a x) := by
  obtain ⟨old, s', -, hspan, -, -⟩ := h.first
  unfold Piece.offsetBehind Piece.sourceBehind
  rw [hspan]
  cases p.kind <;> simp

theorem CutInto.exists_sourceBehind {x y : Text} (hp : p.text = x ++ y) :
    ∃ b, a ++ s = p.sourceBehind a x ++ b := by
  obtain ⟨old, s', rfl, -, htext, -⟩ := h.first
  unfold Piece.sourceBehind
  cases hkind : p.kind with
  | unchanged =>
    refine ⟨y ++ s', ?_⟩
    rw [← htext hkind, hp]
    simp
  | replaced => exact ⟨_, rfl⟩

theorem CutInto.mem_mappings {w z : Text} {m : Mapping} :
    m ∈ (p.segment (byteSize w)).mappings (w ++ (p.text ++ z)) (a ++ s) ↔
      ∃ x y, p.text = x ++ y ∧ y ≠ [] ∧ EndsLine x ∧
        m = .ofTexts (w ++ x) (p.sourceBehind a x) := by
  have hmapping {x y : Text} (hp : p.text = x ++ y) :
      Mapping.ofOffsets (.ofText (w ++ (p.text ++ z))) (.ofText (a ++ s))
          (byteSize (w ++ x), p.offsetBehind x) = .ofTexts (w ++ x) (p.sourceBehind a x) := by
    obtain ⟨b, hb⟩ := h.exists_sourceBehind hp
    have hcode : w ++ (p.text ++ z) = (w ++ x) ++ (y ++ z) := by simp [hp]
    rw [h.offsetBehind, hb, hcode, Mapping.ofOffsets_append]
  rw [Segment.mappings, List.mem_map]
  constructor
  · rintro ⟨anchor, hanchor, rfl⟩
    obtain ⟨x, y, hp, hy, hx, rfl⟩ := mem_anchors.mp hanchor
    exact ⟨x, y, hp, hy, hx, hmapping hp⟩
  · rintro ⟨x, y, hp, hy, hx, rfl⟩
    exact ⟨_, mem_anchors.mpr ⟨x, y, hp, hy, hx, rfl⟩, hmapping hp⟩

/-- In a piece the last line start, or the piece's own start, is what is looked up. -/
theorem CutInto.lastMapping_first {x y : Text} {c : Char} (hp : p.text = x ++ c :: y)
    (w z : Text) :
    ∃ x₀ e, x = x₀ ++ e ∧ '\n' ∉ e ∧
      lastMapping ((p.segment (byteSize w)).mappings (w ++ (p.text ++ z)) (a ++ s))
        (placeBehind (w ++ x)) = some (.ofTexts (w ++ x₀) (p.sourceBehind a x₀)) := by
  obtain ⟨x₁, hx₁, hends, -⟩ := exists_lastLine 0 x
  have hp₁ : p.text = x₁ ++ (lastLine x ++ c :: y) := by
    rw [← List.append_assoc, ← hx₁, hp]
  have hplace : placeBehind (w ++ x) = ⟨(placeBehind (w ++ x₁)).line,
      (placeBehind (w ++ x₁)).column + utf16Size (lastLine x)⟩ := by
    conv_lhs => rw [hx₁, ← List.append_assoc]
    exact placeBehind_append _ (newline_notMem_lastLine x)
  have hmem := (h.mem_mappings (w := w) (z := z)).mpr ⟨x₁, _, hp₁, by simp, hends, rfl⟩
  obtain ⟨m, hm⟩ := exists_lastMapping hmem (p := placeBehind (w ++ x)) (by rw [hplace]; rfl)
    (by rw [hplace]; exact Nat.le_add_right ..)
  -- what is found is before the place on its line, so the line goes on from there
  obtain ⟨hm₁, hline, hcolumn⟩ := mem_of_lastMapping hm
  obtain ⟨x₀, y₀, hp₀, -, -, rfl⟩ := h.mem_mappings.mp hm₁
  have hcode : (w ++ x₀) ++ y₀ = (w ++ x) ++ (c :: y) := by
    rw [List.append_assoc, List.append_assoc, ← hp₀, hp]
  obtain ⟨e, he, hnewline⟩ := exists_between hcode hline hcolumn
  rw [List.append_assoc] at he
  exact ⟨x₀, e, List.append_cancel_left he, hnewline, hm⟩

end

/-- Every mapping leads from a place in the text from `w` on to a place in the source. -/
theorem CutInto.exists_ofTexts {n : Nat} {s : Text} {ps : List Piece} (h : CutInto n s ps)
    {a w : Text} (ha : byteSize a = n) {m : Mapping}
    (hm : m ∈ (segmentsFrom (byteSize w) ps).flatMap
      (·.mappings (w ++ ps.flatMap (·.text)) (a ++ s))) :
    ∃ u v a' b, ps.flatMap (·.text) = u ++ v ∧ v ≠ [] ∧ a ++ s = a' ++ b ∧
      m = .ofTexts (w ++ u) a' := by
  induction ps generalizing n s a w with
  | nil => cases hm
  | cons p ps ih =>
    subst ha
    obtain ⟨old, s', rfl, -, -, hrest⟩ := h.first
    rw [segmentsFrom, List.flatMap_cons, List.flatMap_cons, List.mem_append] at hm
    rw [List.flatMap_cons]
    rcases hm with hm | hm
    · obtain ⟨x, y, hp, hy, -, rfl⟩ := h.mem_mappings.mp hm
      obtain ⟨b, hb⟩ := h.exists_sourceBehind hp
      exact ⟨x, y ++ ps.flatMap (·.text), _, b, by simp [hp], by simp [hy], hb, rfl⟩
    · obtain ⟨u, v, a', b, hu, hv, hb, rfl⟩ := ih hrest (a := a ++ old) (w := w ++ p.text) (by simp)
        (by simpa using hm)
      exact ⟨p.text ++ u, v, a', b, by simp [hu], hv, by simpa using hb, by simp⟩

/-- No mapping of the text from `w ++ x` on is found for a place in `x`. -/
theorem CutInto.lastMapping_rest {n : Nat} {s : Text} {ps : List Piece} (h : CutInto n s ps)
    {a w : Text} (ha : byteSize a = n) {u x : Text} (hx : x ≠ []) (hw : w = u ++ x) :
    lastMapping ((segmentsFrom (byteSize w) ps).flatMap
      (·.mappings (w ++ ps.flatMap (·.text)) (a ++ s))) (placeBehind u) = none := by
  apply lastMapping_eq_none
  intro m hm hline
  obtain ⟨u', v, a', b, -, -, -, rfl⟩ := h.exists_ofTexts ha hm
  rw [hw, List.append_assoc] at hline ⊢
  have hnewline := line_placeBehind_append.mp hline
  have := utf16Size_pos (s := x ++ u') (by simp [hx])
  simp only [Mapping.ofTexts, placeBehind_append u hnewline]
  omega

end MarkupHighlight
