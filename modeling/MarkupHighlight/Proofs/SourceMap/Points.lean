import MarkupHighlight.Proofs.SourceMap.Exactness
import Mathlib.Data.List.Forall2

/-!
Which places of an edited text get a mapping: those where a segment with some text starts and those
behind a line feed, except the end. `points_of_generate` says so of the mappings as they are read
back from the map's text.
-/
namespace MarkupHighlight

/-- The place of a mapping in the edited text. -/
def Mapping.generatedPlace (m : Mapping) : LineColumn := ⟨m.generatedLine, m.generatedColumn⟩

/-! The piece of a place. -/

/-- The segments in front of a place end there at the latest, so the one that is found for it is
that of the piece in which the place has more text behind it. -/
theorem find?_segmentsFrom (n : Nat) (qs rs : List Piece) {p : Piece} {x y : Text}
    (hp : p.text = x ++ y) (hy : y ≠ []) :
    (segmentsFrom n (qs ++ p :: rs)).find?
        (n + byteSize (qs.flatMap (·.text) ++ x) < ·.generated.stop) =
      some (p.segment (n + byteSize (qs.flatMap (·.text)))) := by
  have hpos := byteSize_pos hy
  rw [segmentsFrom_append, List.find?_append]
  have hfront : (segmentsFrom n qs).find?
      (n + byteSize (qs.flatMap (·.text) ++ x) < ·.generated.stop) = none := by
    rw [List.find?_eq_none]
    intro sgm hsgm
    obtain ⟨us, q, vs, rfl, rfl⟩ := mem_segmentsFrom.mp hsgm
    simp only [Piece.segment, List.flatMap_append, List.flatMap_cons, byteSize_append,
      decide_eq_true_eq]
    omega
  rw [hfront, Option.none_or]
  apply List.find?_cons_of_pos
  simp only [hp, byteSize_append, decide_eq_true_eq]
  omega

/-- The piece of a character. -/
theorem exists_piece_of_flatMap {ps : List Piece} {x v : Text} {c : Char}
    (h : ps.flatMap (·.text) = x ++ c :: v) :
    ∃ qs p rs y z, ps = qs ++ p :: rs ∧ x = qs.flatMap (·.text) ++ y ∧ p.text = y ++ c :: z := by
  induction ps generalizing x with
  | nil => simp at h
  | cons p ps ih =>
    rw [List.flatMap_cons] at h
    rcases append_eq_append_cons h with ⟨z, hp⟩ | ⟨e, rfl, hrest⟩
    · exact ⟨[], p, ps, x, z, rfl, rfl, hp⟩
    · obtain ⟨qs, q, rs, y, z, rfl, rfl, hq⟩ := ih hrest
      exact ⟨p :: qs, q, rs, y, z, rfl, by simp, hq⟩

/-! The anchors of all pieces. -/

/-- The bytes of an edited text that get a mapping. -/
def Spliced.IsPoint (t : Spliced) (g : Nat) : Prop :=
  (∃ sgm ∈ t.map.segments, sgm.generated.start < sgm.generated.stop ∧ sgm.generated.start = g) ∨
    g < byteSize t.code ∧ ∃ u v, t.code = u ++ '\n' :: v ∧ byteSize (u ++ ['\n']) = g

/-- The edited text that is put together from pieces. -/
def splicedOf (source : Text) (ps : List Piece) : Spliced :=
  ⟨ps.flatMap (·.text),
    ⟨segmentsFrom 0 ps, byteSize source, byteSize (ps.flatMap (·.text))⟩⟩

/-- The anchors of the pieces of an edited text. -/
def anchorsOf (ps : List Piece) : List (Nat × Nat) :=
  (segmentsFrom 0 ps).flatMap (·.anchors (ps.flatMap (·.text)))

theorem mem_anchorsOf {ps : List Piece} {anchor : Nat × Nat} :
    anchor ∈ anchorsOf ps ↔
      ∃ qs p rs x y, ps = qs ++ p :: rs ∧ p.text = x ++ y ∧ y ≠ [] ∧ EndsLine x ∧
        anchor = (byteSize (qs.flatMap (·.text) ++ x), p.offsetBehind x) := by
  have hsegment (qs rs : List Piece) (p : Piece) :
      anchor ∈ (p.segment (0 + byteSize (qs.flatMap (·.text)))).anchors
          ((qs ++ p :: rs).flatMap (·.text)) ↔
        ∃ x y, p.text = x ++ y ∧ y ≠ [] ∧ EndsLine x ∧
          anchor = (byteSize (qs.flatMap (·.text) ++ x), p.offsetBehind x) := by
    rw [Nat.zero_add, List.flatMap_append, List.flatMap_cons]
    exact mem_anchors
  rw [anchorsOf, List.mem_flatMap]
  constructor
  · rintro ⟨sgm, hsgm, hanchor⟩
    obtain ⟨qs, p, rs, rfl, rfl⟩ := mem_segmentsFrom.mp hsgm
    obtain ⟨x, y, hpoint⟩ := (hsegment qs rs p).mp hanchor
    exact ⟨qs, p, rs, x, y, rfl, hpoint⟩
  · rintro ⟨qs, p, rs, x, y, rfl, hpoint⟩
    exact ⟨_, mem_segmentsFrom.mpr ⟨qs, p, rs, rfl, rfl⟩, (hsegment qs rs p).mpr ⟨x, y, hpoint⟩⟩

/-- The anchors stand at the points of the edited text. -/
theorem mem_map_fst_anchorsOf (source : Text) {ps : List Piece} {g : Nat} :
    g ∈ (anchorsOf ps).map (·.1) ↔ (splicedOf source ps).IsPoint g := by
  rw [List.mem_map]
  constructor
  · rintro ⟨anchor, hanchor, rfl⟩
    obtain ⟨qs, p, rs, x, y, rfl, hp, hy, hends, rfl⟩ := mem_anchorsOf.mp hanchor
    have hpos := byteSize_pos hy
    rcases hends with rfl | ⟨u, rfl⟩
    · left
      refine ⟨_, mem_segmentsFrom.mpr ⟨qs, p, rs, rfl, rfl⟩, ?_, ?_⟩
      · simp only [Piece.segment, hp, byteSize_append]
        omega
      · simp [Piece.segment]
    · right
      constructor
      · simp only [splicedOf, List.flatMap_append, List.flatMap_cons, hp, byteSize_append]
        omega
      · refine ⟨qs.flatMap (·.text) ++ u, y ++ rs.flatMap (·.text), ?_, ?_⟩
        · simp [splicedOf, hp]
        · rw [List.append_assoc]
  · rintro (⟨sgm, hsgm, hlt, rfl⟩ | ⟨hlt, u, v, hcode, rfl⟩)
    · obtain ⟨qs, p, rs, rfl, rfl⟩ := mem_segmentsFrom.mp hsgm
      have hne : p.text ≠ [] := by
        intro hnil
        simp [Piece.segment, hnil] at hlt
      refine ⟨_, mem_anchorsOf.mpr ⟨qs, p, rs, [], p.text, rfl, rfl, hne, .inl rfl, rfl⟩, ?_⟩
      simp [Piece.segment]
    · -- the character behind the line feed is in some piece, which starts there or has the line feed
      have hv : v ≠ [] := by
        rintro rfl
        rw [hcode] at hlt
        exact absurd hlt (Nat.lt_irrefl _)
      obtain ⟨c, v, rfl⟩ := List.exists_cons_of_ne_nil hv
      have hcode' : ps.flatMap (·.text) = (u ++ ['\n']) ++ c :: v := by
        rw [List.append_assoc]
        exact hcode
      obtain ⟨qs, p, rs, y, z, rfl, hu, hp⟩ := exists_piece_of_flatMap hcode'
      have hends : EndsLine y := by
        by_cases hy : y = []
        · exact .inl hy
        · right
          have hlast := congrArg List.getLast? hu
          rw [List.getLast?_append_of_ne_nil _ hy, List.getLast?_concat] at hlast
          exact ⟨y.dropLast, (List.dropLast_append_getLast? '\n' hlast.symm).symm⟩
      refine ⟨_, mem_anchorsOf.mpr ⟨qs, p, rs, y, c :: z, rfl, hp, List.cons_ne_nil _ _, hends,
        rfl⟩, ?_⟩
      rw [hu]

/-! What the mapping of a point says. -/

/-- The mapping leads from byte `g` of the edited text to the byte of the source that it came from,
each given as the line and the UTF-16 column behind the text in front of it. -/
structure Spliced.Leads (t : Spliced) (source : Text) (g : Nat) (m : Mapping) : Prop where
  generated : ∃ u v, t.code = u ++ v ∧ byteSize u = g ∧ m.generatedPlace = placeBehind u
  source : ∃ a b, source = a ++ b ∧ t.map.sourceOffset? g = some (byteSize a) ∧
    (⟨m.sourceLine, m.sourceColumn⟩ : LineColumn) = placeBehind a
  sourceIndex : m.sourceIndex = 0

theorem CutInto.leads {source : Text} {ps : List Piece} (h : CutInto 0 source ps)
    {anchor : Nat × Nat} (hanchor : anchor ∈ anchorsOf ps) :
    (splicedOf source ps).Leads source anchor.1
      (.ofOffsets (.ofText (ps.flatMap (·.text))) (.ofText source) anchor) := by
  obtain ⟨qs, p, rs, x, y, rfl, hp, hy, -, rfl⟩ := mem_anchorsOf.mp hanchor
  obtain ⟨a, s, rfl, hcut⟩ := h.split
  rw [Nat.zero_add] at hcut
  obtain ⟨b, hb⟩ := hcut.exists_sourceBehind hp
  have hcode : (qs ++ p :: rs).flatMap (·.text) =
      (qs.flatMap (·.text) ++ x) ++ (y ++ rs.flatMap (·.text)) := by
    simp [hp]
  have hfind := find?_segmentsFrom 0 qs rs hp hy
  rw [Nat.zero_add, Nat.zero_add] at hfind
  have hmapping : Mapping.ofOffsets (.ofText ((qs ++ p :: rs).flatMap (·.text)))
      (.ofText (a ++ s)) (byteSize (qs.flatMap (·.text) ++ x), p.offsetBehind x) =
        .ofTexts (qs.flatMap (·.text) ++ x) (p.sourceBehind a x) := by
    rw [hcut.offsetBehind, hb, hcode, Mapping.ofOffsets_append]
  rw [hmapping]
  constructor
  · exact ⟨_, _, hcode, rfl, rfl⟩
  · refine ⟨_, b, hb, ?_, rfl⟩
    have hne : byteSize (qs.flatMap (·.text) ++ x) ≠
        byteSize ((qs ++ p :: rs).flatMap (·.text)) := by
      have := byteSize_pos hy
      rw [hcode, byteSize_append _ (y ++ _), byteSize_append y]
      omega
    rw [← hcut.offsetBehind, PositionMap.sourceOffset?_of_find? hne hfind]
    · unfold Piece.segment Piece.offsetBehind
      cases p.kind <;> simp
    · simp [Piece.segment]
  · rfl

/-- Points further on have later places. -/
theorem Spliced.Leads.before {t : Spliced} {source : Text} {g g' : Nat} {m m' : Mapping}
    (h : t.Leads source g m) (h' : t.Leads source g' m') (hlt : g < g') :
    m.generatedPlace.Before m'.generatedPlace := by
  obtain ⟨u, v, hu, rfl, hplace⟩ := h.generated
  obtain ⟨u', v', hu', rfl, hplace'⟩ := h'.generated
  obtain ⟨e, rfl, -⟩ := exists_of_append_eq (hu.symm.trans hu') (Nat.le_of_lt hlt)
  rw [hplace, hplace']
  apply placeBehind_before
  rintro rfl
  rw [List.append_nil] at hlt
  exact absurd hlt (Nat.lt_irrefl _)

/-- The mappings of an edited text are those of its points and no others. For edits that a splicer
takes and that lie apart, and texts that a machine can hold, the mappings read back from the map
belong, in order, to the bytes at which a segment with some text starts or behind which a line
starts before the end, each of these once; and the mapping of a byte leads from its place to that of
the byte of the source it came from. -/
theorem points_of_generate {s : Splicer}
    (haccepted : ∀ e ∈ s.edits, ∃ t, e.replaced s.source = .ok t)
    (hapart : s.edits.Pairwise Edit.Apart) (hsource : byteSize s.source < 2 ^ 63) :
    ∃ spliced, s.apply = .ok spliced ∧ ∀ name content, byteSize spliced.code < 2 ^ 63 →
      ∃ ms gs, decodeMappings (SourceMap.generate spliced s.source name content).mappings =
          some ms ∧
        (∀ g, g ∈ gs ↔ spliced.IsPoint g) ∧ gs.Pairwise (· < ·) ∧
        List.Forall₂ (spliced.Leads s.source) gs ms ∧
        ms.Pairwise fun m m' => m.generatedPlace.Before m'.generatedPlace := by
  obtain ⟨ps, hcut, -, happly⟩ := Splicer.exists_pieces haccepted hapart
  refine ⟨splicedOf s.source ps, happly, fun name content hcode => ?_⟩
  have hdecode := hcut.decodeMappings_generate hsource hcode
  have hmappings : (segmentsFrom 0 ps).flatMap (·.mappings (ps.flatMap (·.text)) s.source) =
      (anchorsOf ps).map (.ofOffsets (.ofText (ps.flatMap (·.text))) (.ofText s.source)) :=
    List.map_flatMap.symm
  have hordered : (anchorsOf ps).Pairwise (·.1 < ·.1) := (pairwise_anchors [] ps).1
  rw [SourceMap.generate_mappings]
  refine ⟨_, (anchorsOf ps).map (·.1), hdecode, fun g => mem_map_fst_anchorsOf s.source, ?_, ?_, ?_⟩
  · rw [List.pairwise_map]
    exact hordered
  · rw [hmappings, List.forall₂_map_left_iff, List.forall₂_map_right_iff, List.forall₂_same]
    intro anchor hanchor
    exact hcut.leads hanchor
  · rw [hmappings, List.pairwise_map]
    refine hordered.imp_of_mem fun hanchor hanchor' hlt => ?_
    exact (hcut.leads hanchor).before (hcut.leads hanchor') hlt

theorem apply_deletion :
    (⟨"a\nb\nc\n".toList, [⟨⟨2, 4⟩, []⟩]⟩ : Splicer).apply =
      .ok ⟨"a\nc\n".toList, ⟨[⟨⟨0, 2⟩, ⟨0, 2⟩, .unchanged⟩, ⟨⟨2, 2⟩, ⟨2, 4⟩, .replaced⟩,
        ⟨⟨2, 4⟩, ⟨4, 6⟩, .unchanged⟩], 6, 4⟩⟩ := by
  rw [Splicer.apply, Splicer.pieces, Splicer.ordered, List.mergeSort_singleton]
  rfl

theorem isPoint_deletion {g : Nat} :
    Spliced.IsPoint ⟨"a\nc\n".toList, ⟨[⟨⟨0, 2⟩, ⟨0, 2⟩, .unchanged⟩, ⟨⟨2, 2⟩, ⟨2, 4⟩, .replaced⟩,
      ⟨⟨2, 4⟩, ⟨4, 6⟩, .unchanged⟩], 6, 4⟩⟩ g ↔ g ∈ [0, 2] := by
  have hlines : (∃ u v, "a\nc\n".toList = u ++ '\n' :: v ∧ byteSize (u ++ ['\n']) = g) ↔
      g ∈ [2, 4] := by
    have hmem := mem_lineStartsFrom (m := g) (n := 0) (s := "a\nc\n".toList)
    simp only [Nat.zero_add, eq_comm (a := g)] at hmem
    exact hmem.symm
  have hsize : byteSize "a\nc\n".toList = 4 := rfl
  rw [Spliced.IsPoint, hlines, hsize]
  simp only [List.mem_cons, List.not_mem_nil, or_false, exists_eq_or_imp, exists_eq_left]
  omega

/-- A line is deleted: the place where it stood is the end of an empty segment, the start of the
next one and the start of a line, and gets one mapping. -/
theorem points_of_generate_deletion :
    ∃ spliced, (⟨"a\nb\nc\n".toList, [⟨⟨2, 4⟩, []⟩]⟩ : Splicer).apply = .ok spliced ∧
      ∃ ms, decodeMappings (SourceMap.generate spliced "a\nb\nc\n".toList [] false).mappings =
          some ms ∧
        List.Forall₂ (spliced.Leads "a\nb\nc\n".toList) [0, 2] ms := by
  obtain ⟨spliced, happly, h⟩ := points_of_generate
    (s := ⟨"a\nb\nc\n".toList, [⟨⟨2, 4⟩, []⟩]⟩)
    (List.forall_mem_singleton.mpr ⟨"b\n".toList, by decide⟩)
    (List.pairwise_singleton _ _) (by decide)
  refine ⟨spliced, happly, ?_⟩
  obtain rfl := Except.ok.inj (apply_deletion.symm.trans happly)
  obtain ⟨ms, gs, hdecode, hgs, hordered, hleads, -⟩ := h [] false (by decide)
  have hperm : gs.Perm [0, 2] :=
    (List.perm_ext_iff_of_nodup (hordered.imp Nat.ne_of_lt) (by decide)).mpr fun g =>
      (hgs g).trans isPoint_deletion
  have hpoints : gs = [0, 2] := by
    apply hperm.eq_of_pairwise _ hordered (by decide)
    intro a b _ _ hab hba
    omega
  rw [hpoints] at hleads
  exact ⟨ms, hdecode, hleads⟩

end MarkupHighlight
