import MarkupHighlight.Proofs.SourceMap.Lookup

/-!
The source map of an edited text leads every character back to where it came from:
`lastMapping_of_generate` says so of the mappings as they are read back from the map's text.
-/
namespace MarkupHighlight

/-- What a mapping says of the place behind `u`, where the character `c` of the segment stands: it
is exact in text of the source, and elsewhere it leads to the start of the replaced range. -/
structure Segment.Traced (sgm : Segment) (source u : Text) (c : Char) (m : Mapping) : Prop where
  start_le : sgm.generated.start ≤ byteSize u
  lt_stop : byteSize u < sgm.generated.stop
  unchanged : sgm.kind = .unchanged → ∃ a b, source = a ++ c :: b ∧
    byteSize a = sgm.source.start + (byteSize u - sgm.generated.start) ∧
    placeBehind a =
      ⟨m.sourceLine, m.sourceColumn + ((placeBehind u).column - m.generatedColumn)⟩
  replaced : sgm.kind = .replaced → ∃ a b, source = a ++ b ∧
    byteSize a = sgm.source.start ∧ placeBehind a = ⟨m.sourceLine, m.sourceColumn⟩

/-- The character is in the first part or in the rest. -/
theorem append_eq_append_cons {p r x v : Text} {c : Char} (h : p ++ r = x ++ c :: v) :
    (∃ y, p = x ++ c :: y) ∨ ∃ e, x = p ++ e ∧ r = e ++ c :: v := by
  rcases List.append_eq_append_iff.mp h with ⟨e, hx, hr⟩ | ⟨e, hp, hr⟩
  · exact .inr ⟨e, hx, hr⟩
  · cases e with
    | nil => exact .inr ⟨[], by simpa using hp.symm, hr.symm⟩
    | cons d y =>
      obtain ⟨rfl, -⟩ := List.cons.inj hr
      exact .inl ⟨y, hp⟩

/-- A character of the first piece. -/
theorem CutInto.traced_first {a s : Text} {p : Piece} {ps : List Piece}
    (h : CutInto (byteSize a) s (p :: ps)) {x y : Text} {c : Char} (hp : p.text = x ++ c :: y)
    (w z : Text) :
    ∃ m, lastMapping ((p.segment (byteSize w)).mappings (w ++ (p.text ++ z)) (a ++ s))
        (placeBehind (w ++ x)) = some m ∧
      (p.segment (byteSize w)).Traced (a ++ s) (w ++ x) c m := by
  obtain ⟨x₀, e, rfl, hnewline, hm⟩ := h.lastMapping_first hp w z
  obtain ⟨old, s', rfl, hspan, htext, -⟩ := h.first
  refine ⟨_, hm, ?_, ?_, ?_, ?_⟩
  · simp [Piece.segment]
  · have := byteSize_pos (s := c :: y) (List.cons_ne_nil _ _)
    simp only [Piece.segment, hp, byteSize_append]
    omega
  · intro hkind
    refine ⟨a ++ (x₀ ++ e), y ++ s', ?_, ?_, ?_⟩
    · rw [← htext hkind, hp]
      simp
    · simp [Piece.segment, hspan]
    · have hbehind : p.sourceBehind a x₀ = a ++ x₀ := by
        rw [Piece.sourceBehind, show p.kind = .unchanged from hkind]
      rw [← List.append_assoc, ← List.append_assoc, placeBehind_append _ hnewline,
        placeBehind_append _ hnewline, Mapping.ofTexts, hbehind]
      simp only [Nat.add_sub_cancel_left]
  · intro hkind
    have hbehind : p.sourceBehind a x₀ = a := by
      rw [Piece.sourceBehind, show p.kind = .replaced from hkind]
    refine ⟨a, old ++ s', rfl, by simp [Piece.segment, hspan], ?_⟩
    rw [Mapping.ofTexts, hbehind]

/-- Every character is found in the segment it lies in. -/
theorem CutInto.exists_traced {a s : Text} {ps : List Piece} (h : CutInto (byteSize a) s ps)
    (w : Text) {x v : Text} {c : Char} (hx : ps.flatMap (·.text) = x ++ c :: v) :
    ∃ m sgm,
      lastMapping ((segmentsFrom (byteSize w) ps).flatMap
        (·.mappings (w ++ ps.flatMap (·.text)) (a ++ s))) (placeBehind (w ++ x)) = some m ∧
      (segmentsFrom (byteSize w) ps).find? (byteSize (w ++ x) < ·.generated.stop) = some sgm ∧
      sgm.Traced (a ++ s) (w ++ x) c m := by
  induction ps generalizing a s w x with
  | nil => simp at hx
  | cons p ps ih =>
    rw [List.flatMap_cons] at hx ⊢
    rw [segmentsFrom, List.flatMap_cons, lastMapping_append]
    rcases append_eq_append_cons hx with ⟨y, hp⟩ | ⟨x', rfl, hrest⟩
    · -- the segments that follow start behind the place, so none of their mappings is found
      obtain ⟨m, hm, htraced⟩ := h.traced_first hp w (ps.flatMap (·.text))
      obtain ⟨old, s', rfl, -, -, hcut⟩ := h.first
      have hnone := hcut.lastMapping_rest (a := a ++ old) (w := w ++ p.text) (by simp)
        (u := w ++ x) (x := c :: y) (List.cons_ne_nil _ _) (by simp [hp])
      simp only [List.append_assoc, byteSize_append w] at hnone
      refine ⟨m, p.segment (byteSize w), ?_, ?_, htraced⟩
      · rw [hnone]
        exact hm
      · exact List.find?_cons_of_pos (decide_eq_true htraced.lt_stop)
    · obtain ⟨old, s', rfl, -, -, hcut⟩ := h.first
      rw [← byteSize_append] at hcut
      obtain ⟨m, sgm, hm, hfind, htraced⟩ := ih hcut (w ++ p.text) hrest
      simp only [List.append_assoc, byteSize_append w] at hm hfind htraced
      refine ⟨m, sgm, ?_, ?_, htraced⟩
      · rw [hm]
        rfl
      · rw [List.find?_cons_of_neg, byteSize_append w]
        · exact hfind
        · simp

/-! The mappings of a map. -/

theorem SourceMap.generate_mappings (spliced : Spliced) (source name : Text) (content : Bool) :
    (SourceMap.generate spliced source name content).mappings =
      encodeMappings (spliced.map.segments.flatMap (·.mappings spliced.code source))
        (LineTable.ofText spliced.code).lineCount := by
  rw [generate, List.map_flatMap]
  rfl

theorem Mapping.fits_ofTexts {u v a b : Text} (hu : byteSize (u ++ v) < 2 ^ 63)
    (ha : byteSize (a ++ b) < 2 ^ 63) : (Mapping.ofTexts u a).base.Fits := by
  have hline (t : Text) : (placeBehind t).line ≤ byteSize t :=
    Nat.le_trans List.count_le_length (length_le_byteSize t)
  have hcolumn (t : Text) : (placeBehind t).column ≤ byteSize t := by
    obtain ⟨x, hx, -, -⟩ := exists_lastLine 0 t
    have hsize := congrArg byteSize hx
    have := utf16Size_le_byteSize (lastLine t)
    rw [byteSize_append] at hsize
    simp only [placeBehind]
    omega
  have := hline a
  have := hcolumn u
  have := hcolumn a
  rw [byteSize_append] at hu ha
  constructor <;> simp only [Mapping.base, Mapping.ofTexts] <;> omega

/-- The mappings of an edited text are read back from its map. -/
theorem CutInto.decodeMappings_generate {source : Text} {ps : List Piece} (h : CutInto 0 source ps)
    (hsource : byteSize source < 2 ^ 63) (hcode : byteSize (ps.flatMap (·.text)) < 2 ^ 63) :
    decodeMappings (encodeMappings
        ((segmentsFrom 0 ps).flatMap (·.mappings (ps.flatMap (·.text)) source))
        (LineTable.ofText (ps.flatMap (·.text))).lineCount) =
      some ((segmentsFrom 0 ps).flatMap (·.mappings (ps.flatMap (·.text)) source)) := by
  apply decodeMappings_encodeMappings
  · intro m hm
    obtain ⟨u, v, a, b, hu, -, ha, rfl⟩ := h.exists_ofTexts (a := []) (w := []) rfl hm
    rw [hu] at hcode
    rw [List.nil_append] at ha
    rw [ha] at hsource
    exact Mapping.fits_ofTexts hcode hsource
  · intro m hm
    obtain ⟨u, v, a, b, hu, -, -, rfl⟩ := h.exists_ofTexts (a := []) (w := []) rfl hm
    have hcount := congrArg (List.count '\n') hu
    rw [List.count_append] at hcount
    simp only [Mapping.ofTexts, placeBehind, List.nil_append, LineTable.lineCount,
      LineTable.ofText, List.length_cons, length_lineStartsFrom]
    omega
  · have hanchors := (pairwise_anchors [] ps).1
    rw [show (segmentsFrom 0 ps).flatMap (·.mappings (ps.flatMap (·.text)) source) =
        ((segmentsFrom 0 ps).flatMap (·.anchors (ps.flatMap (·.text)))).map
          (.ofOffsets (.ofText (ps.flatMap (·.text))) (.ofText source)) from List.map_flatMap.symm,
      List.pairwise_map]
    exact hanchors.imp fun hlt => LineTable.line_position_mono _ (Nat.le_of_lt hlt)

theorem exists_piece_of_mem_segmentsFrom {n : Nat} {ps : List Piece} {sgm : Segment}
    (h : sgm ∈ segmentsFrom n ps) : ∃ p ∈ ps, p.source = sgm.source ∧ p.kind = sgm.kind := by
  induction ps generalizing n with
  | nil => cases h
  | cons p ps ih =>
    rcases List.mem_cons.mp h with rfl | h
    · exact ⟨p, List.mem_cons_self .., rfl, rfl⟩
    · obtain ⟨p', hp', hsgm⟩ := ih h
      exact ⟨p', List.mem_cons_of_mem _ hp', hsgm⟩

/-- The map of an edited text leads every character back. For edits that a splicer takes and that
lie apart, and texts that a machine can hold, the mappings read back from the map have a last one
at or before each character on its line. In text of the source it gives the line and the UTF-16
column of the very place the character came from, which has that character; in a replacement it
gives the start of the replaced range. -/
theorem lastMapping_of_generate {s : Splicer}
    (haccepted : ∀ e ∈ s.edits, ∃ t, e.replaced s.source = .ok t)
    (hapart : s.edits.Pairwise Edit.Apart) (hsource : byteSize s.source < 2 ^ 63) :
    ∃ spliced, s.apply = .ok spliced ∧ ∀ name content, byteSize spliced.code < 2 ^ 63 →
      ∃ ms, decodeMappings (SourceMap.generate spliced s.source name content).mappings = some ms ∧
        ∀ u c v, spliced.code = u ++ c :: v →
          ∃ m sgm, lastMapping ms (placeBehind u) = some m ∧ sgm ∈ spliced.map.segments ∧
            sgm.generated.start ≤ byteSize u ∧ byteSize u < sgm.generated.stop ∧
            (sgm.kind = .unchanged → ∃ a b, s.source = a ++ c :: b ∧
              spliced.map.sourceOffset? (byteSize u) = some (byteSize a) ∧
              placeBehind a =
                ⟨m.sourceLine, m.sourceColumn + ((placeBehind u).column - m.generatedColumn)⟩) ∧
            (sgm.kind = .replaced → ∃ e ∈ s.edits, ∃ a b, s.source = a ++ b ∧
              sgm.source = e.span ∧ byteSize a = e.span.start ∧
              placeBehind a = ⟨m.sourceLine, m.sourceColumn⟩) := by
  obtain ⟨ps, hcut, hedits, happly⟩ := Splicer.exists_pieces haccepted hapart
  refine ⟨_, happly, fun name content hcode => ?_⟩
  have hdecode := hcut.decodeMappings_generate hsource hcode
  rw [SourceMap.generate_mappings]
  refine ⟨_, hdecode, fun u c v hu => ?_⟩
  obtain ⟨m, sgm, hm, hfind, htraced⟩ := CutInto.exists_traced (a := []) hcut [] hu
  simp only [List.nil_append, byteSize_nil] at hm hfind htraced
  have hmem := List.mem_of_find?_eq_some hfind
  refine ⟨m, sgm, hm, hmem, htraced.start_le, htraced.lt_stop, ?_, ?_⟩
  · intro hkind
    obtain ⟨a, b, ha, hsize, hplace⟩ := htraced.unchanged hkind
    have hlt : byteSize u < byteSize (ps.flatMap (·.text)) := by
      have := byteSize_pos (s := c :: v) (List.cons_ne_nil _ _)
      rw [show ps.flatMap (·.text) = u ++ c :: v from hu, byteSize_append]
      omega
    refine ⟨a, b, ha, ?_, hplace⟩
    rw [PositionMap.sourceOffset?_of_find? (Nat.ne_of_lt hlt) hfind htraced.start_le, hkind, hsize]
  · intro hkind
    obtain ⟨a, b, ha, hsize, hplace⟩ := htraced.replaced hkind
    obtain ⟨p, hp, hspan, hpkind⟩ := exists_piece_of_mem_segmentsFrom hmem
    obtain ⟨e, he, rfl⟩ := hedits p hp (hpkind.trans hkind)
    have hspan : sgm.source = e.span := hspan.symm
    exact ⟨e, he, a, b, ha, hspan, by rw [hsize, hspan], hplace⟩

/-- Two edits, the later one recorded first: one drops the first character and one starts a line
behind a character that takes two units. -/
theorem lastMapping_of_generate_newline :
    ∃ spliced, (⟨"x\n𝒳y z\n".toList, [⟨⟨7, 8⟩, "\n".toList⟩, ⟨⟨0, 1⟩, []⟩]⟩ : Splicer).apply =
        .ok spliced ∧
      ∃ ms m, decodeMappings (SourceMap.generate spliced "x\n𝒳y z\n".toList [] false).mappings =
        some ms ∧ lastMapping ms ⟨2, 0⟩ = some m ∧
        m.sourceLine = 1 ∧ m.sourceColumn + (0 - m.generatedColumn) = 4 := by
  obtain ⟨spliced, happly, h⟩ := lastMapping_of_generate
    (s := ⟨"x\n𝒳y z\n".toList, [⟨⟨7, 8⟩, "\n".toList⟩, ⟨⟨0, 1⟩, []⟩]⟩)
    (List.forall_mem_cons.mpr ⟨⟨" ".toList, by decide⟩,
      List.forall_mem_singleton.mpr ⟨"x".toList, by decide⟩⟩)
    (by decide) (by decide)
  have hcode : (⟨"x\n𝒳y z\n".toList, [⟨⟨7, 8⟩, "\n".toList⟩, ⟨⟨0, 1⟩, []⟩]⟩ : Splicer).apply =
      .ok ⟨"\n𝒳y\nz\n".toList, ⟨[⟨⟨0, 0⟩, ⟨0, 1⟩, .replaced⟩, ⟨⟨0, 6⟩, ⟨1, 7⟩, .unchanged⟩,
        ⟨⟨6, 7⟩, ⟨7, 8⟩, .replaced⟩, ⟨⟨7, 9⟩, ⟨8, 10⟩, .unchanged⟩], 10, 9⟩⟩ := by
    have hordered : [⟨⟨7, 8⟩, "\n".toList⟩, ⟨⟨0, 1⟩, []⟩].mergeSort Edit.le =
        [⟨⟨0, 1⟩, []⟩, ⟨⟨7, 8⟩, "\n".toList⟩] := by
      simp [List.mergeSort, List.MergeSort.Internal.splitInTwo, Edit.le]
    rw [Splicer.apply, Splicer.pieces, Splicer.ordered, hordered]
    rfl
  cases hcode.symm.trans happly
  obtain ⟨ms, hms, hlookup⟩ := h [] false (by decide)
  obtain ⟨m, sgm, hm, hmem, hstart, hstop, hunchanged, -⟩ :=
    hlookup "\n𝒳y\n".toList 'z' "\n".toList (by decide)
  refine ⟨_, happly, ms, m, hms, hm, ?_⟩
  have hsgm : sgm = ⟨⟨7, 9⟩, ⟨8, 10⟩, .unchanged⟩ := by
    have hsize : byteSize "\n𝒳y\n".toList = 7 := rfl
    rw [hsize] at hstart hstop
    simp only [List.mem_cons, List.not_mem_nil, or_false] at hmem
    rcases hmem with rfl | rfl | rfl | rfl
    · cases hstop
    · exact absurd hstop (by decide)
    · exact absurd hstop (by decide)
    · rfl
  subst hsgm
  obtain ⟨a, b, ha, hsize, hplace⟩ := hunchanged rfl
  have hposition := position_append a ('z' :: b)
  rw [← ha, ← Option.some.inj hsize] at hposition
  have hplace' : (⟨1, 4⟩ : LineColumn) = ⟨m.sourceLine, m.sourceColumn + (0 - m.generatedColumn)⟩ :=
    hposition.trans hplace
  obtain ⟨hline, hcolumn⟩ := LineColumn.mk.inj hplace'
  exact ⟨hline.symm, hcolumn.symm⟩

end MarkupHighlight
