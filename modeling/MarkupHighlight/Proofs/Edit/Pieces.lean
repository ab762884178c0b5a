import MarkupHighlight.Proofs.Edit.Overwriting

/-!
The pieces of an edited text. Edits that a splicer takes and that lie apart, in whatever order they
were recorded, cut the source into the pieces that the result is put together from.
-/
namespace MarkupHighlight

/-- The text `s`, whose first byte is byte `n`, is cut into the ranges of the pieces, and a piece
that is unchanged has the text of its range. -/
inductive CutInto : Nat → Text → List Piece → Prop
  | nil (n : Nat) : CutInto n [] []
  | unchanged {n : Nat} {t s : Text} {ps : List Piece} (ht : t ≠ [])
      (h : CutInto (n + byteSize t) s ps) :
      CutInto n (t ++ s) (⟨⟨n, n + byteSize t⟩, t, .unchanged⟩ :: ps)
  | replaced {n : Nat} {old s : Text} (new : Text) {ps : List Piece}
      (h : CutInto (n + byteSize old) s ps) :
      CutInto n (old ++ s) (⟨⟨n, n + byteSize old⟩, new, .replaced⟩ :: ps)

/-- What the first piece takes off the source. -/
theorem CutInto.first {n : Nat} {s : Text} {p : Piece} {ps : List Piece}
    (h : CutInto n s (p :: ps)) :
    ∃ old s', s = old ++ s' ∧ p.source = ⟨n, n + byteSize old⟩ ∧
      (p.kind = .unchanged → p.text = old) ∧ CutInto (n + byteSize old) s' ps := by
  cases h with
  | unchanged ht h => exact ⟨_, _, rfl, rfl, fun _ => rfl, h⟩
  | replaced new h => exact ⟨_, _, rfl, rfl, nofun, h⟩

/-- Pieces behind some others are cut from what the others leave of the source. -/
theorem CutInto.split {n : Nat} {s : Text} {qs rs : List Piece} (h : CutInto n s (qs ++ rs)) :
    ∃ a b, s = a ++ b ∧ CutInto (n + byteSize a) b rs := by
  induction qs generalizing n s with
  | nil => exact ⟨[], s, rfl, h⟩
  | cons q qs ih =>
    obtain ⟨old, s', rfl, -, -, hrest⟩ := h.first
    obtain ⟨a, b, rfl, hcut⟩ := ih hrest
    refine ⟨old ++ a, b, (List.append_assoc ..).symm, ?_⟩
    rwa [byteSize_append, ← Nat.add_assoc]

/-! Segments. -/

/-- The segment of a piece that is placed from byte `n` on. -/
def Piece.segment (n : Nat) (p : Piece) : Segment :=
  ⟨⟨n, n + byteSize p.text⟩, p.source, p.kind⟩

theorem segmentsFrom_append (n : Nat) (ps qs : List Piece) :
    segmentsFrom n (ps ++ qs) =
      segmentsFrom n ps ++ segmentsFrom (n + byteSize (ps.flatMap (·.text))) qs := by
  induction ps generalizing n with
  | nil => rfl
  | cons p ps ih =>
    rw [List.cons_append, segmentsFrom, segmentsFrom, ih, List.flatMap_cons, byteSize_append,
      Nat.add_assoc, List.cons_append]

theorem mem_segmentsFrom {n : Nat} {ps : List Piece} {sgm : Segment} :
    sgm ∈ segmentsFrom n ps ↔
      ∃ qs p rs, ps = qs ++ p :: rs ∧ sgm = p.segment (n + byteSize (qs.flatMap (·.text))) := by
  constructor
  · intro h
    induction ps generalizing n with
    | nil => cases h
    | cons p ps ih =>
      rcases List.mem_cons.mp h with rfl | h
      · exact ⟨[], p, ps, rfl, rfl⟩
      · obtain ⟨qs, q, rs, rfl, rfl⟩ := ih h
        refine ⟨p :: qs, q, rs, rfl, ?_⟩
        rw [List.flatMap_cons, byteSize_append, Nat.add_assoc]
  · rintro ⟨qs, p, rs, rfl, rfl⟩
    rw [segmentsFrom_append, List.mem_append]
    right
    exact List.mem_cons_self ..

theorem PositionMap.sourceOffset?_of_find? {m : PositionMap} {n : Nat} {sgm : Segment}
    (hne : n ≠ m.generatedSize) (hfind : m.segments.find? (n < ·.generated.stop) = some sgm)
    (hstart : sgm.generated.start ≤ n) :
    m.sourceOffset? n = match sgm.kind with
      | .unchanged => some (sgm.source.start + (n - sgm.generated.start))
      | .replaced => some sgm.source.start := by
  rw [sourceOffset?, if_neg hne, hfind]
  exact if_neg (Nat.not_lt.mpr hstart)

/-! The pieces of edits that are in order. -/

theorem unchangedPiece_eq (a m b : Text) :
    unchangedPiece (a ++ (m ++ b)) (byteSize a) (byteSize a + byteSize m) =
      if m = [] then [] else [⟨⟨byteSize a, byteSize a + byteSize m⟩, m, .unchanged⟩] := by
  unfold unchangedPiece
  by_cases h : m = []
  · subst h
    simp
  · have := byteSize_pos h
    rw [if_pos (by omega), if_neg h]
    simp [sliceBytes]

theorem CutInto.gap {m s : Text} {ps : List Piece} (a b : Text)
    (h : CutInto (byteSize a + byteSize m) s ps) :
    CutInto (byteSize a) (m ++ s)
      (unchangedPiece (a ++ (m ++ b)) (byteSize a) (byteSize a + byteSize m) ++ ps) := by
  rw [unchangedPiece_eq]
  by_cases hm : m = []
  · subst hm
    exact h
  · rw [if_neg hm]
    exact .unchanged hm h

theorem Overwrites.cutInto {n : Nat} {s out : Text} {es : List Edit} (h : Overwrites n s es out)
    {a : Text} (ha : byteSize a = n) : CutInto n s (pieces (a ++ s) n es) := by
  induction h generalizing a with
  | done n s =>
    subst ha
    have := CutInto.gap a [] (m := s) (.nil _)
    simpa [pieces] using this
  | @edit n gap old new s out es _ ih =>
    subst ha
    have hrest := ih (a := a ++ (gap ++ old)) (by simp)
    rw [byteSize_append, ← Nat.add_assoc] at hrest
    have hedit := CutInto.replaced new hrest
    have := CutInto.gap a (old ++ s) hedit
    simpa [pieces, Nat.add_assoc] using this

/-- A piece that is not part of the source is the text of an edit, in place of its range. -/
theorem exists_edit_of_replaced {source : Text} {n : Nat} {es : List Edit} {p : Piece}
    (hp : p ∈ pieces source n es) (hkind : p.kind = .replaced) :
    ∃ e ∈ es, p = ⟨e.span, e.text, .replaced⟩ := by
  have hgap {start stop : Nat} : p ∉ unchangedPiece source start stop := by
    intro h
    unfold unchangedPiece at h
    split at h
    · cases List.mem_singleton.mp h
      cases hkind
    · cases h
  induction es generalizing n with
  | nil => exact absurd hp hgap
  | cons e es ih =>
    rw [pieces, List.mem_append, List.mem_cons] at hp
    rcases hp with hp | rfl | hp
    · exact absurd hp hgap
    · exact ⟨e, List.mem_cons_self .., rfl⟩
    · obtain ⟨e', he', rfl⟩ := ih hp
      exact ⟨e', List.mem_cons_of_mem _ he', rfl⟩

/-! Edits in the order in which they were recorded. -/

def Edit.Apart (a b : Edit) : Prop := a.span.stop ≤ b.span.start ∨ b.span.stop ≤ a.span.start

instance (a b : Edit) : Decidable (a.Apart b) := inferInstanceAs (Decidable (_ ∨ _))

theorem Edit.Apart.symm {a b : Edit} (h : a.Apart b) : b.Apart a := Or.symm h

/-- The range of an edit that a splicer takes. -/
theorem isCut_of_replaced {s t : Text} {e : Edit} (h : e.replaced s = .ok t) : IsCut s e.span := by
  unfold Edit.replaced at h
  split at h
  · cases h
  · split at h
    · cases h
    · rename_i hne
      split at h
      · rename_i m hm
        obtain ⟨a, b, hs, hspan⟩ := slice?_eq_some_iff.mp hm
        refine ⟨a, m, b, hs, ?_, hspan⟩
        rintro rfl
        apply hne
        rw [hspan, List.append_nil]
      · cases h

theorem pairwise_le_ordered (es : List Edit) :
    (es.mergeSort Edit.le).Pairwise fun a b => Edit.le a b = true := by
  apply List.pairwise_mergeSort
  · intro a b c
    simp only [Edit.le, Bool.or_eq_true, Bool.and_eq_true, decide_eq_true_eq, beq_iff_eq]
    omega
  · intro a b
    simp only [Edit.le, Bool.or_eq_true, Bool.and_eq_true, decide_eq_true_eq, beq_iff_eq]
    omega

theorem Splicer.ordered_perm (s : Splicer) : s.ordered.Perm s.edits :=
  List.mergeSort_perm s.edits Edit.le

section
variable {s : Splicer} (haccepted : ∀ e ∈ s.edits, ∃ t, e.replaced s.source = .ok t)
  (hapart : s.edits.Pairwise Edit.Apart)
include haccepted hapart

/-- Sorted, edits that lie apart come one behind the other. -/
theorem Splicer.disjoint_ordered :
    s.ordered.Pairwise fun a b => a.span.stop ≤ b.span.start := by
  have hapart' := (s.ordered_perm.pairwise_iff Edit.Apart.symm).mpr hapart
  refine ((pairwise_le_ordered s.edits).and hapart').imp_of_mem ?_
  rintro a b ha hb ⟨hle, hab⟩
  obtain ⟨t, ht⟩ := haccepted b (s.ordered_perm.subset hb)
  have := (isCut_of_replaced ht).start_lt_stop
  simp only [Edit.le, Bool.or_eq_true, Bool.and_eq_true, decide_eq_true_eq, beq_iff_eq] at hle
  unfold Edit.Apart at hab
  omega

theorem Splicer.exists_overwrites_ordered : ∃ out, Overwrites 0 s.source s.ordered out := by
  have hcut : ∀ e ∈ s.ordered, IsCut ([] ++ s.source) e.span := by
    intro e he
    obtain ⟨t, ht⟩ := haccepted e (s.ordered_perm.subset he)
    exact isCut_of_replaced ht
  apply exists_overwrites hcut
  · intro e _
    exact Nat.zero_le _
  · exact Splicer.disjoint_ordered haccepted hapart

/-- The source is cut into the pieces of such edits. -/
theorem Splicer.cutInto_pieces :
    CutInto 0 s.source (MarkupHighlight.pieces s.source 0 s.ordered) := by
  obtain ⟨out, hout⟩ := Splicer.exists_overwrites_ordered haccepted hapart
  exact hout.cutInto (a := []) rfl

/-- Such edits are applied, and the result is put together from the pieces. -/
theorem Splicer.apply_eq_pieces :
    let ps := MarkupHighlight.pieces s.source 0 s.ordered
    s.apply = .ok ⟨ps.flatMap (·.text),
      ⟨segmentsFrom 0 ps, byteSize s.source, byteSize (ps.flatMap (·.text))⟩⟩ := by
  obtain ⟨out, hout⟩ := Splicer.exists_overwrites_ordered haccepted hapart
  rw [apply, Splicer.pieces, firstOverlap?_eq_none hout.disjoint]
  rfl

theorem Splicer.exists_pieces :
    ∃ ps, CutInto 0 s.source ps ∧
      (∀ p ∈ ps, p.kind = .replaced → ∃ e ∈ s.edits, p = ⟨e.span, e.text, .replaced⟩) ∧
      s.apply = .ok ⟨ps.flatMap (·.text),
        ⟨segmentsFrom 0 ps, byteSize s.source, byteSize (ps.flatMap (·.text))⟩⟩ := by
  refine ⟨_, Splicer.cutInto_pieces haccepted hapart, ?_,
    Splicer.apply_eq_pieces haccepted hapart⟩
  intro p hp hkind
  obtain ⟨e, he, rfl⟩ := exists_edit_of_replaced hp hkind
  exact ⟨e, s.ordered_perm.subset he, rfl⟩

end

end MarkupHighlight
