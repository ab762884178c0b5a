import MarkupHighlight.Proofs.Edit.Pieces
import Mathlib.Data.List.Pairwise

/-!
The position map of an edited text as a correspondence of two texts. Its segments have one
invariant, `PositionMap.WellFormed`: on either side they follow each other without a gap, and
unchanged ones have one size on both. The laws of the lookup come from the invariant alone, the
search by halves among them; `Splicer.traces_of_apply` adds what the segments say of the texts.
-/
namespace MarkupHighlight

/-! Spans one behind the other. -/

def Span.Has (s : Span) (n : Nat) : Prop := s.start ≤ n ∧ n < s.stop

instance (s : Span) : DecidablePred s.Has := fun _ => inferInstanceAs (Decidable (_ ∧ _))

/-- The spans follow each other without a gap, from byte `start` to byte `stop`. -/
def Contiguous (start stop : Nat) : List Span → Prop
  | [] => start = stop
  | s :: ss => s.start = start ∧ s.start ≤ s.stop ∧ Contiguous s.stop stop ss

namespace Contiguous

theorem le {start stop : Nat} {ss : List Span} (h : Contiguous start stop ss) : start ≤ stop := by
  induction ss generalizing start with
  | nil => exact Nat.le_of_eq h
  | cons s ss ih =>
    obtain ⟨rfl, hle, hrest⟩ := h
    exact Nat.le_trans hle (ih hrest)

theorem bounds {start stop : Nat} {ss : List Span} (h : Contiguous start stop ss) :
    ∀ s ∈ ss, start ≤ s.start ∧ s.start ≤ s.stop ∧ s.stop ≤ stop := by
  induction ss generalizing start with
  | nil => nofun
  | cons s ss ih =>
    obtain ⟨rfl, hle, hrest⟩ := h
    refine List.forall_mem_cons.mpr ⟨⟨Nat.le_refl _, hle, hrest.le⟩, fun t ht => ?_⟩
    have := ih hrest t ht
    omega

theorem pairwise {start stop : Nat} {ss : List Span} (h : Contiguous start stop ss) :
    ss.Pairwise fun s t => s.stop ≤ t.start := by
  induction ss generalizing start with
  | nil => exact .nil
  | cons s ss ih =>
    obtain ⟨rfl, -, hrest⟩ := h
    exact .cons (fun t ht => (hrest.bounds t ht).1) (ih hrest)

/-- Every byte is in one of the spans. -/
theorem exists_has {start stop n : Nat} {ss : List Span} (h : Contiguous start stop ss)
    (hle : start ≤ n) (hlt : n < stop) : ∃ s ∈ ss, s.Has n := by
  induction ss generalizing start with
  | nil =>
    obtain rfl : start = stop := h
    omega
  | cons s ss ih =>
    obtain ⟨rfl, -, hrest⟩ := h
    by_cases hn : n < s.stop
    · exact ⟨s, List.mem_cons_self .., hle, hn⟩
    · obtain ⟨t, ht, hhas⟩ := ih hrest (Nat.le_of_not_lt hn)
      exact ⟨t, List.mem_cons_of_mem _ ht, hhas⟩

end Contiguous

/-! Search by halves. -/

/-- The place of the first element with `p`, looked for in one half of the list after the other. -/
def bisect {α : Type} (p : α → Bool) (l : List α) : Nat :=
  match _h : l.drop (l.length / 2) with
  | [] => 0
  | x :: r => if p x then bisect p (l.take (l.length / 2)) else l.length / 2 + 1 + bisect p r
  termination_by l.length
  decreasing_by
    all_goals
      have hlength := congrArg List.length _h
      simp only [List.length_drop, List.length_cons, List.length_take] at hlength ⊢
      omega

/-- The search is right where all elements behind one with `p` have `p`. -/
theorem bisect_eq_findIdx {α : Type} {p : α → Bool} {l : List α}
    (h : l.Pairwise fun x y => p x = true → p y = true) : bisect p l = l.findIdx p := by
  fun_induction bisect p l with
  | case1 l hdrop =>
    have hnil : l = [] := by
      have := List.drop_eq_nil_iff.mp hdrop
      exact List.length_eq_zero_iff.mp (by omega)
    rw [hnil, List.findIdx_nil]
  | case2 l x r hdrop hx ih =>
    have hl : l.findIdx p = (l.take (l.length / 2) ++ x :: r).findIdx p := by
      rw [← hdrop, List.take_append_drop]
    have hfront := h.sublist (List.take_sublist (l.length / 2) l)
    have hle : (l.take (l.length / 2)).findIdx p ≤ (l.take (l.length / 2)).length :=
      List.findIdx_le_length
    rw [ih hfront, hl, List.findIdx_append]
    split
    next => rfl
    next hnot =>
      rw [List.findIdx_cons, hx, cond_true, Nat.zero_add]
      exact Nat.le_antisymm hle (Nat.le_of_not_lt hnot)
  | case3 l x r hdrop hx ih =>
    have hl : l = l.take (l.length / 2) ++ x :: r := by rw [← hdrop, List.take_append_drop]
    have hlength : (l.take (l.length / 2)).length = l.length / 2 := by
      rw [List.length_take]
      omega
    rw [hl] at h
    obtain ⟨-, hback, hacross⟩ := List.pairwise_append.mp h
    have hnone : ∀ y ∈ l.take (l.length / 2), p y = false := by
      intro y hy
      by_cases hpy : p y = true
      · exact absurd (hacross y hy x (List.mem_cons_self ..) hpy) hx
      · simpa using hpy
    have hfront := List.findIdx_eq_length_of_false hnone
    have hfindIdx : l.findIdx p = (x :: r).findIdx p + l.length / 2 := by
      rw [hlength] at hfront
      calc l.findIdx p = (l.take (l.length / 2) ++ x :: r).findIdx p := congrArg _ hl
        _ = (x :: r).findIdx p + l.length / 2 := by
          rw [List.findIdx_append, hfront, hlength, if_neg (Nat.lt_irrefl _)]
    rw [ih hback.of_cons, hfindIdx, List.findIdx_cons]
    simp only [hx, cond_false]
    omega

/-- The lookup of a byte as `sourceOffset?` has it, with the segment searched by halves. -/
def PositionMap.search? (m : PositionMap) (n : Nat) : Option Nat :=
  if n = m.generatedSize then some m.sourceSize
  else
    match m.segments[bisect (n < ·.generated.stop) m.segments]? with
    | none => none
    | some s =>
        if s.generated.start > n then none
        else
          match s.kind with
          | .unchanged => some (s.source.start + (n - s.generated.start))
          | .replaced => some s.source.start

/-! The invariant of a position map, and what it means for lookups. -/

structure PositionMap.WellFormed (m : PositionMap) : Prop where
  generated : Contiguous 0 m.generatedSize (m.segments.map (·.generated))
  source : Contiguous 0 m.sourceSize (m.segments.map (·.source))
  size : ∀ sgm ∈ m.segments, sgm.kind = .unchanged →
    sgm.generated.start + sgm.source.stop = sgm.generated.stop + sgm.source.start

/-- The source offset of byte `n`, if the segment has that byte. -/
def Segment.sourceOffset (sgm : Segment) (n : Nat) : Nat :=
  match sgm.kind with
  | .unchanged => sgm.source.start + (n - sgm.generated.start)
  | .replaced => sgm.source.start

/-- The segment is in front of the other one on both sides. -/
def Segment.Before (s t : Segment) : Prop :=
  s.generated.stop ≤ t.generated.start ∧ s.source.stop ≤ t.source.start

namespace PositionMap.WellFormed

variable {m : PositionMap} (h : m.WellFormed)
include h

theorem bounds_generated {sgm : Segment} (hsgm : sgm ∈ m.segments) :
    sgm.generated.start ≤ sgm.generated.stop ∧ sgm.generated.stop ≤ m.generatedSize :=
  (h.generated.bounds _ (List.mem_map_of_mem hsgm)).2

theorem bounds_source {sgm : Segment} (hsgm : sgm ∈ m.segments) :
    sgm.source.start ≤ sgm.source.stop ∧ sgm.source.stop ≤ m.sourceSize :=
  (h.source.bounds _ (List.mem_map_of_mem hsgm)).2

theorem pairwise : m.segments.Pairwise Segment.Before :=
  (List.pairwise_map.mp h.generated.pairwise).and (List.pairwise_map.mp h.source.pairwise)

theorem before_or_before {s t : Segment} (hs : s ∈ m.segments) (ht : t ∈ m.segments)
    (hst : s ≠ t) : s.Before t ∨ t.Before s := by
  have hpairwise : m.segments.Pairwise fun s t => s.Before t ∨ t.Before s := h.pairwise.imp Or.inl
  have hsymm : Std.Symm fun s t : Segment => s.Before t ∨ t.Before s := ⟨fun _ _ => Or.symm⟩
  exact hpairwise.forall hs ht hst

theorem find?_eq {sgm : Segment} (hsgm : sgm ∈ m.segments) {n : Nat} (hn : sgm.generated.Has n) :
    m.segments.find? (n < ·.generated.stop) = some sgm := by
  obtain ⟨front, back, hsegments⟩ := List.append_of_mem hsgm
  have hpairwise := h.pairwise
  rw [hsegments] at hpairwise
  have hfront : ∀ t ∈ front, t.generated.stop ≤ n := fun t ht =>
    Nat.le_trans ((List.pairwise_append.mp hpairwise).2.2 t ht sgm (List.mem_cons_self ..)).1 hn.1
  rw [hsegments, List.find?_append, List.find?_eq_none.mpr (by simpa using hfront), Option.none_or]
  exact List.find?_cons_of_pos (decide_eq_true hn.2)

theorem sourceOffset?_eq {sgm : Segment} (hsgm : sgm ∈ m.segments) {n : Nat}
    (hn : sgm.generated.Has n) : m.sourceOffset? n = some (sgm.sourceOffset n) := by
  have hne : n ≠ m.generatedSize := Nat.ne_of_lt (Nat.lt_of_lt_of_le hn.2 (h.bounds_generated hsgm).2)
  rw [sourceOffset?_of_find? hne (h.find?_eq hsgm hn) hn.1, Segment.sourceOffset]
  cases sgm.kind <;> rfl

omit h in
theorem sourceOffset?_end : m.sourceOffset? m.generatedSize = some m.sourceSize := by
  rw [sourceOffset?, if_pos rfl]

theorem sourceOffset?_eq_none {n : Nat} (hn : m.generatedSize < n) : m.sourceOffset? n = none := by
  have hnone : m.segments.find? (n < ·.generated.stop) = none := by
    rw [List.find?_eq_none]
    intro sgm hsgm
    have := (h.bounds_generated hsgm).2
    simp only [decide_eq_true_eq]
    omega
  rw [sourceOffset?, if_neg (Nat.ne_of_gt hn), hnone]

/-- What a lookup finds: the segment of the byte, or the end. -/
theorem sourceOffset?_cases {n a : Nat} (ha : m.sourceOffset? n = some a) :
    (∃ sgm ∈ m.segments, sgm.generated.Has n ∧ a = sgm.sourceOffset n) ∨
      n = m.generatedSize ∧ a = m.sourceSize := by
  rcases Nat.lt_trichotomy n m.generatedSize with hlt | rfl | hgt
  · obtain ⟨span, hspan, hn⟩ := h.generated.exists_has (Nat.zero_le n) hlt
    obtain ⟨sgm, hsgm, rfl⟩ := List.mem_map.mp hspan
    exact .inl ⟨sgm, hsgm, hn, Option.some.inj (ha.symm.trans (h.sourceOffset?_eq hsgm hn))⟩
  · exact .inr ⟨rfl, Option.some.inj (ha.symm.trans sourceOffset?_end)⟩
  · cases ha.symm.trans (h.sourceOffset?_eq_none hgt)

theorem isSome_sourceOffset?_iff {n : Nat} :
    (m.sourceOffset? n).isSome = true ↔ n ≤ m.generatedSize := by
  constructor
  · intro hsome
    by_cases hn : n ≤ m.generatedSize
    · exact hn
    · rw [h.sourceOffset?_eq_none (Nat.lt_of_not_le hn)] at hsome
      cases hsome
  · intro hn
    rcases Nat.lt_or_eq_of_le hn with hlt | rfl
    · obtain ⟨span, hspan, hn⟩ := h.generated.exists_has (Nat.zero_le n) hlt
      obtain ⟨sgm, hsgm, rfl⟩ := List.mem_map.mp hspan
      rw [h.sourceOffset?_eq hsgm hn]
      rfl
    · rw [sourceOffset?_end]
      rfl

/-- A segment leads each of its bytes to its own range of the source. -/
theorem sourceOffset_bounds {sgm : Segment} (hsgm : sgm ∈ m.segments) {n : Nat}
    (hn : sgm.generated.Has n) :
    sgm.source.start ≤ sgm.sourceOffset n ∧ sgm.sourceOffset n ≤ sgm.source.stop := by
  obtain ⟨hle, hlt⟩ := hn
  have hsource := h.bounds_source hsgm
  unfold Segment.sourceOffset
  cases hkind : sgm.kind with
  | unchanged =>
    have := h.size sgm hsgm hkind
    dsimp only
    omega
  | replaced => exact ⟨Nat.le_refl _, hsource.1⟩

omit h in
theorem sourceOffset_mono (sgm : Segment) {i j : Nat} (hij : i ≤ j) :
    sgm.sourceOffset i ≤ sgm.sourceOffset j := by
  unfold Segment.sourceOffset
  cases sgm.kind with
  | unchanged => exact Nat.add_le_add_left (Nat.sub_le_sub_right hij _) _
  | replaced => exact Nat.le_refl _

theorem sourceOffset?_mono {i j a b : Nat} (hij : i ≤ j) (ha : m.sourceOffset? i = some a)
    (hb : m.sourceOffset? j = some b) : a ≤ b := by
  rcases h.sourceOffset?_cases ha with ⟨s, hs, hi, rfl⟩ | ⟨rfl, rfl⟩
  · rcases h.sourceOffset?_cases hb with ⟨t, ht, hj, rfl⟩ | ⟨rfl, rfl⟩
    · have hs' := (h.sourceOffset_bounds hs hi).2
      have ht' := (h.sourceOffset_bounds ht hj).1
      obtain ⟨hsi, his⟩ := hi
      obtain ⟨htj, hjt⟩ := hj
      by_cases hst : s = t
      · subst hst
        exact sourceOffset_mono s hij
      · -- the segment of the later byte is behind the other one, also in the source
        rcases h.before_or_before hs ht hst with ⟨-, hbefore⟩ | ⟨hbehind, -⟩
        · omega
        · omega
    · exact Nat.le_trans (h.sourceOffset_bounds hs hi).2 (h.bounds_source hs).2
  · have hj := h.isSome_sourceOffset?_iff.mp (Option.isSome_of_eq_some hb)
    obtain rfl := Nat.le_antisymm hij hj
    exact Nat.le_of_eq (Option.some.inj (sourceOffset?_end.symm.trans hb))

/-- Every source offset that no replaced range has is that of some byte. -/
theorem exists_sourceOffset?_eq {k : Nat} (hk : k ≤ m.sourceSize)
    (hclear : ∀ sgm ∈ m.segments, sgm.kind = .replaced → ¬ sgm.source.Has k) :
    ∃ n, m.sourceOffset? n = some k := by
  rcases Nat.lt_or_eq_of_le hk with hlt | rfl
  · obtain ⟨span, hspan, hhas⟩ := h.source.exists_has (Nat.zero_le k) hlt
    obtain ⟨sgm, hsgm, rfl⟩ := List.mem_map.mp hspan
    have hkind : sgm.kind = .unchanged := by
      cases hkind : sgm.kind with
      | unchanged => rfl
      | replaced => exact absurd hhas (hclear sgm hsgm hkind)
    obtain ⟨hle, hlt⟩ := hhas
    have hsize := h.size sgm hsgm hkind
    refine ⟨sgm.generated.start + (k - sgm.source.start), ?_⟩
    rw [h.sourceOffset?_eq hsgm ⟨Nat.le_add_right _ _, by omega⟩, Segment.sourceOffset, hkind]
    simp only [Option.some.injEq]
    omega
  · exact ⟨m.generatedSize, sourceOffset?_end⟩

/-- Behind a segment that ends behind a byte all do, so that halves may be dropped. -/
theorem search?_eq (n : Nat) : m.search? n = m.sourceOffset? n := by
  have hback : m.segments.Pairwise fun s t =>
      decide (n < s.generated.stop) = true → decide (n < t.generated.stop) = true := by
    refine h.pairwise.imp_of_mem fun {s t} _ ht hst hn => ?_
    have := (h.bounds_generated ht).1
    have := hst.1
    simp only [decide_eq_true_eq] at hn ⊢
    omega
  rewrite [search?, bisect_eq_findIdx hback, ← List.find?_eq_getElem?_findIdx, sourceOffset?]
  rfl

end PositionMap.WellFormed

/-! The segments of an edited text. -/

theorem contiguous_generated (n : Nat) (ps : List Piece) :
    Contiguous n (n + byteSize (ps.flatMap (·.text))) ((segmentsFrom n ps).map (·.generated)) := by
  induction ps generalizing n with
  | nil => rfl
  | cons p ps ih =>
    have hrest := ih (n + byteSize p.text)
    rw [Nat.add_assoc, ← byteSize_append] at hrest
    exact ⟨rfl, Nat.le_add_right _ _, hrest⟩

theorem CutInto.contiguous_source {n : Nat} {s : Text} {ps : List Piece} (h : CutInto n s ps)
    (k : Nat) : Contiguous n (n + byteSize s) ((segmentsFrom k ps).map (·.source)) := by
  induction ps generalizing n s k with
  | nil =>
    cases h
    rfl
  | cons p ps ih =>
    obtain ⟨old, s', rfl, hspan, -, hrest⟩ := h.first
    have hbehind := ih hrest (k + byteSize p.text)
    rw [Nat.add_assoc, ← byteSize_append] at hbehind
    rw [segmentsFrom, List.map_cons, hspan]
    exact ⟨rfl, Nat.le_add_right _ _, hbehind⟩

theorem slice?_segment (qs rs : List Piece) (p : Piece) :
    slice? ((qs ++ p :: rs).flatMap (·.text))
      (p.segment (0 + byteSize (qs.flatMap (·.text)))).generated = some p.text := by
  apply slice?_eq_some_iff.mpr
  refine ⟨qs.flatMap (·.text), rs.flatMap (·.text), ?_, ?_⟩
  · rw [List.flatMap_append, List.flatMap_cons]
  · rw [Piece.segment, Nat.zero_add, byteSize_append]

/-- A segment is that of a piece, with the text of the piece. -/
theorem exists_piece_of_segment {ps : List Piece} {sgm : Segment} (h : sgm ∈ segmentsFrom 0 ps) :
    ∃ p ∈ ps, sgm.kind = p.kind ∧ sgm.source = p.source ∧
      slice? (ps.flatMap (·.text)) sgm.generated = some p.text := by
  obtain ⟨qs, p, rs, rfl, rfl⟩ := mem_segmentsFrom.mp h
  exact ⟨p, List.mem_append_right _ (List.mem_cons_self ..), rfl, rfl, slice?_segment qs rs p⟩

theorem exists_segment_of_piece {ps : List Piece} {p : Piece} (h : p ∈ ps) :
    ∃ sgm ∈ segmentsFrom 0 ps, sgm.kind = p.kind ∧ sgm.source = p.source ∧
      slice? (ps.flatMap (·.text)) sgm.generated = some p.text := by
  obtain ⟨qs, rs, rfl⟩ := List.append_of_mem h
  exact ⟨_, mem_segmentsFrom.mpr ⟨qs, p, rs, rfl, rfl⟩, rfl, rfl, slice?_segment qs rs p⟩

theorem stop_of_slice? {s x : Text} {span : Span} (h : slice? s span = some x) :
    span.stop = span.start + byteSize x := by
  obtain ⟨a, b, -, rfl⟩ := slice?_eq_some_iff.mp h
  exact byteSize_append a x

/-- An unchanged piece has the text of its range. -/
theorem CutInto.slice?_source {source : Text} {ps : List Piece} (h : CutInto 0 source ps)
    {p : Piece} (hp : p ∈ ps) (hkind : p.kind = .unchanged) :
    p.text ≠ [] ∧ slice? source p.source = some p.text := by
  obtain ⟨qs, rs, rfl⟩ := List.append_of_mem hp
  obtain ⟨a, s, rfl, hcut⟩ := h.split
  cases hcut with
  | replaced => cases hkind
  | @unchanged _ t s _ ht _ =>
    rw [Nat.zero_add]
    exact ⟨ht, slice?_eq_some_iff.mpr ⟨a, s, rfl, by rw [byteSize_append]⟩⟩

/-- The two sides of an unchanged segment. -/
theorem CutInto.slice?_unchanged {source : Text} {ps : List Piece} (h : CutInto 0 source ps)
    {sgm : Segment} (hsgm : sgm ∈ segmentsFrom 0 ps) (hkind : sgm.kind = .unchanged) :
    ∃ x, x ≠ [] ∧ slice? (ps.flatMap (·.text)) sgm.generated = some x ∧
      slice? source sgm.source = some x := by
  obtain ⟨p, hp, hpkind, hspan, hslice⟩ := exists_piece_of_segment hsgm
  obtain ⟨hne, hsource⟩ := h.slice?_source hp (hpkind.symm.trans hkind)
  exact ⟨p.text, hne, hslice, hspan ▸ hsource⟩

theorem CutInto.wellFormed {source : Text} {ps : List Piece} (h : CutInto 0 source ps) :
    PositionMap.WellFormed
      ⟨segmentsFrom 0 ps, byteSize source, byteSize (ps.flatMap (·.text))⟩ where
  generated := by
    have hgenerated := contiguous_generated 0 ps
    rwa [Nat.zero_add] at hgenerated
  source := by
    have hsource := h.contiguous_source 0
    rwa [Nat.zero_add] at hsource
  size sgm hsgm hkind := by
    obtain ⟨x, -, hgenerated, hsource⟩ := h.slice?_unchanged hsgm hkind
    rw [stop_of_slice? hgenerated, stop_of_slice? hsource]
    omega

theorem mem_pieces_of_mem (source : Text) (n : Nat) {es : List Edit} {e : Edit} (he : e ∈ es) :
    (⟨e.span, e.text, .replaced⟩ : Piece) ∈ pieces source n es := by
  induction es generalizing n with
  | nil => cases he
  | cons d es ih =>
    rw [pieces, List.mem_append, List.mem_cons]
    rcases List.mem_cons.mp he with rfl | he
    · exact .inr (.inl rfl)
    · exact .inr (.inr (ih _ he))

/-- A character in an unchanged part of one text is found in the other one, as far behind the start
of the part. -/
theorem exists_character {code source t u v : Text} {c : Char} {g o : Span}
    (hg : slice? code g = some t) (ho : slice? source o = some t) (hu : code = u ++ c :: v)
    (hhas : g.Has (byteSize u)) :
    ∃ a b, source = a ++ c :: b ∧ byteSize a = o.start + (byteSize u - g.start) := by
  obtain ⟨x, y, hcode, rfl⟩ := slice?_eq_some_iff.mp hg
  obtain ⟨a, b, hsource, rfl⟩ := slice?_eq_some_iff.mp ho
  obtain ⟨hle, hlt⟩ := hhas
  obtain ⟨u', rfl, hrest⟩ := exists_of_append_eq (hcode.symm.trans hu) hle
  have hsize : byteSize u' < byteSize t := by
    simp only [byteSize_append] at hlt
    omega
  obtain ⟨e, rfl, hbehind⟩ := exists_of_append_eq hrest.symm (Nat.le_of_lt hsize)
  cases e with
  | nil =>
    rw [List.append_nil] at hsize
    exact absurd hsize (Nat.lt_irrefl _)
  | cons d e =>
    obtain ⟨rfl, -⟩ := List.cons.inj hbehind
    refine ⟨a ++ u', e ++ b, ?_, ?_⟩
    · rw [hsource]
      simp
    · simp only [byteSize_append, Nat.add_sub_cancel_left]

/-- How the edited text `t` and its map correspond to what the splicer holds. -/
structure Splicer.Traces (s : Splicer) (t : Spliced) : Prop where
  generatedSize : t.map.generatedSize = byteSize t.code
  sourceSize : t.map.sourceSize = byteSize s.source
  generated : Contiguous 0 (byteSize t.code) (t.map.segments.map (·.generated))
  source : Contiguous 0 (byteSize s.source) (t.map.segments.map (·.source))
  /-- Unchanged segments have one text on both sides. -/
  unchanged : ∀ sgm ∈ t.map.segments, sgm.kind = .unchanged →
    ∃ x, x ≠ [] ∧ slice? t.code sgm.generated = some x ∧ slice? s.source sgm.source = some x
  /-- The other segments are the edits. -/
  replaced : ∀ span text, ⟨span, text⟩ ∈ s.edits ↔
    ∃ sgm ∈ t.map.segments, sgm.kind = .replaced ∧ sgm.source = span ∧
      slice? t.code sgm.generated = some text
  isSome_iff : ∀ n, (t.map.sourceOffset? n).isSome = true ↔ n ≤ byteSize t.code
  mono : ∀ i j a b, i ≤ j → t.map.sourceOffset? i = some a → t.map.sourceOffset? j = some b → a ≤ b
  inUnchanged : ∀ sgm ∈ t.map.segments, sgm.kind = .unchanged → ∀ n, sgm.generated.Has n →
    t.map.sourceOffset? n = some (sgm.source.start + (n - sgm.generated.start))
  character : ∀ sgm ∈ t.map.segments, sgm.kind = .unchanged → ∀ u c v, t.code = u ++ c :: v →
    sgm.generated.Has (byteSize u) →
    ∃ a b, s.source = a ++ c :: b ∧ t.map.sourceOffset? (byteSize u) = some (byteSize a)
  inReplaced : ∀ sgm ∈ t.map.segments, sgm.kind = .replaced → ∀ n, sgm.generated.Has n →
    t.map.sourceOffset? n = some sgm.source.start
  atEnd : t.map.sourceOffset? (byteSize t.code) = some (byteSize s.source)
  /-- No offset outside the edited ranges is missed. -/
  onto : ∀ k ≤ byteSize s.source, (∀ e ∈ s.edits, ¬ e.span.Has k) →
    ∃ n, t.map.sourceOffset? n = some k
  /-- Each lookup may search by halves. -/
  search : ∀ n, t.map.search? n = t.map.sourceOffset? n

/-- Edits that a splicer takes and that lie apart make a text whose position map is a faithful
correspondence with the source. -/
theorem Splicer.traces_of_apply {s : Splicer}
    (haccepted : ∀ e ∈ s.edits, ∃ t, e.replaced s.source = .ok t)
    (hapart : s.edits.Pairwise Edit.Apart) : ∃ t, s.apply = .ok t ∧ s.Traces t := by
  have hcut := Splicer.cutInto_pieces haccepted hapart
  have happly := Splicer.apply_eq_pieces haccepted hapart
  have hedit : ∀ p, p ∈ MarkupHighlight.pieces s.source 0 s.ordered → p.kind = .replaced →
      (⟨p.source, p.text⟩ : Edit) ∈ s.edits := by
    intro p hp hkind
    obtain ⟨e, he, rfl⟩ := exists_edit_of_replaced hp hkind
    exact s.ordered_perm.subset he
  have hpiece : ∀ e ∈ s.edits,
      (⟨e.span, e.text, .replaced⟩ : Piece) ∈ MarkupHighlight.pieces s.source 0 s.ordered :=
    fun e he => mem_pieces_of_mem s.source 0 (s.ordered_perm.symm.subset he)
  generalize MarkupHighlight.pieces s.source 0 s.ordered = ps at hcut happly hedit hpiece
  have hmap := hcut.wellFormed
  refine ⟨_, happly, ?_⟩
  constructor
  case generatedSize => rfl
  case sourceSize => rfl
  case generated => exact hmap.generated
  case source => exact hmap.source
  case unchanged => exact fun sgm hsgm hkind => hcut.slice?_unchanged hsgm hkind
  case replaced =>
    intro span text
    constructor
    · intro he
      obtain ⟨sgm, hsgm, hkind, hspan, hslice⟩ := exists_segment_of_piece (hpiece _ he)
      exact ⟨sgm, hsgm, hkind, hspan, hslice⟩
    · rintro ⟨sgm, hsgm, hkind, rfl, hslice⟩
      obtain ⟨p, hp, hpkind, hspan, hp'⟩ := exists_piece_of_segment hsgm
      obtain rfl := Option.some.inj (hslice.symm.trans hp')
      rw [hspan]
      exact hedit p hp (hpkind.symm.trans hkind)
  case isSome_iff => exact fun n => hmap.isSome_sourceOffset?_iff
  case mono => exact fun i j a b hij ha hb => hmap.sourceOffset?_mono hij ha hb
  case inUnchanged =>
    intro sgm hsgm hkind n hn
    rw [hmap.sourceOffset?_eq hsgm hn, Segment.sourceOffset, hkind]
  case character =>
    intro sgm hsgm hkind u c v hu hhas
    obtain ⟨x, -, hgenerated, hsource⟩ := hcut.slice?_unchanged hsgm hkind
    obtain ⟨a, b, ha, hsize⟩ := exists_character hgenerated hsource hu hhas
    refine ⟨a, b, ha, ?_⟩
    rw [hmap.sourceOffset?_eq hsgm hhas, Segment.sourceOffset, hkind, hsize]
  case inReplaced =>
    intro sgm hsgm hkind n hn
    rw [hmap.sourceOffset?_eq hsgm hn, Segment.sourceOffset, hkind]
  case atEnd => exact PositionMap.WellFormed.sourceOffset?_end
  case onto =>
    intro k hk hclear
    apply hmap.exists_sourceOffset?_eq hk
    intro sgm hsgm hkind
    obtain ⟨p, hp, hpkind, hspan, -⟩ := exists_piece_of_segment hsgm
    rw [hspan]
    exact hclear _ (hedit p hp (hpkind.symm.trans hkind))
  case search => exact hmap.search?_eq

/-- Two deletions leave empty segments at the start, so that byte 0 belongs to the edit behind them;
the edits were recorded from the last to the first. -/
theorem Splicer.traces_of_apply_deletions :
    ∃ t, (⟨"ab\nçd".toList, [⟨⟨3, 5⟩, "XY".toList⟩, ⟨⟨1, 3⟩, []⟩, ⟨⟨0, 1⟩, []⟩]⟩ : Splicer).apply =
        .ok t ∧
      Traces ⟨"ab\nçd".toList, [⟨⟨3, 5⟩, "XY".toList⟩, ⟨⟨1, 3⟩, []⟩, ⟨⟨0, 1⟩, []⟩]⟩ t ∧
      t.code = "XYd".toList ∧ t.map.search? 0 = some 3 ∧ t.map.search? 2 = some 5 := by
  obtain ⟨t, happly, htraces⟩ := traces_of_apply
    (s := ⟨"ab\nçd".toList, [⟨⟨3, 5⟩, "XY".toList⟩, ⟨⟨1, 3⟩, []⟩, ⟨⟨0, 1⟩, []⟩]⟩)
    (List.forall_mem_cons.mpr ⟨⟨"ç".toList, rfl⟩, List.forall_mem_cons.mpr ⟨⟨"b\n".toList, rfl⟩,
      List.forall_mem_singleton.mpr ⟨"a".toList, rfl⟩⟩⟩)
    (by decide)
  refine ⟨t, happly, htraces, ?_⟩
  have hordered : [⟨⟨3, 5⟩, "XY".toList⟩, ⟨⟨1, 3⟩, []⟩, ⟨⟨0, 1⟩, []⟩].mergeSort Edit.le =
      [⟨⟨0, 1⟩, []⟩, ⟨⟨1, 3⟩, []⟩, ⟨⟨3, 5⟩, "XY".toList⟩] := by
    simp [List.mergeSort, List.MergeSort.Internal.splitInTwo, Edit.le]
  rw [apply, pieces, ordered, hordered] at happly
  obtain rfl := Except.ok.inj happly
  refine ⟨rfl, ?_, ?_⟩
  · rw [htraces.search]
    exact htraces.inReplaced ⟨⟨0, 2⟩, ⟨3, 5⟩, .replaced⟩ (by decide) rfl 0 (by decide)
  · rw [htraces.search]
    exact htraces.inUnchanged ⟨⟨2, 3⟩, ⟨5, 6⟩, .unchanged⟩ (by decide) rfl 2 (by decide)

end MarkupHighlight
