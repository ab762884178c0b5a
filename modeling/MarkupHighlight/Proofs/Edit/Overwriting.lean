import MarkupHighlight.Edit.PositionMap
import MarkupHighlight.Proofs.Markup.Shift
import MarkupHighlight.Proofs.Text.Cutting

/-!
What a splicer does, as a relation: the text is cut into gaps and edited ranges, the gaps stay and
each range gives way to the text of its edit. Laying two edited texts end to end edits the whole.
-/
namespace MarkupHighlight

def Edit.shift (n : Nat) (e : Edit) : Edit := { e with span := e.span.shift n }

/-- `out` is `s`, whose first byte is byte `n`, with the ranges of the edits overwritten. -/
inductive Overwrites : Nat → Text → List Edit → Text → Prop
  | done (n : Nat) (s : Text) : Overwrites n s [] s
  | edit {n : Nat} (gap : Text) {old : Text} (new : Text) {s out : Text} {es : List Edit}
      (h : Overwrites (n + byteSize (gap ++ old)) s es out) :
      Overwrites n (gap ++ (old ++ s))
        (⟨⟨n + byteSize gap, n + byteSize (gap ++ old)⟩, new⟩ :: es) (gap ++ (new ++ out))

namespace Overwrites

theorem skip {n : Nat} {u s out : Text} {es : List Edit}
    (h : Overwrites (n + byteSize u) s es out) : Overwrites n (u ++ s) es (u ++ out) := by
  cases h with
  | done => exact .done n (u ++ s)
  | @edit _ gap old new s out es h =>
    have hrest : Overwrites (n + byteSize (u ++ gap ++ old)) s es out := by
      simpa [Nat.add_assoc] using h
    have := hrest.edit (u ++ gap) new
    simpa [Nat.add_assoc] using this

theorem append {n : Nat} {u s out out' : Text} {es es' : List Edit} (h : Overwrites n u es out)
    (h' : Overwrites (n + byteSize u) s es' out') :
    Overwrites n (u ++ s) (es ++ es') (out ++ out') := by
  induction h with
  | done => exact h'.skip
  | @edit n gap old new u out es _ ih =>
    have hrest := ih (by simpa [Nat.add_assoc] using h')
    simpa using hrest.edit gap new

/-- Edits of the same text further on. -/
theorem shift {n : Nat} {s out : Text} {es : List Edit} (k : Nat) (h : Overwrites n s es out) :
    Overwrites (k + n) s (es.map (.shift k)) out := by
  induction h with
  | done => exact .done _ _
  | @edit n gap old new s out es _ ih =>
    rw [← Nat.add_assoc] at ih
    simpa [Edit.shift, Span.shift, Nat.add_assoc] using ih.edit gap new

/-! Texts laid end to end, each with edits that count from its own start. -/

theorem behind {s out : Text} {es : List Edit} (u : Text) (h : Overwrites 0 s es out) :
    Overwrites 0 (u ++ s) (es.map (.shift (byteSize u))) (u ++ out) := by
  have hmoved := h.shift (byteSize u)
  rw [Nat.add_comm] at hmoved
  exact hmoved.skip

theorem concat {u s out out' : Text} {es es' : List Edit} (h : Overwrites 0 u es out)
    (h' : Overwrites 0 s es' out') :
    Overwrites 0 (u ++ s) (es ++ es'.map (.shift (byteSize u))) (out ++ out') := by
  have hmoved := h'.shift (byteSize u)
  rw [Nat.add_comm] at hmoved
  exact h.append hmoved

theorem replace {s out : Text} {es : List Edit} (old new : Text) (h : Overwrites 0 s es out) :
    Overwrites 0 (old ++ s) (⟨⟨0, byteSize old⟩, new⟩ :: es.map (.shift (byteSize old)))
      (new ++ out) := by
  have hmoved := h.shift (byteSize old)
  rw [Nat.add_comm] at hmoved
  simpa using Overwrites.edit [] new hmoved

theorem bounds {n : Nat} {s out : Text} {es : List Edit} (h : Overwrites n s es out) :
    ∀ e ∈ es, n ≤ e.span.start ∧ e.span.start ≤ e.span.stop ∧ e.span.stop ≤ n + byteSize s := by
  induction h with
  | done => simp
  | @edit n gap old new s out es _ ih =>
    intro e he
    simp only [byteSize_append] at ih ⊢
    rcases List.mem_cons.mp he with rfl | he
    · simp only [byteSize_append]
      omega
    · have := ih e he
      omega

theorem disjoint {n : Nat} {s out : Text} {es : List Edit} (h : Overwrites n s es out) :
    es.Pairwise fun a b => a.span.stop ≤ b.span.start := by
  induction h with
  | done => exact .nil
  | edit gap new h ih => exact .cons (fun e he => (h.bounds e he).1) ih

/-- The edits come in the order in which a splicer sorts them. -/
theorem ordered {n : Nat} {s out : Text} {es : List Edit} (h : Overwrites n s es out) :
    es.mergeSort Edit.le = es := by
  refine List.mergeSort_of_pairwise (h.disjoint.imp_of_mem fun {a b} ha hb hab => ?_)
  have := (h.bounds a ha).2.1
  have := (h.bounds b hb).2.1
  simp only [Edit.le, Bool.or_eq_true, Bool.and_eq_true, decide_eq_true_eq, beq_iff_eq]
  omega

end Overwrites

/-! The splicer. -/

theorem flatMap_unchangedPiece (a m b : Text) :
    (unchangedPiece (a ++ (m ++ b)) (byteSize a) (byteSize a + byteSize m)).flatMap (·.text) =
      m := by
  unfold unchangedPiece
  split
  next => simp [sliceBytes]
  next h =>
    have : m = [] := byteSize_eq_zero.mp (by omega)
    simp [this]

theorem Overwrites.flatMap_pieces {n : Nat} {s out : Text} {es : List Edit}
    (h : Overwrites n s es out) {a : Text} (ha : byteSize a = n) :
    (pieces (a ++ s) n es).flatMap (·.text) = out := by
  induction h generalizing a with
  | done n s =>
    have := flatMap_unchangedPiece a s []
    simpa [pieces, ha] using this
  | @edit n gap old new s out es _ ih =>
    have hgap := flatMap_unchangedPiece a gap (old ++ s)
    have hrest := ih (a := a ++ (gap ++ old)) (by simp [ha])
    simp only [List.append_assoc] at hrest
    rw [pieces, List.flatMap_append, List.flatMap_cons, ← ha, hgap, ha, hrest]

theorem firstOverlap?_eq_none {es : List Edit}
    (h : es.Pairwise fun a b => a.span.stop ≤ b.span.start) : firstOverlap? es = none := by
  fun_induction firstOverlap? es with
  | case1 a b es hab =>
    have := List.rel_of_pairwise_cons h (List.mem_cons_self ..)
    omega
  | case2 a b es hab ih => exact ih h.of_cons
  | case3 => rfl

theorem Splicer.apply_eq {s out : Text} {es : List Edit} (h : Overwrites 0 s es out) :
    ∃ spliced, (⟨s, es⟩ : Splicer).apply = .ok spliced ∧ spliced.code = out := by
  have hpieces := h.flatMap_pieces (a := []) rfl
  simp only [List.nil_append] at hpieces
  simp only [Splicer.apply, Splicer.pieces, Splicer.ordered, h.ordered,
    firstOverlap?_eq_none h.disjoint, Except.map]
  exact ⟨_, rfl, hpieces⟩

theorem Overwrites.unique {s out out' : Text} {es : List Edit} (h : Overwrites 0 s es out)
    (h' : Overwrites 0 s es out') : out = out' := by
  obtain ⟨spliced, hspliced, rfl⟩ := Splicer.apply_eq h
  obtain ⟨spliced', hspliced', rfl⟩ := Splicer.apply_eq h'
  rw [Except.ok.inj (hspliced.symm.trans hspliced')]

/-- The span is that of a part of the text that is not empty. -/
def IsCut (s : Text) (span : Span) : Prop :=
  ∃ a m b, s = a ++ (m ++ b) ∧ m ≠ [] ∧ span = ⟨byteSize a, byteSize (a ++ m)⟩

theorem IsCut.start_lt_stop {s : Text} {span : Span} (h : IsCut s span) :
    span.start < span.stop := by
  obtain ⟨a, m, b, -, hm, rfl⟩ := h
  have := byteSize_pos hm
  simp only [byteSize_append]
  omega

theorem IsCut.replaced {s : Text} {span : Span} (h : IsCut s span) (text : Text) :
    ∃ t, (⟨span, text⟩ : Edit).replaced s = .ok t := by
  have hlt := h.start_lt_stop
  obtain ⟨a, m, b, rfl, hm, rfl⟩ := h
  have hslice : slice? (a ++ (m ++ b)) ⟨byteSize a, byteSize (a ++ m)⟩ = some m :=
    slice?_eq_some_iff.mpr ⟨a, b, rfl, rfl⟩
  refine ⟨m, ?_⟩
  unfold Edit.replaced
  simp only at hlt ⊢
  rw [if_neg (by simp only [byteSize_append]; omega), if_neg (by omega), hslice]

theorem exists_overwrites {a s : Text} {es : List Edit}
    (hcut : ∀ e ∈ es, IsCut (a ++ s) e.span) (hge : ∀ e ∈ es, byteSize a ≤ e.span.start)
    (hdisjoint : es.Pairwise fun x y => x.span.stop ≤ y.span.start) :
    ∃ out, Overwrites (byteSize a) s es out := by
  induction es generalizing a s with
  | nil => exact ⟨s, .done _ s⟩
  | cons e es ih =>
    obtain ⟨⟨start, stop⟩, new⟩ := e
    obtain ⟨b, m, c, hs, hm, hspan⟩ := hcut _ (List.mem_cons_self ..)
    obtain ⟨rfl, rfl⟩ := Span.mk.inj hspan
    obtain ⟨gap, rfl, rfl⟩ := exists_of_append_eq hs (hge _ (List.mem_cons_self ..))
    obtain ⟨hhead, htail⟩ := List.pairwise_cons.mp hdisjoint
    obtain ⟨out, hout⟩ := ih (a := a ++ gap ++ m) (s := c)
      (fun e he => by simpa using hcut e (List.mem_cons_of_mem _ he)) hhead htail
    refine ⟨gap ++ (new ++ out), ?_⟩
    have hrest : Overwrites (byteSize a + byteSize (gap ++ m)) c es out := by
      simpa [Nat.add_assoc] using hout
    simpa [Nat.add_assoc] using hrest.edit gap new

/-- Of ordered edits that are not disjoint two neighbours overlap. -/
theorem exists_firstOverlap? {es : List Edit} (hne : ∀ e ∈ es, e.span.start ≤ e.span.stop)
    (h : ¬ es.Pairwise fun x y => x.span.stop ≤ y.span.start) :
    ∃ x y, [x, y].Sublist es ∧ y.span.start < x.span.stop ∧
      firstOverlap? es = some (x.span, y.span) := by
  fun_induction firstOverlap? es with
  | case1 a b es hab => exact ⟨a, b, by simp, hab, rfl⟩
  | case2 a b es hab ih =>
    have htail : ¬ (b :: es).Pairwise fun x y => x.span.stop ≤ y.span.start := by
      intro htail
      refine h (List.pairwise_cons.mpr ⟨fun e he => ?_, htail⟩)
      rcases List.mem_cons.mp he with rfl | he
      · omega
      · have := List.rel_of_pairwise_cons htail he
        have := hne b (by simp)
        omega
    obtain ⟨x, y, hsub, hlt, hfirst⟩ := ih (fun e he => hne e (List.mem_cons_of_mem _ he)) htail
    exact ⟨x, y, hsub.cons a, hlt, hfirst⟩
  | case3 es hes =>
    obtain _ | ⟨a, _ | ⟨b, es⟩⟩ := es
    · exact absurd .nil h
    · exact absurd (List.pairwise_singleton ..) h
    · exact absurd rfl (hes a b es)

theorem Splicer.ordered_eq {s : Text} {es : List Edit}
    (hordered : es.Pairwise fun x y => x.span.start < y.span.start) :
    (⟨s, es⟩ : Splicer).ordered = es := by
  refine List.mergeSort_of_pairwise (hordered.imp fun {a b} hab => ?_)
  simp only [Edit.le, Bool.or_eq_true, decide_eq_true_eq]
  exact .inl hab

section
variable {s : Text} {es : List Edit} (hcut : ∀ e ∈ es, IsCut s e.span)
  (hordered : es.Pairwise fun x y => x.span.start < y.span.start)
include hcut hordered

/-- Edits that overlap are refused, with the first two that do. -/
theorem Splicer.apply_eq_error (h : ¬ es.Pairwise fun x y => x.span.stop ≤ y.span.start) :
    ∃ x y, [x, y].Sublist es ∧ y.span.start < x.span.stop ∧
      (⟨s, es⟩ : Splicer).apply = .error (.overlap x.span y.span) := by
  obtain ⟨x, y, hsub, hlt, hfirst⟩ :=
    exists_firstOverlap? (fun e he => Nat.le_of_lt (hcut e he).start_lt_stop) h
  refine ⟨x, y, hsub, hlt, ?_⟩
  simp only [Splicer.apply, Splicer.pieces, Splicer.ordered_eq hordered, hfirst, Except.map]

theorem Splicer.overwrites_of_apply {spliced : Spliced}
    (h : (⟨s, es⟩ : Splicer).apply = .ok spliced) : Overwrites 0 s es spliced.code := by
  by_cases hdisjoint : es.Pairwise fun x y => x.span.stop ≤ y.span.start
  · obtain ⟨out, hout⟩ := exists_overwrites (a := []) (by simpa using hcut) (by simp) hdisjoint
    obtain ⟨spliced', happly, rfl⟩ := Splicer.apply_eq hout
    obtain rfl := Except.ok.inj (h.symm.trans happly)
    exact hout
  · obtain ⟨x, y, -, -, herror⟩ := Splicer.apply_eq_error hcut hordered hdisjoint
    cases h.symm.trans herror

end

end MarkupHighlight
