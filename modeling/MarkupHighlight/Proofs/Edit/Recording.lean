import MarkupHighlight.Proofs.Edit.Pieces
import Mathlib.Algebra.GroupWithZero.Nat
import Mathlib.Data.List.Perm.Subperm

/-!
Any run of calls on a splicer. It records the edits whose ranges are ranges of the source, and no
others; what it makes of them depends on the edits alone, not on the order in which they came
(`Splicer.apply_recorded`).
-/
namespace MarkupHighlight

/-! Which ranges are taken. -/

/-- The range is one of the source: it is not empty, and both ends are at characters. -/
def Edit.Fits (source : Text) (e : Edit) : Prop :=
  e.span.start < e.span.stop ∧ e.span.stop ≤ byteSize source ∧
    isBoundary source e.span.start = true ∧ isBoundary source e.span.stop = true

instance (source : Text) : DecidablePred (Edit.Fits source) :=
  fun _ => inferInstanceAs (Decidable (_ ∧ _ ∧ _ ∧ _))

theorem Edit.fits_iff {s : Text} {e : Edit} : e.Fits s ↔ IsCut s e.span := by
  constructor
  · rintro ⟨hlt, -, hstart, hstop⟩
    obtain ⟨a, r, hs, ha⟩ := isBoundary_iff.mp hstart
    obtain ⟨c, b, hs', hc⟩ := isBoundary_iff.mp hstop
    obtain ⟨m, rfl, rfl⟩ := exists_of_append_eq (hs.symm.trans hs') (by omega)
    refine ⟨a, m, b, hs, ?_, ?_⟩
    · rintro rfl
      rw [List.append_nil] at hc
      omega
    · rw [ha, hc]
  · intro h
    have hlt := h.start_lt_stop
    obtain ⟨a, m, b, rfl, hm, hspan⟩ := h
    rw [hspan] at hlt
    unfold Edit.Fits
    rw [hspan]
    refine ⟨hlt, ?_, ?_, ?_⟩
    · simp only [byteSize_append]
      omega
    · exact isBoundary_iff.mpr ⟨a, m ++ b, rfl, rfl⟩
    · exact isBoundary_iff.mpr ⟨a ++ m, b, by simp, rfl⟩

theorem Edit.exists_replaced_iff {s : Text} {e : Edit} :
    (∃ t, e.replaced s = .ok t) ↔ e.Fits s := by
  rw [Edit.fits_iff]
  constructor
  · rintro ⟨t, h⟩
    exact isCut_of_replaced h
  · intro h
    exact h.replaced e.text

/-! Calls. -/

/-- A splicer of the source after some calls. -/
def Splicer.recorded (source : Text) (calls : List Edit) : Splicer :=
  calls.foldl (fun s e => (s.call e).2) ⟨source, []⟩

theorem Splicer.call_of_fits {s : Splicer} {e : Edit} (h : e.Fits s.source) :
    s.call e = (.ok (), ⟨s.source, s.edits ++ [e]⟩) := by
  obtain ⟨t, ht⟩ := Edit.exists_replaced_iff.mpr h
  rw [call_eq, ht]

/-- An edit that is refused leaves the splicer as it was. -/
theorem Splicer.call_of_not_fits {s : Splicer} {e : Edit} (h : ¬ e.Fits s.source) :
    ∃ err, s.call e = (.error err, s) := by
  cases hreplaced : e.replaced s.source with
  | ok t => exact absurd (Edit.exists_replaced_iff.mp ⟨t, hreplaced⟩) h
  | error err =>
    exact ⟨err, by rw [call_eq, hreplaced]⟩

theorem Splicer.recorded_eq (source : Text) (calls : List Edit) :
    recorded source calls = ⟨source, calls.filter fun e => e.Fits source⟩ := by
  -- the calls that are still to come find the edits of the calls before them
  have hrun (kept : List Edit) :
      calls.foldl (fun s e => (s.call e).2) ⟨source, kept⟩ =
        (⟨source, kept ++ calls.filter fun e => e.Fits source⟩ : Splicer) := by
    induction calls generalizing kept with
    | nil => simp
    | cons e calls ih =>
      rw [List.foldl_cons]
      by_cases h : e.Fits source
      · rw [call_of_fits (s := ⟨source, kept⟩) h, ih]
        simp [h]
      · obtain ⟨err, hcall⟩ := call_of_not_fits (s := ⟨source, kept⟩) h
        rw [hcall, ih]
        simp [h]
  exact hrun []

/-! The order of the edits. -/

/-- Sorted, the same edits have the same ranges; where ranges are equal, their texts may still come
in the order in which they were recorded. -/
theorem map_span_mergeSort {es es' : List Edit} (h : es'.Perm es) :
    (es'.mergeSort Edit.le).map (·.span) = (es.mergeSort Edit.le).map (·.span) := by
  have hsorted (es : List Edit) : ((es.mergeSort Edit.le).map (·.span)).Pairwise
      fun a b => a.start < b.start ∨ a.start = b.start ∧ a.stop ≤ b.stop := by
    rw [List.pairwise_map]
    refine (pairwise_le_ordered es).imp fun {a b} hab => ?_
    simpa only [Edit.le, Bool.or_eq_true, Bool.and_eq_true, decide_eq_true_eq, beq_iff_eq] using hab
  have hperm : (es'.mergeSort Edit.le).Perm (es.mergeSort Edit.le) :=
    ((List.mergeSort_perm es' Edit.le).trans h).trans (List.mergeSort_perm es Edit.le).symm
  apply List.Perm.eq_of_pairwise _ (hsorted es') (hsorted es) (hperm.map _)
  rintro ⟨start, stop⟩ ⟨start', stop'⟩ - - hle hge
  simp only [Span.mk.injEq] at hle hge ⊢
  omega

theorem firstOverlap?_of_map_span {es es' : List Edit}
    (h : es'.map (·.span) = es.map (·.span)) : firstOverlap? es' = firstOverlap? es := by
  induction es generalizing es' with
  | nil => rw [List.map_eq_nil_iff.mp h]
  | cons a es ih =>
    obtain ⟨a', tail, rfl, ha, htail⟩ := List.map_eq_cons_iff.mp h
    cases es with
    | nil =>
      rw [List.map_eq_nil_iff.mp htail]
      rfl
    | cons b es =>
      obtain ⟨b', tail, rfl, hb, -⟩ := List.map_eq_cons_iff.mp htail
      rw [firstOverlap?, firstOverlap?, ha, hb, ih htail]

/-- Edits that come one behind the other have but one order. -/
theorem mergeSort_eq_of_disjoint {es es' : List Edit}
    (hne : ∀ e ∈ es, e.span.start < e.span.stop) (h : es'.Perm es)
    (hdisjoint : (es.mergeSort Edit.le).Pairwise fun a b => a.span.stop ≤ b.span.start)
    (hdisjoint' : (es'.mergeSort Edit.le).Pairwise fun a b => a.span.stop ≤ b.span.start) :
    es'.mergeSort Edit.le = es.mergeSort Edit.le := by
  have hperm : (es'.mergeSort Edit.le).Perm (es.mergeSort Edit.le) :=
    ((List.mergeSort_perm es' Edit.le).trans h).trans (List.mergeSort_perm es Edit.le).symm
  apply List.Perm.eq_of_pairwise _ hdisjoint' hdisjoint hperm
  intro a b ha hb hab hba
  have := hne a (h.subset ((List.mergeSort_perm es' Edit.le).subset ha))
  have := hne b ((List.mergeSort_perm es Edit.le).subset hb)
  omega

/-- Where no neighbours overlap, sorted edits come one behind the other. -/
theorem disjoint_of_firstOverlap? {es : List Edit}
    (hne : ∀ e ∈ es, e.span.start < e.span.stop)
    (h : firstOverlap? (es.mergeSort Edit.le) = none) :
    (es.mergeSort Edit.le).Pairwise fun a b => a.span.stop ≤ b.span.start := by
  by_cases hdisjoint : (es.mergeSort Edit.le).Pairwise fun a b => a.span.stop ≤ b.span.start
  · exact hdisjoint
  · have hle : ∀ e ∈ es.mergeSort Edit.le, e.span.start ≤ e.span.stop := fun e he =>
      Nat.le_of_lt (hne e ((List.mergeSort_perm es Edit.le).subset he))
    obtain ⟨x, y, -, -, hsome⟩ := exists_firstOverlap? hle hdisjoint
    cases h.symm.trans hsome

/-- What two splicers make of the same edits. -/
theorem Splicer.apply_perm {source : Text} {es es' : List Edit}
    (hne : ∀ e ∈ es, e.span.start < e.span.stop) (h : es'.Perm es) :
    (⟨source, es'⟩ : Splicer).apply = (⟨source, es⟩ : Splicer).apply := by
  have hfirst := firstOverlap?_of_map_span (map_span_mergeSort h)
  simp only [apply, pieces, ordered, hfirst]
  cases hoverlap : firstOverlap? (es.mergeSort Edit.le) with
  | some spans => rfl
  | none =>
    have hne' : ∀ e ∈ es', e.span.start < e.span.stop := fun e he => hne e (h.subset he)
    rw [mergeSort_eq_of_disjoint hne h (disjoint_of_firstOverlap? hne hoverlap)
      (disjoint_of_firstOverlap? hne' (hfirst.trans hoverlap))]

/-! Applying with every check: the ranges are looked at once more, and the room for the result is
reckoned in numbers that may not go below zero. -/

/-- The difference, unless it lies below zero. -/
def sub? (a b : Nat) : Option Nat := if b ≤ a then some (a - b) else none

/-- The room for the result: the size of the source, less what is replaced, and then what comes in
its place. -/
def Splicer.capacity? (s : Splicer) : Option Nat := do
  let replaced ← s.ordered.mapM fun e => sub? e.span.stop e.span.start
  let kept ← sub? (byteSize s.source) replaced.sum
  return kept + (s.ordered.map fun e => byteSize e.text).sum

/-- `apply` with these checks; `none` where a difference lies below zero. -/
def Splicer.applyChecked (s : Splicer) : Option (Except EditError Spliced) :=
  match s.ordered.mapM (Edit.replaced s.source) with
  | .error err => some (.error err)
  | .ok _ =>
      match s.apply with
      | .error err => some (.error err)
      | .ok spliced => s.capacity?.map fun _ => .ok spliced

theorem exists_mapM_replaced {source : Text} {es : List Edit} (h : ∀ e ∈ es, e.Fits source) :
    ∃ ts, es.mapM (Edit.replaced source) = .ok ts := by
  induction es with
  | nil => exact ⟨[], rfl⟩
  | cons e es ih =>
    obtain ⟨he, hes⟩ := List.forall_mem_cons.mp h
    obtain ⟨t, ht⟩ := Edit.exists_replaced_iff.mpr he
    obtain ⟨ts, hts⟩ := ih hes
    refine ⟨t :: ts, ?_⟩
    rw [List.mapM_cons, ht, hts]
    rfl

theorem mapM_sub? {es : List Edit} (h : ∀ e ∈ es, e.span.start < e.span.stop) :
    (es.mapM fun e => sub? e.span.stop e.span.start) =
      some (es.map fun e => e.span.stop - e.span.start) := by
  induction es with
  | nil => rfl
  | cons e es ih =>
    obtain ⟨he, hes⟩ := List.forall_mem_cons.mp h
    rw [List.mapM_cons, sub?, if_pos (Nat.le_of_lt he), ih hes]
    rfl

theorem Overwrites.byteSize_eq {n : Nat} {s out : Text} {es : List Edit}
    (h : Overwrites n s es out) :
    byteSize out + (es.map fun e => e.span.stop - e.span.start).sum =
      byteSize s + (es.map fun e => byteSize e.text).sum := by
  induction h with
  | done => simp
  | @edit n gap old new s out es _ ih =>
    simp only [byteSize_append, List.map_cons, List.sum_cons] at ih ⊢
    omega

theorem Overwrites.sum_le {n : Nat} {s out : Text} {es : List Edit} (h : Overwrites n s es out) :
    (es.map fun e => e.span.stop - e.span.start).sum ≤ byteSize s := by
  induction h with
  | done => simp
  | @edit n gap old new s out es _ ih =>
    simp only [byteSize_append, List.map_cons, List.sum_cons]
    omega

section
variable {s : Splicer} (hfits : ∀ e ∈ s.edits, e.Fits s.source)
include hfits

/-- Edits that lie apart overwrite the source. -/
theorem Splicer.exists_apply (hapart : s.edits.Pairwise Edit.Apart) :
    ∃ spliced, s.apply = .ok spliced ∧ Overwrites 0 s.source s.ordered spliced.code := by
  have hreplaced : ∀ e ∈ s.edits, ∃ t, e.replaced s.source = .ok t := fun e he =>
    Edit.exists_replaced_iff.mpr (hfits e he)
  obtain ⟨out, hout⟩ := Splicer.exists_overwrites_ordered hreplaced hapart
  obtain ⟨spliced, happly, rfl⟩ := Splicer.apply_eq hout
  refine ⟨spliced, ?_, hout⟩
  rw [← happly]
  exact (Splicer.apply_perm (fun e he => (hfits e he).1) s.ordered_perm).symm

/-- Of other edits two that share a byte are named. -/
theorem Splicer.exists_overlap (hapart : ¬ s.edits.Pairwise Edit.Apart) :
    ∃ a b, [a, b].Subperm s.edits ∧
      (a.span.start ≤ b.span.start ∧ b.span.start < a.span.stop ∧ b.span.start < b.span.stop) ∧
      s.apply = .error (.overlap a.span b.span) := by
  have hne : ∀ e ∈ s.ordered, e.span.start < e.span.stop := fun e he =>
    (hfits e (s.ordered_perm.subset he)).1
  have hdisjoint : ¬ s.ordered.Pairwise fun a b => a.span.stop ≤ b.span.start := by
    intro hdisjoint
    apply hapart
    apply (s.ordered_perm.pairwise_iff Edit.Apart.symm).mp
    exact hdisjoint.imp Or.inl
  obtain ⟨a, b, hsub, hlt, hfirst⟩ :=
    exists_firstOverlap? (fun e he => Nat.le_of_lt (hne e he)) hdisjoint
  refine ⟨a, b, hsub.subperm.trans s.ordered_perm.subperm, ⟨?_, hlt, ?_⟩, ?_⟩
  · have hle := List.rel_of_pairwise_cons ((pairwise_le_ordered s.edits).sublist hsub)
      (List.mem_singleton_self b)
    simp only [Edit.le, Bool.or_eq_true, Bool.and_eq_true, decide_eq_true_eq, beq_iff_eq] at hle
    omega
  · exact hne b (hsub.subset (by simp))
  · rw [apply, Splicer.pieces, hfirst]
    rfl

/-- The room is what the result takes. -/
theorem Splicer.capacity?_eq {out : Text} (h : Overwrites 0 s.source s.ordered out) :
    s.capacity? = some (byteSize out) := by
  have hsizes := mapM_sub? fun e he => (hfits e (s.ordered_perm.subset he)).1
  have hsize := h.byteSize_eq
  have hle := h.sum_le
  rw [capacity?, hsizes, Option.bind_eq_bind, Option.bind_some, sub?, if_pos hle]
  simp only [Option.bind_eq_bind, Option.bind_some, Option.pure_def, Option.some.injEq]
  omega

/-- No check fails on the edits of a splicer. -/
theorem Splicer.applyChecked_eq : s.applyChecked = some s.apply := by
  obtain ⟨ts, hts⟩ := exists_mapM_replaced fun e he => hfits e (s.ordered_perm.subset he)
  unfold applyChecked
  rw [hts]
  by_cases hapart : s.edits.Pairwise Edit.Apart
  · obtain ⟨spliced, happly, hout⟩ := Splicer.exists_apply hfits hapart
    simp only [happly, Splicer.capacity?_eq hfits hout, Option.map_some]
  · obtain ⟨a, b, -, -, happly⟩ := Splicer.exists_overlap hfits hapart
    simp only [happly]

/-- What comes of the edits, by whether they lie apart. -/
theorem Splicer.apply_cases :
    (s.edits.Pairwise Edit.Apart ∧
        ∃ es spliced, es.Perm s.edits ∧ s.apply = .ok spliced ∧
          Overwrites 0 s.source es spliced.code ∧ s.capacity? = some (byteSize spliced.code)) ∨
      ¬ s.edits.Pairwise Edit.Apart ∧
        ∃ a b n, [a, b].Subperm s.edits ∧ s.apply = .error (.overlap a.span b.span) ∧
          (a.span.start ≤ n ∧ n < a.span.stop) ∧ b.span.start ≤ n ∧ n < b.span.stop := by
  by_cases hapart : s.edits.Pairwise Edit.Apart
  · left
    obtain ⟨spliced, happly, hout⟩ := Splicer.exists_apply hfits hapart
    have hcapacity := Splicer.capacity?_eq hfits hout
    exact ⟨hapart, s.ordered, spliced, s.ordered_perm, happly, hout, hcapacity⟩
  · right
    obtain ⟨a, b, hsub, ⟨hle, hlt, hne⟩, happly⟩ := Splicer.exists_overlap hfits hapart
    exact ⟨hapart, a, b, b.span.start, hsub, happly, ⟨hle, hlt⟩, Nat.le_refl _, hne⟩

/-- Another order of the same calls. -/
theorem Splicer.recorded_perm {es : List Edit} (h : es.Perm s.edits) :
    recorded s.source es = ⟨s.source, es⟩ ∧ (recorded s.source es).apply = s.apply := by
  have hfits' : ∀ e ∈ es, e.Fits s.source := fun e he => hfits e (h.subset he)
  have hrecorded : recorded s.source es = ⟨s.source, es⟩ := by
    rw [recorded_eq, List.filter_eq_self.mpr (by simpa using hfits')]
  refine ⟨hrecorded, ?_⟩
  rw [hrecorded]
  exact Splicer.apply_perm (fun e he => (hfits e he).1) h

end

/-- Whatever calls a splicer has had: it takes an edit exactly if its range is one of the source,
and keeps the edits it had if not; the edits it holds are those it took, in order. None of them
fails a check when they are applied. If they lie apart, each of their ranges gives way to its text,
and if not, two that share a byte are named; and another order of the calls that it took makes no
difference. -/
theorem Splicer.apply_recorded (source : Text) (calls : List Edit) :
    let s := Splicer.recorded source calls
    (∀ e, e.Fits source ∧ s.call e = (.ok (), ⟨source, s.edits ++ [e]⟩) ∨
      ¬ e.Fits source ∧ ∃ err, s.call e = (.error err, s)) ∧
    s.source = source ∧ s.edits = calls.filter (fun e => e.Fits source) ∧
    s.applyChecked = some s.apply ∧
    (s.edits.Pairwise Edit.Apart ∧
        (∃ es spliced, es.Perm s.edits ∧ s.apply = .ok spliced ∧
          Overwrites 0 source es spliced.code ∧ s.capacity? = some (byteSize spliced.code)) ∨
      ¬ s.edits.Pairwise Edit.Apart ∧
        ∃ a b n, [a, b].Subperm s.edits ∧ s.apply = .error (.overlap a.span b.span) ∧
          (a.span.start ≤ n ∧ n < a.span.stop) ∧ b.span.start ≤ n ∧ n < b.span.stop) ∧
    ∀ es, es.Perm s.edits →
      (Splicer.recorded source es).edits = es ∧ (Splicer.recorded source es).apply = s.apply := by
  intro s
  have hs : s = ⟨source, calls.filter fun e => e.Fits source⟩ := Splicer.recorded_eq source calls
  have hsource : s.source = source := by rw [hs]
  have hedits : s.edits = calls.filter fun e => e.Fits source := by rw [hs]
  have hfits : ∀ e ∈ s.edits, e.Fits s.source := by
    intro e he
    rw [hedits, List.mem_filter, decide_eq_true_eq] at he
    rw [hsource]
    exact he.2
  refine ⟨?_, hsource, hedits, Splicer.applyChecked_eq hfits, ?_, ?_⟩
  · intro e
    rw [← hsource]
    by_cases h : e.Fits s.source
    · exact .inl ⟨h, Splicer.call_of_fits h⟩
    · exact .inr ⟨h, Splicer.call_of_not_fits h⟩
  · rw [← hsource]
    exact Splicer.apply_cases hfits
  · intro es hperm
    rw [← hsource]
    obtain ⟨hrecorded, happly⟩ := Splicer.recorded_perm hfits hperm
    exact ⟨by rw [hrecorded], happly⟩

end MarkupHighlight
