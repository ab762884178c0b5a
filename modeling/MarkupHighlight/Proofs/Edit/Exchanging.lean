import MarkupHighlight.Proofs.Edit.Overwriting

/-!
Edits of a text of which one part, that no edit cuts into, has become another one: the same edits at
their new places give the same text, up to that part if no edit covers it.
-/
namespace MarkupHighlight

/-- Where byte `i` is when the `old` bytes from byte `m` on have become `new` bytes. -/
def movedOffset (m old new i : Nat) : Nat := if m + old ≤ i then i - old + new else i

def Span.moved (m old new : Nat) (s : Span) : Span :=
  ⟨movedOffset m old new s.start, movedOffset m old new s.stop⟩

def Edit.moved (m old new : Nat) (e : Edit) : Edit := { e with span := e.span.moved m old new }

/-- The span takes in all of the `old` bytes from byte `m` on. -/
def Span.Covers (m old : Nat) (s : Span) : Prop := s.start ≤ m ∧ m + old ≤ s.stop

/-- The span takes in all of the `old` bytes from byte `m` on or none of them. -/
def Span.Clear (m old : Nat) (s : Span) : Prop :=
  s.stop ≤ m ∨ m + old ≤ s.start ∨ s.Covers m old

section
variable {m old new : Nat}

theorem movedOffset_of_lt {i : Nat} (h : i < m + old) : movedOffset m old new i = i :=
  if_neg (Nat.not_le.mpr h)

theorem movedOffset_behind (i : Nat) : movedOffset m old new (m + old + i) = m + new + i := by
  unfold movedOffset
  rw [if_pos (Nat.le_add_right _ _)]
  omega

theorem Span.moved_of_lt {s : Span} (hstart : s.start < m + old) (hstop : s.stop < m + old) :
    s.moved m old new = s := by
  rw [moved, movedOffset_of_lt hstart, movedOffset_of_lt hstop]

/-- What ends before the part stays where it is. -/
theorem Span.moved_of_le {s : Span} (h : s.start ≤ s.stop) (hstop : s.stop ≤ m) (hold : 0 < old) :
    s.moved m old new = s :=
  moved_of_lt (by omega) (by omega)

theorem Span.not_covers_of_le {s : Span} (hstop : s.stop ≤ m) (hold : 0 < old) :
    ¬ s.Covers m old := by
  rintro ⟨-, hcovers⟩
  omega

theorem Span.not_covers_of_behind {s : Span} (hstart : m + old ≤ s.start) (hold : 0 < old) :
    ¬ s.Covers m old := by
  rintro ⟨hcovers, -⟩
  omega

theorem Span.moved_behind (s : Span) (i : Nat) :
    (s.shift (m + old + i)).moved m old new = s.shift (m + new + i) := by
  simp only [moved, shift, Nat.add_assoc (m + old), Nat.add_assoc (m + new), movedOffset_behind]

theorem Span.moved_around {i : Nat} (hi : i < m + old) (j : Nat) :
    (⟨i, m + old + j⟩ : Span).moved m old new = ⟨i, m + new + j⟩ := by
  rw [moved, movedOffset_of_lt hi, movedOffset_behind]

theorem Span.moved_shift (s : Span) (i : Nat) :
    (s.shift i).moved (i + m) old new = (s.moved m old new).shift i := by
  unfold moved shift movedOffset
  simp only [Span.mk.injEq]
  constructor
  all_goals
    split
    · rw [if_pos (by omega)]
      omega
    · rw [if_neg (by omega)]

theorem Span.Clear.shift {s : Span} (h : s.Clear m old) (i : Nat) :
    (s.shift i).Clear (i + m) old := by
  unfold Clear Covers at *
  simp only [Span.shift]
  omega

end

/-! Edits at their new places. -/

namespace Overwrites

/-- Edits behind the part that has become another one. -/
theorem moved_behind {n : Nat} {s out : Text} {es : List Edit} (h : Overwrites n s es out)
    {m old i : Nat} (hn : n = m + old + i) (new : Nat) :
    Overwrites (m + new + i) s (es.map (.moved m old new)) out := by
  induction h generalizing i with
  | done => exact .done _ _
  | @edit n gap text instead s out es _ ih =>
    subst hn
    have hrest := ih (i := i + byteSize (gap ++ text)) (by omega)
    rw [← Nat.add_assoc] at hrest
    have hspan : (⟨m + old + i + byteSize gap, m + old + i + byteSize (gap ++ text)⟩ : Span).moved
        m old new = ⟨m + new + i + byteSize gap, m + new + i + byteSize (gap ++ text)⟩ := by
      simp only [Span.moved, Nat.add_assoc (m + old), Nat.add_assoc (m + new), movedOffset_behind]
    rw [List.map_cons, Edit.moved, hspan]
    exact hrest.edit gap instead

/-- No edit starts before the first one. -/
theorem le_start {n : Nat} {s out : Text} {e : Edit} {es : List Edit}
    (h : Overwrites n s (e :: es) out) : ∀ f ∈ e :: es, e.span.start ≤ f.span.start := by
  refine List.forall_mem_cons.mpr ⟨Nat.le_refl _, fun f hf => ?_⟩
  have hle := (h.bounds e (List.mem_cons_self ..)).2.1
  exact Nat.le_trans hle (List.rel_of_pairwise_cons h.disjoint hf)

/-- Edits that all start behind a text leave it as it is. -/
theorem exists_of_skip {n : Nat} {u s out : Text} {es : List Edit}
    (h : Overwrites n (u ++ s) es out) (hge : ∀ e ∈ es, n + byteSize u ≤ e.span.start) :
    ∃ out', Overwrites (n + byteSize u) s es out' ∧ out = u ++ out' := by
  generalize htext : u ++ s = whole at h
  cases h with
  | done => exact ⟨s, .done _ s, htext.symm⟩
  | @edit _ gap text instead r out es hrest =>
    have hle := hge _ (List.mem_cons_self ..)
    obtain ⟨gap, rfl, rfl⟩ := exists_of_append_eq htext (Nat.le_of_add_le_add_left hle)
    have hrest' : Overwrites (n + byteSize u + byteSize (gap ++ text)) r es out := by
      simpa [Nat.add_assoc] using hrest
    exact ⟨_, by simpa [Nat.add_assoc] using hrest'.edit gap instead, List.append_assoc ..⟩

/-- All edits are behind the part. -/
theorem exchange_before {n : Nat} {x k y out : Text} {es : List Edit}
    (h : Overwrites (n + byteSize (x ++ k)) y es out) (k' : Text) :
    Overwrites n (x ++ (k' ++ y)) (es.map (.moved (n + byteSize x) (byteSize k) (byteSize k')))
      (x ++ (k' ++ out)) := by
  have hstart : n + byteSize (x ++ k) = n + byteSize x + byteSize k + 0 := by
    rw [byteSize_append, Nat.add_zero, Nat.add_assoc]
  have hmoved := h.moved_behind hstart (byteSize k')
  rw [Nat.add_zero, Nat.add_assoc, ← byteSize_append] at hmoved
  simpa using hmoved.skip

/-- The first edit covers the part. -/
theorem exchange_inside {n : Nat} {gap u k t s out : Text} {es : List Edit}
    (h : Overwrites (n + byteSize (gap ++ (u ++ k ++ t))) s es out) (hk : k ≠ [])
    (instead k' : Text) :
    Overwrites n (gap ++ u ++ (k' ++ (t ++ s)))
      (List.map (.moved (n + byteSize (gap ++ u)) (byteSize k) (byteSize k'))
        (⟨⟨n + byteSize gap, n + byteSize (gap ++ (u ++ k ++ t))⟩, instead⟩ :: es))
      (gap ++ (instead ++ out)) := by
  have hpos := byteSize_pos hk
  have hstart : n + byteSize (gap ++ (u ++ k ++ t)) =
      n + byteSize (gap ++ u) + byteSize k + byteSize t := by
    simp only [byteSize_append]
    omega
  have hstop : n + byteSize (gap ++ u) + byteSize k' + byteSize t =
      n + byteSize (gap ++ (u ++ k' ++ t)) := by
    simp only [byteSize_append]
    omega
  have hmoved := h.moved_behind hstart (byteSize k')
  rw [hstop] at hmoved
  rw [List.map_cons, Edit.moved, hstart, Span.moved_around, hstop]
  · simpa using hmoved.edit gap instead
  · simp only [byteSize_append]
    omega

variable {x k y : Text}

/-- Either an edit covers the part that becomes another one, or the part stays, between what the
edits make of the texts around it. -/
theorem exchange {n : Nat} {s out : Text} {es : List Edit} (h : Overwrites n s es out)
    (hs : s = x ++ (k ++ y)) (hk : k ≠ [])
    (hclear : ∀ e ∈ es, e.span.Clear (n + byteSize x) (byteSize k)) (k' : Text) :
    ∃ out', Overwrites n (x ++ (k' ++ y))
        (es.map (.moved (n + byteSize x) (byteSize k) (byteSize k'))) out' ∧
      (((∃ e ∈ es, e.span.Covers (n + byteSize x) (byteSize k)) ∧ out' = out) ∨
        (∀ e ∈ es, ¬ e.span.Covers (n + byteSize x) (byteSize k)) ∧
          ∃ es₁ es₂ a b, es = es₁ ++ es₂ ∧ Overwrites n x es₁ a ∧
            Overwrites (n + byteSize (x ++ k)) y es₂ b ∧
            out = a ++ (k ++ b) ∧ out' = a ++ (k' ++ b)) := by
  have hpos := byteSize_pos hk
  induction h generalizing x with
  | done n s =>
    exact ⟨_, .done n _, .inr ⟨nofun, [], [], x, y, rfl, .done n x, .done _ y, hs, rfl⟩⟩
  | @edit n gap text instead s out es hrest ih =>
    obtain ⟨hfirst, hothers⟩ := List.forall_mem_cons.mp hclear
    rcases hfirst with hbefore | hbehind | ⟨hstart, hstop⟩
    · -- the first edit ends before the part
      simp only at hbefore
      rw [← List.append_assoc] at hs
      obtain ⟨x, rfl, rfl⟩ := exists_of_append_eq hs (Nat.le_of_add_le_add_left hbefore)
      have hle : n + byteSize gap ≤ n + byteSize (gap ++ text) := by simp
      rw [List.map_cons, Edit.moved, Span.moved_of_le hle hbefore hpos]
      have hnot := Span.not_covers_of_le (s := ⟨n + byteSize gap, _⟩) hbefore hpos
      rw [byteSize_append _ x, ← Nat.add_assoc] at hothers hnot ⊢
      obtain ⟨out', hout, hcases⟩ := ih rfl hothers
      refine ⟨gap ++ (instead ++ out'), by simpa using hout.edit gap instead, ?_⟩
      rcases hcases with ⟨⟨e, he, hcovers⟩, rfl⟩ | ⟨hnone, es₁, es₂, a, b, rfl, ha, hb, rfl, rfl⟩
      · exact .inl ⟨⟨e, List.mem_cons_of_mem _ he, hcovers⟩, rfl⟩
      · refine .inr ⟨List.forall_mem_cons.mpr ⟨hnot, hnone⟩, _ :: es₁, es₂,
          gap ++ (instead ++ a), b, rfl, by simpa using ha.edit gap instead, ?_, ?_, ?_⟩
        · simpa [Nat.add_assoc] using hb
        · simp
        · simp
    · -- all edits start behind the part, which stays
      have hedits := hrest.edit gap instead
      have hall := fun e he => Nat.le_trans hbehind (hedits.le_start e he)
      rw [hs, ← List.append_assoc x] at hedits
      obtain ⟨out', hlater, hout⟩ := hedits.exists_of_skip (by simpa [Nat.add_assoc] using hall)
      refine ⟨_, hlater.exchange_before k', .inr ⟨fun e he => ?_, [], _, x, out', rfl, .done n x,
        hlater, ?_, rfl⟩⟩
      · exact Span.not_covers_of_behind (hall e he) hpos
      · simpa using hout
    · -- the first edit covers the part
      simp only at hstart hstop
      obtain ⟨x, rfl, htext⟩ := exists_of_append_eq hs (Nat.le_of_add_le_add_left hstart)
      rw [← List.append_assoc] at htext
      have hle : byteSize (x ++ k) ≤ byteSize text := by
        simp only [byteSize_append] at hstop ⊢
        omega
      obtain ⟨t, rfl, rfl⟩ := exists_of_append_eq htext.symm hle
      refine ⟨_, hrest.exchange_inside hk instead k', .inl ⟨⟨_, List.mem_cons_self .., ?_⟩, rfl⟩⟩
      exact ⟨hstart, hstop⟩

end Overwrites

end MarkupHighlight
