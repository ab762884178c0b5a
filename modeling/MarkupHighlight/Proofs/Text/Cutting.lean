import MarkupHighlight.Text.Basic

/-!
Cutting a text where two parts of it meet: at a byte offset, at the end of a run of characters of
one kind, and at the first place where another text occurs.
-/
namespace MarkupHighlight

theorem byteSize_eq_zero {s : Text} : byteSize s = 0 ↔ s = [] := by
  cases s with
  | nil => simp
  | cons c s =>
    have := c.utf8Size_pos
    simp only [byteSize_cons, reduceCtorEq, iff_false]
    omega

theorem byteSize_pos {s : Text} (h : s ≠ []) : 0 < byteSize s :=
  Nat.pos_of_ne_zero fun h0 => h (byteSize_eq_zero.mp h0)

/-! Cuts at byte offsets. -/

theorem takeBytes_zero (s : Text) : takeBytes s 0 = [] := by
  cases s with
  | nil => rfl
  | cons c s =>
    have := c.utf8Size_pos
    rw [takeBytes, if_neg (by omega)]

theorem dropBytes_zero (s : Text) : dropBytes s 0 = s := by
  cases s with
  | nil => rfl
  | cons c s =>
    have := c.utf8Size_pos
    rw [dropBytes, if_neg (by omega)]

/-- A cut behind the first of two parts falls into the second one. -/
theorem takeBytes_append (s t : Text) (n : Nat) :
    takeBytes (s ++ t) (byteSize s + n) = s ++ takeBytes t n := by
  induction s with
  | nil => simp
  | cons c s ih =>
    rw [List.cons_append, byteSize_cons, takeBytes, if_pos (by omega), List.cons_append, ← ih]
    congr 2
    omega

theorem dropBytes_append (s t : Text) (n : Nat) :
    dropBytes (s ++ t) (byteSize s + n) = dropBytes t n := by
  induction s with
  | nil => simp
  | cons c s ih =>
    rw [List.cons_append, byteSize_cons, dropBytes, if_pos (by omega), ← ih]
    congr 1
    omega

@[simp] theorem takeBytes_byteSize (s t : Text) : takeBytes (s ++ t) (byteSize s) = s := by
  simpa [takeBytes_zero] using takeBytes_append s t 0

@[simp] theorem dropBytes_byteSize (s t : Text) : dropBytes (s ++ t) (byteSize s) = t := by
  simpa [dropBytes_zero] using dropBytes_append s t 0

theorem sliceBytes_part (a m b : Text) :
    sliceBytes (a ++ (m ++ b)) (byteSize a) (byteSize (a ++ m)) = m := by
  rw [sliceBytes, dropBytes_byteSize, byteSize_append, Nat.add_sub_cancel_left, takeBytes_byteSize]

theorem splitAt?_append (s t : Text) : splitAt? (s ++ t) (byteSize s) = some (s, t) := by
  induction s with
  | nil => cases t <;> simp [splitAt?]
  | cons c s ih =>
    obtain ⟨n, hn⟩ := Nat.exists_eq_succ_of_ne_zero (Nat.ne_of_gt c.utf8Size_pos)
    have hle : c.utf8Size ≤ n + byteSize s + 1 := by omega
    have hsub : n + byteSize s + 1 - c.utf8Size = byteSize s := by omega
    rw [List.cons_append, byteSize_cons, show c.utf8Size + byteSize s = n + byteSize s + 1 by omega,
      splitAt?, if_pos hle, hsub, ih]
    rfl

theorem isBoundary_iff {s : Text} {n : Nat} :
    isBoundary s n = true ↔ ∃ a b, s = a ++ b ∧ byteSize a = n := by
  unfold isBoundary
  rw [Option.isSome_iff_exists]
  constructor
  · rintro ⟨⟨a, b⟩, h⟩
    exact ⟨a, b, splitAt?_eq_some h⟩
  · rintro ⟨a, b, rfl, rfl⟩
    exact ⟨(a, b), splitAt?_append a b⟩

theorem isBoundary_zero (s : Text) : isBoundary s 0 = true :=
  isBoundary_iff.mpr ⟨[], s, rfl, rfl⟩

theorem isBoundary_byteSize (s : Text) : isBoundary s (byteSize s) = true :=
  isBoundary_iff.mpr ⟨s, [], (List.append_nil s).symm, rfl⟩

theorem le_byteSize_of_isBoundary {s : Text} {n : Nat} (h : isBoundary s n = true) :
    n ≤ byteSize s := by
  obtain ⟨a, b, rfl, rfl⟩ := isBoundary_iff.mp h
  rw [byteSize_append]
  exact Nat.le_add_right _ _

theorem slice?_eq_some_iff {s m : Text} {span : Span} :
    slice? s span = some m ↔
      ∃ a b, s = a ++ (m ++ b) ∧ span = ⟨byteSize a, byteSize (a ++ m)⟩ := by
  constructor
  · intro h
    obtain ⟨start, stop⟩ := span
    simp only [slice?, Option.bind_eq_bind, Option.bind_eq_some_iff] at h
    obtain ⟨⟨a, r⟩, ha, h⟩ := h
    obtain ⟨rfl, rfl⟩ := splitAt?_eq_some ha
    by_cases hle : byteSize a ≤ stop
    · rw [if_pos hle, Option.bind_eq_some_iff] at h
      obtain ⟨⟨m', b⟩, hm, h⟩ := h
      obtain ⟨rfl, hs⟩ := splitAt?_eq_some hm
      obtain rfl : m' = m := by simpa using h
      refine ⟨a, b, rfl, ?_⟩
      rw [byteSize_append, hs, Nat.add_sub_cancel' hle]
    · simp [hle] at h
  · rintro ⟨a, b, rfl, rfl⟩
    simp only [slice?, splitAt?_append, byteSize_append, Option.bind_eq_bind, Option.bind_some,
      if_pos (Nat.le_add_right _ _), Nat.add_sub_cancel_left]

/-- Of two cuts of one text the earlier one is a cut of the later one's first part. -/
theorem exists_of_append_eq {a b c d : Text} (h : a ++ b = c ++ d)
    (hle : byteSize a ≤ byteSize c) : ∃ e, c = a ++ e ∧ b = e ++ d := by
  rcases List.append_eq_append_iff.mp h with ⟨e, rfl, rfl⟩ | ⟨e, rfl, rfl⟩
  · exact ⟨e, rfl, rfl⟩
  · rw [byteSize_append] at hle
    obtain rfl : e = [] := byteSize_eq_zero.mp (by omega)
    exact ⟨[], by simp, rfl⟩

/-! Cuts at the end of a run and at a first occurrence. -/

theorem cut_run {p : Char → Bool} {s r : Text} {d : Char} (h : s.dropWhile p = d :: r) :
    ∃ w, s = w ++ d :: r ∧ (∀ c ∈ w, p c = true) ∧ p d = false ∧ s.takeWhile p = w := by
  have hd : p d = false := by
    have := List.head?_dropWhile_not p s
    simpa [h] using this
  have hw : ∀ c ∈ s.takeWhile p, p c = true :=
    List.all_eq_true.mp List.all_takeWhile
  refine ⟨s.takeWhile p, ?_, hw, hd, rfl⟩
  rw [← h, List.takeWhile_append_dropWhile]

theorem dropWhile_run {p : Char → Bool} {w : Text} {d : Char} (hw : ∀ c ∈ w, p c = true)
    (hd : p d = false) (t : Text) : (w ++ d :: t).dropWhile p = d :: t := by
  rw [List.dropWhile_append_of_pos hw]
  simp [hd]

theorem takeWhile_run {p : Char → Bool} {w : Text} {d : Char} (hw : ∀ c ∈ w, p c = true)
    (hd : p d = false) (t : Text) : (w ++ d :: t).takeWhile p = w := by
  rw [List.takeWhile_append_of_pos hw]
  simp [hd]

/-- Every text has a longest run at its front. -/
theorem exists_run (p : Char → Bool) (s : Text) :
    ∃ w r, s = w ++ r ∧ s.takeWhile p = w ∧ s.dropWhile p = r ∧ (∀ c ∈ w, p c = true) ∧
      ∀ d ∈ r.head?, p d = false := by
  refine ⟨s.takeWhile p, s.dropWhile p, List.takeWhile_append_dropWhile.symm, rfl, rfl,
    List.all_eq_true.mp List.all_takeWhile, ?_⟩
  intro d hd
  have := List.head?_dropWhile_not p s
  rw [Option.mem_def.mp hd] at this
  simpa using this

@[simp] theorem afterLead?_append (lead s : Text) : afterLead? lead (lead ++ s) = some s :=
  afterLead?_eq_some_iff.mpr rfl

theorem splitOnFirst?_local {needle s p r : Text} (h : splitOnFirst? needle s = some (p, r)) :
    s = p ++ needle ++ r ∧
      ∀ t, splitOnFirst? needle (p ++ needle ++ t) = some (p, t) := by
  induction s generalizing p with
  | nil =>
    simp only [splitOnFirst?, Option.map_eq_some_iff, Prod.mk.injEq] at h
    obtain ⟨x, hx, rfl, rfl⟩ := h
    have hnil := afterLead?_eq_some_iff.mp hx
    obtain ⟨rfl, rfl⟩ := List.append_eq_nil_iff.mp hnil.symm
    refine ⟨rfl, fun t => ?_⟩
    cases t <;> simp [splitOnFirst?, afterLead?]
  | cons c s ih =>
    unfold splitOnFirst? at h
    split at h
    next x hx =>
      obtain ⟨rfl, rfl⟩ : p = [] ∧ x = r := by simpa [eq_comm] using h
      refine ⟨by simpa using afterLead?_eq_some_iff.mp hx, fun t => ?_⟩
      cases needle with
      | nil => cases t <;> simp [splitOnFirst?, afterLead?]
      | cons a needle =>
        rw [List.nil_append, List.cons_append, splitOnFirst?, ← List.cons_append, afterLead?_append]
    next hx =>
      obtain ⟨⟨p', r'⟩, hs, he⟩ := Option.map_eq_some_iff.mp h
      obtain ⟨rfl, rfl⟩ := Prod.mk.inj he
      obtain ⟨rfl, hl⟩ := ih hs
      refine ⟨by simp, fun t => ?_⟩
      -- an occurrence at the front would lie inside `c :: p' ++ needle`
      have hnot : afterLead? needle (c :: (p' ++ needle ++ t)) = none := by
        rw [Option.eq_none_iff_forall_ne_some]
        intro x hx'
        have hfront : c :: p' ++ needle ++ t = needle ++ x := by
          simpa using afterLead?_eq_some_iff.mp hx'
        have hle : byteSize needle ≤ byteSize (c :: p' ++ needle) := by
          simp only [byteSize_append]
          omega
        obtain ⟨e, he, -⟩ := exists_of_append_eq hfront.symm hle
        have : afterLead? needle (c :: (p' ++ needle ++ r')) = some (e ++ r') := by
          rw [afterLead?_eq_some_iff, ← List.append_assoc, ← he]
          simp
        rw [this] at hx
        cases hx
      have := hl t
      simp only [List.cons_append, splitOnFirst?, hnot, this, Option.map_some]

theorem splitOnFirst?_eq_none_iff {needle s : Text} :
    splitOnFirst? needle s = none ↔ ¬ needle <:+: s := by
  induction s with
  | nil =>
    rw [splitOnFirst?, Option.map_eq_none_iff, Option.eq_none_iff_forall_ne_some]
    simp [afterLead?_eq_some_iff]
  | cons c s ih =>
    rw [splitOnFirst?, List.infix_cons_iff]
    cases hlead : afterLead? needle (c :: s) with
    | some r =>
      have hfront : needle <+: c :: s := ⟨r, (afterLead?_eq_some_iff.mp hlead).symm⟩
      simp [hfront]
    | none =>
      have hfront : ¬ needle <+: c :: s := by
        rintro ⟨r, hr⟩
        cases hlead.symm.trans (afterLead?_eq_some_iff.mpr hr.symm)
      simp [hfront, ih]

/-- If the first character of a text does not come again in it, no two of its occurrences overlap:
the first one is the one in front of which there is none. -/
theorem splitOnFirst?_of_head {a : Char} {m p : Text} (ha : a ∉ m) (hp : ¬ a :: m <:+: p)
    (r : Text) : splitOnFirst? (a :: m) (p ++ (a :: m ++ r)) = some (p, r) := by
  induction p with
  | nil => rw [List.nil_append, List.cons_append, splitOnFirst?, ← List.cons_append,
      afterLead?_append]
  | cons c p ih =>
    have hlead : afterLead? (a :: m) (c :: (p ++ (a :: m ++ r))) = none := by
      rw [Option.eq_none_iff_forall_ne_some]
      intro x hx
      have hfront : c :: p ++ (a :: m ++ r) = a :: m ++ x := afterLead?_eq_some_iff.mp hx
      rcases List.append_eq_append_iff.mp hfront with ⟨e, he, htail⟩ | ⟨e, he, -⟩
      · cases e with
        | nil =>
          rw [List.append_nil] at he
          exact hp (he ▸ List.infix_rfl)
        | cons d e =>
          obtain ⟨rfl, -⟩ := List.cons.inj htail
          obtain ⟨-, rfl⟩ := List.cons.inj he
          exact ha (by simp)
      · exact hp ⟨[], e, by rw [he, List.nil_append]⟩
    have hrest := ih fun h => hp (h.trans (List.suffix_cons c p).isInfix)
    rw [List.cons_append, splitOnFirst?, hlead, hrest]
    rfl

/-- There is no occurrence in front of the first one. -/
theorem not_infix_of_splitOnFirst? {needle s p r : Text} (hne : needle ≠ [])
    (h : splitOnFirst? needle s = some (p, r)) : ¬ needle <:+: p := by
  induction s generalizing p with
  | nil =>
    obtain ⟨x, -, hx⟩ := Option.map_eq_some_iff.mp h
    obtain ⟨rfl, -⟩ := Prod.mk.inj hx
    simpa using hne
  | cons c s ih =>
    rw [splitOnFirst?] at h
    split at h
    next x hx =>
      obtain ⟨rfl, -⟩ := Prod.mk.inj (Option.some.inj h)
      simpa using hne
    next hnone =>
      obtain ⟨⟨p', r'⟩, hs, he⟩ := Option.map_eq_some_iff.mp h
      obtain ⟨rfl, rfl⟩ := Prod.mk.inj he
      obtain ⟨hcut, -⟩ := splitOnFirst?_local hs
      rw [List.infix_cons_iff, not_or]
      refine ⟨?_, ih hs⟩
      rintro ⟨e, he⟩
      have hfront : c :: s = needle ++ (e ++ needle ++ r') := by
        rw [hcut]
        simp only [← List.append_assoc, he, List.cons_append]
      cases hnone.symm.trans (afterLead?_eq_some_iff.mpr hfront)

end MarkupHighlight
