import MarkupHighlight.Markup.Error
import MarkupHighlight.Proofs.Text.Cutting
import Mathlib.Data.Nat.Init

/-!
Reading a text at byte offsets. A run looks at one byte at a time, moves by counts of bytes and
cuts the text at offsets it has counted. Whatever could go wrong in that is a fault and ends the
run. `Tail s i t` says that `t` is what follows byte `i` of `s`; there every look and every cut
gives what `t` tells (`Tail.peek_eq_some_iff`, `Tail.cut`), and a scan that treats all bytes of
larger characters alike gets past such a character (`Tail.pass`).
-/
namespace MarkupHighlight.Bytewise

/-- What a run must never do. -/
inductive Fault
  /-- A cut with its ends in the wrong order, behind the end of the text or inside a character. -/
  | slice
  /-- A look behind the end of the text, where there has to be a byte. -/
  | index
  /-- A difference below zero. -/
  | difference
  /-- A pop off an empty stack. -/
  | pop
  /-- A step of a loop that takes no byte. -/
  | standstill
  deriving DecidableEq, Repr

/-- Why a run ends without a result. -/
inductive Stop
  | fault (f : Fault)
  | refused (e : Markup.Error)
  deriving DecidableEq, Repr

abbrev Run := Except Stop

/-- The bytes of the UTF-8 form. -/
def utf8 (s : Text) : List UInt8 := s.flatMap String.utf8EncodeChar

/-- Byte `i`, if there is one, as the character of its number. -/
def peek (s : Text) (i : Nat) : Option Char := (utf8 s)[i]?.map fun b => .ofNat b.toNat

/-- Byte `i`, which must be there. -/
def byteAt (s : Text) (i : Nat) : Run Char :=
  match peek s i with
  | some b => .ok b
  | none => .error (.fault .index)

/-- The text between two offsets. -/
def cut (s : Text) (start stop : Nat) : Run Text :=
  match slice? s ⟨start, stop⟩ with
  | some t => .ok t
  | none => .error (.fault .slice)

def minus (m n : Nat) : Run Nat := if n ≤ m then .ok (m - n) else .error (.fault .difference)

/-- The offset `j` for the next step of a loop that is at offset `i`. -/
def onward (s : Text) (i j : Nat) : Run { k : Nat // i < k ∧ k ≤ byteSize s } :=
  if h : i < j ∧ j ≤ byteSize s then .ok ⟨j, h⟩ else .error (.fault .standstill)

/-- The bytes from `i` on are the given ones. -/
def startsWith (s : Text) (i : Nat) : Text → Bool
  | [] => true
  | a :: lead => peek s i == some a && startsWith s (i + 1) lead

/-- The text from `i` on starts with the given bytes. Offset `i` must not lie behind the end. -/
def startsAt (s : Text) (i : Nat) (lead : Text) : Run Bool :=
  if i ≤ byteSize s then .ok (startsWith s i lead) else .error (.fault .index)

@[simp] theorem ok_bind {α β : Type} (a : α) (f : α → Run β) : (Except.ok a >>= f) = f a := rfl

@[simp] theorem pure_eq_ok {α : Type} (a : α) : (pure a : Run α) = .ok a := rfl

theorem onward_eq {s : Text} {i j : Nat} (h : i < j ∧ j ≤ byteSize s) :
    onward s i j = .ok ⟨j, h⟩ := dif_pos h

/-! Bytes of characters. -/

theorem length_utf8 (s : Text) : (utf8 s).length = byteSize s := by
  induction s with
  | nil => rfl
  | cons c s ih =>
    rw [byteSize_cons, ← ih, ← String.length_utf8EncodeChar]
    exact List.length_append

theorem utf8_append (s t : Text) : utf8 (s ++ t) = utf8 s ++ utf8 t := List.flatMap_append

theorem lt_byteSize_of_peek {s : Text} {i : Nat} {b : Char} (h : peek s i = some b) :
    i < byteSize s := by
  obtain ⟨x, hx, -⟩ := Option.map_eq_some_iff.mp h
  rw [← length_utf8]
  exact (List.getElem?_eq_some_iff.mp hx).1

/-- A character that is one byte. -/
def Low (c : Char) : Prop := c.toNat < 128

instance : DecidablePred Low := fun c => inferInstanceAs (Decidable (c.toNat < 128))

theorem Low.utf8Size {c : Char} (hc : Low c) : c.utf8Size = 1 := by
  rw [Char.utf8Size_eq_one_iff, UInt32.le_iff_toNat_le]
  exact Nat.le_of_lt_succ hc

theorem Low.utf8EncodeChar {c : Char} (hc : Low c) :
    (String.utf8EncodeChar c).map (fun b => Char.ofNat b.toNat) = [c] := by
  have hval : c.val.toUInt8.toNat = c.toNat := Nat.mod_eq_of_lt (Nat.lt_trans hc (by decide))
  rw [String.utf8EncodeChar_eq_singleton hc.utf8Size, List.map_singleton, hval, Char.ofNat_toNat]

/-- Every byte of a larger character is large. -/
theorem toNat_of_mem_utf8EncodeChar {c : Char} (hc : ¬ Low c) {b : UInt8}
    (hb : b ∈ String.utf8EncodeChar c) : 128 ≤ b.toNat := by
  have hnat : ¬ c.val.toNat ≤ 127 := fun h => hc (Nat.lt_succ_of_le h)
  have hlead (x k : Nat) (hk : 0 < k) (hk' : k ≤ 64) (m : Nat) (hm : 128 ≤ m)
      (hkm : k + m ≤ 256) : 128 ≤ (UInt8.ofNat (x % k + m)).toNat := by
    have := Nat.mod_lt x hk
    rw [UInt8.toNat_ofNat', Nat.mod_eq_of_lt (by omega)]
    omega
  simp only [String.utf8EncodeChar, if_neg hnat] at hb
  split at hb
  next =>
    simp only [List.mem_cons, List.not_mem_nil, or_false] at hb
    rcases hb with rfl | rfl <;> apply hlead <;> decide
  next =>
    split at hb
    all_goals
      simp only [List.mem_cons, List.not_mem_nil, or_false] at hb
    · rcases hb with rfl | rfl | rfl <;> apply hlead <;> decide
    · rcases hb with rfl | rfl | rfl | rfl <;> apply hlead <;> decide

theorem not_low_ofNat {b : UInt8} (hb : 128 ≤ b.toNat) : ¬ Low (Char.ofNat b.toNat) := by
  have hlt : b.toNat < 256 := b.toNat_lt
  have hvalid : b.toNat.isValidChar := .inl (by omega)
  have hnat : (Char.ofNat b.toNat).toNat = b.toNat := by
    rw [Char.ofNat, dif_pos hvalid]
    rfl
  rw [Low, hnat]
  omega

theorem ne_of_not_low {a c : Char} (hc : ¬ Low c) (ha : Low a) : c ≠ a := fun h => hc (h ▸ ha)

/-- The predicate does not tell larger characters apart. -/
def Uniform (p : Char → Bool) : Prop := ∀ b c, ¬ Low b → ¬ Low c → p b = p c

theorem uniform_beq {a : Char} (ha : Low a) : Uniform (· == a) := by
  intro b c hb hc
  have hne {d : Char} (hd : ¬ Low d) : (d == a) = false :=
    beq_eq_false_iff_ne.mpr (ne_of_not_low hd ha)
  exact (hne hb).trans (hne hc).symm

section
variable {p q : Char → Bool} (hp : Uniform p) (hq : Uniform q)
include hp

theorem Uniform.not : Uniform (!p ·) := by
  intro b c hb hc
  simp only [hp b c hb hc]

include hq

theorem Uniform.or : Uniform fun c => p c || q c := by
  intro b c hb hc
  simp only [hp b c hb hc, hq b c hb hc]

theorem Uniform.and : Uniform fun c => p c && q c := by
  intro b c hb hc
  simp only [hp b c hb hc, hq b c hb hc]

end

/-! Tails. -/

/-- What follows byte `i` of `s` is `t`. -/
def Tail (s : Text) (i : Nat) (t : Text) : Prop := ∃ p, s = p ++ t ∧ byteSize p = i

/-- The byte at which the tail `t` of `s` starts. -/
def offsetOf (s t : Text) : Nat := byteSize s - byteSize t

theorem offsetOf_le (s t : Text) : offsetOf s t ≤ byteSize s := Nat.sub_le ..

section
variable {s t u : Text} {i : Nat} {c : Char}

theorem tail_zero (s : Text) : Tail s 0 s := ⟨[], rfl, rfl⟩

theorem Tail.append (h : Tail s i (u ++ t)) : Tail s (i + byteSize u) t := by
  obtain ⟨p, rfl, rfl⟩ := h
  exact ⟨p ++ u, (List.append_assoc ..).symm, byteSize_append p u⟩

theorem Tail.next (h : Tail s i (c :: t)) : Tail s (i + c.utf8Size) t := h.append (u := [c])

theorem Tail.next_low (h : Tail s i (c :: t)) (hc : Low c) : Tail s (i + 1) t := by
  have := h.next
  rwa [hc.utf8Size] at this

theorem Tail.size (h : Tail s i t) : i + byteSize t = byteSize s := by
  obtain ⟨p, rfl, rfl⟩ := h
  exact (byteSize_append p t).symm

theorem Tail.offsetOf_eq (h : Tail s i t) : offsetOf s t = i := by
  have hsize := h.size
  rw [offsetOf]
  omega

theorem Tail.le (h : Tail s i t) : i ≤ byteSize s := Nat.le.intro h.size

/-- Behind the last character there is nothing. -/
theorem Tail.le_of_nil (h : Tail s i []) : byteSize s ≤ i := Nat.le_of_eq h.size.symm

/-- The tails of a tail start where it starts or later. -/
theorem Tail.suffix (h : Tail s i t) (hr : u <:+ t) :
    Tail s (offsetOf s u) u ∧ i ≤ offsetOf s u := by
  obtain ⟨lead, rfl⟩ := hr
  rw [h.append.offsetOf_eq]
  exact ⟨h.append, Nat.le_add_right ..⟩

theorem Tail.lt (h : Tail s i (c :: t)) : i < byteSize s := by
  have hsize := h.size
  have := c.utf8Size_pos
  rw [byteSize_cons] at hsize
  omega

/-- Of two tails the shorter one starts later. -/
theorem Tail.lt_of_length {j : Nat} (h : Tail s i t) (h' : Tail s j u)
    (hlen : u.length < t.length) : i < j := by
  obtain ⟨p, rfl, rfl⟩ := h
  obtain ⟨q, hq, rfl⟩ := h'
  rcases List.append_eq_append_iff.mp hq with ⟨w, rfl, rfl⟩ | ⟨w, rfl, rfl⟩
  · have hw : w ≠ [] := by
      rintro rfl
      exact Nat.lt_irrefl _ hlen
    have := byteSize_pos hw
    rw [byteSize_append]
    omega
  · simp only [List.length_append] at hlen
    omega

theorem Tail.cut_eq (h : Tail s i (u ++ t)) {j : Nat} (hj : j = i + byteSize u) :
    cut s i j = .ok u := by
  obtain ⟨p, rfl, rfl⟩ := h
  rw [cut, slice?_eq_some_iff.mpr ⟨p, t, rfl, by rw [byteSize_append, hj]⟩]

/-- The part of a tail before one of its own tails. -/
theorem Tail.cut_before (h : Tail s i t) (hu : u <:+ t) :
    cut s i (offsetOf s u) = .ok (before t u) := by
  obtain ⟨lead, rfl⟩ := hu
  rw [before_append, h.append.offsetOf_eq]
  exact h.cut_eq rfl

theorem Tail.cut_rest (h : Tail s i t) : cut s i (byteSize s) = .ok t := by
  have hsize := h.size
  rw [← List.append_nil t] at h
  exact h.cut_eq hsize.symm

theorem Tail.peek_add (h : Tail s i t) (k : Nat) : peek s (i + k) = peek t k := by
  obtain ⟨p, rfl, rfl⟩ := h
  rw [peek, utf8_append, List.getElem?_append_right (by rw [length_utf8]; omega), length_utf8,
    Nat.add_sub_cancel_left]
  rfl

theorem Tail.peek_nil (h : Tail s i []) : peek s i = none := h.peek_add 0

theorem Tail.peek_low (h : Tail s i (c :: t)) (hc : Low c) : peek s i = some c := by
  have hhead : peek (c :: t) 0 = ((String.utf8EncodeChar c).map (Char.ofNat ·.toNat) ++
      (utf8 t).map (Char.ofNat ·.toNat))[0]? := by
    rw [← List.map_append, List.getElem?_map]
    rfl
  rw [← Nat.add_zero i, h.peek_add, hhead, hc.utf8EncodeChar]
  rfl

/-- The bytes of a larger character. -/
theorem Tail.peek_inside (h : Tail s i (c :: t)) (hc : ¬ Low c) {k : Nat} (hk : k < c.utf8Size) :
    ∃ b, peek s (i + k) = some b ∧ ¬ Low b := by
  have hlen : k < (String.utf8EncodeChar c).length := by rwa [String.length_utf8EncodeChar]
  have hget : (utf8 (c :: t))[k]? = some (String.utf8EncodeChar c)[k] := by
    rw [utf8, List.flatMap_cons, List.getElem?_append_left hlen, List.getElem?_eq_getElem hlen]
  refine ⟨_, by rw [h.peek_add, peek, hget, Option.map_some], not_low_ofNat ?_⟩
  exact toNat_of_mem_utf8EncodeChar hc (List.getElem_mem hlen)

/-- The first byte of a character looks like the character to every uniform predicate. -/
theorem Tail.peek_cons (h : Tail s i (c :: t)) :
    ∃ b, peek s i = some b ∧ ∀ p, Uniform p → p b = p c := by
  by_cases hc : Low c
  · exact ⟨c, h.peek_low hc, fun p _ => rfl⟩
  · obtain ⟨b, hb, hb'⟩ := h.peek_inside hc c.utf8Size_pos
    exact ⟨b, hb, fun p hp => hp b c hb' hc⟩

theorem Tail.any_peek (h : Tail s i t) {p : Char → Bool} (hp : Uniform p) :
    (peek s i).any p = t.head?.any p := by
  cases t with
  | nil => rw [h.peek_nil]; rfl
  | cons c t =>
    obtain ⟨b, hb, huniform⟩ := h.peek_cons
    rw [hb]
    exact huniform p hp

/-- A one-byte character is seen exactly where it stands. -/
theorem Tail.peek_eq_some_iff (h : Tail s i t) {a : Char} (ha : Low a) :
    peek s i = some a ↔ t.head? = some a := by
  cases t with
  | nil => simp [h.peek_nil]
  | cons c t =>
    obtain ⟨b, hb, huniform⟩ := h.peek_cons
    have hbeq := huniform _ (uniform_beq ha)
    rw [hb, List.head?_cons, Option.some.injEq, Option.some.injEq, ← beq_iff_eq, hbeq, beq_iff_eq]

theorem Tail.byteAt_low (h : Tail s i (c :: t)) (hc : Low c) : byteAt s i = .ok c := by
  rw [byteAt, h.peek_low hc]

/-- A function of the offset that does not change over the bytes of a larger character does not
change over the character, from any byte of it on. -/
theorem Tail.pass {α : Type} {f : Nat → α} (h : Tail s i (c :: t)) (hc : ¬ Low c)
    (hf : ∀ j b, j < i + c.utf8Size → peek s j = some b → ¬ Low b → f j = f (j + 1)) {k : Nat}
    (hk : k ≤ c.utf8Size) : f (i + k) = f (i + c.utf8Size) := by
  induction hk using Nat.decreasingInduction with
  | self => rfl
  | of_succ k hk ih =>
    obtain ⟨b, hb, hb'⟩ := h.peek_inside hc hk
    rw [hf _ b (by omega) hb hb', Nat.add_assoc, ih]

/-- From the second byte of a character on, if it has one. -/
theorem Tail.pass_rest {α : Type} {f : Nat → α} (h : Tail s i (c :: t))
    (hf : ¬ Low c → ∀ j b, j < i + c.utf8Size → peek s j = some b → ¬ Low b → f j = f (j + 1)) :
    f (i + 1) = f (i + c.utf8Size) := by
  by_cases hc : Low c
  · rw [hc.utf8Size]
  · exact h.pass hc (hf hc) c.utf8Size_pos

theorem Tail.startsWith_eq (h : Tail s i t) {lead : Text} (hlead : ∀ a ∈ lead, Low a) :
    startsWith s i lead = (afterLead? lead t).isSome := by
  induction lead generalizing i t with
  | nil => rfl
  | cons a lead ih =>
    obtain ⟨ha, hlead⟩ := List.forall_mem_cons.mp hlead
    have hpeek := h.peek_eq_some_iff ha
    by_cases hhead : t.head? = some a
    · obtain ⟨r, rfl⟩ := List.head?_eq_some_iff.mp hhead
      simp [startsWith, hpeek, afterLead?, ih (h.next_low ha) hlead]
    · have hnone : afterLead? (a :: lead) t = none := by
        rw [Option.eq_none_iff_forall_ne_some]
        intro r hr
        exact hhead (congrArg List.head? (afterLead?_eq_some_iff.mp hr))
      rw [startsWith, hnone, beq_eq_false_iff_ne.mpr fun h' => hhead (hpeek.mp h')]
      rfl

theorem Tail.startsAt_eq (h : Tail s i t) {lead : Text} (hlead : ∀ a ∈ lead, Low a) :
    startsAt s i lead = .ok (afterLead? lead t).isSome := by
  have hsize := h.size
  rw [startsAt, if_pos (by omega), h.startsWith_eq hlead]

end

/-! Moving on. -/

/-- Moves on byte by byte as long as `goesOn` says so. -/
def skipWhile (s : Text) (goesOn : Char → Nat → Run Bool) (i : Nat) : Run Nat :=
  match _h : peek s i with
  | none => return i
  | some b => do
      if ← goesOn b i then skipWhile s goesOn (i + 1) else return i
  termination_by byteSize s - i
  decreasing_by
    have := lt_byteSize_of_peek _h
    omega

section
variable {s t : Text} {i : Nat} {goesOn : Char → Nat → Run Bool}

theorem skipWhile_byte {b : Char} (hb : peek s i = some b) : skipWhile s goesOn i =
    goesOn b i >>= fun more => if more then skipWhile s goesOn (i + 1) else .ok i := by
  rw [skipWhile]
  split
  next hnone => cases hb.symm.trans hnone
  next b' hb' =>
    obtain rfl := Option.some.inj (hb.symm.trans hb')
    rfl

theorem skipWhile_end (hb : peek s i = none) : skipWhile s goesOn i = .ok i := by
  rw [skipWhile]
  split
  next => rfl
  next hb' => cases hb.symm.trans hb'

/-- The bytes are left at the first character at which `stops` holds of the tail, if the bytes of
larger characters are passed over. -/
theorem Tail.skipWhile_eq (stops : Text → Bool) {after : Text → Text} (hnil : after [] = [])
    (hcons : ∀ c t, after (c :: t) = if stops (c :: t) then c :: t else after t)
    (hlook : ∀ i c t b, Tail s i (c :: t) → peek s i = some b →
      goesOn b i = .ok (!stops (c :: t)))
    (hinside : ∀ c t j b, stops (c :: t) = false → ¬ Low c → peek s j = some b → ¬ Low b →
      goesOn b j = .ok true)
    (h : Tail s i t) : skipWhile s goesOn i = .ok (offsetOf s (after t)) := by
  induction t generalizing i with
  | nil => rw [skipWhile_end h.peek_nil, hnil, h.offsetOf_eq]
  | cons c t ih =>
    obtain ⟨b, hb, -⟩ := h.peek_cons
    rw [skipWhile_byte hb, hlook i c t b h hb, ok_bind, hcons]
    cases hstop : stops (c :: t) with
    | true => simp [h.offsetOf_eq]
    | false =>
      have hrest : skipWhile s goesOn (i + 1) = skipWhile s goesOn (i + c.utf8Size) := by
        refine h.pass_rest fun hc j b' _ hb' hhigh => ?_
        rw [skipWhile_byte hb', hinside c t j b' hstop hc hb' hhigh]
        rfl
      simp [hrest, ih h.next]

theorem Tail.skipRun_eq {p : Char → Bool} (hp : Uniform p) (h : Tail s i t) :
    skipWhile s (fun b _ => .ok (p b)) i = .ok (offsetOf s (t.dropWhile p)) := by
  refine h.skipWhile_eq (fun t => !t.head?.any p) rfl ?_ ?_ ?_
  · intro c t
    cases hc : p c <;> simp [hc]
  · intro i c t b h hb
    obtain ⟨b', hb', huniform⟩ := h.peek_cons
    obtain rfl := Option.some.inj (hb.symm.trans hb')
    simp [huniform p hp]
  · intro c t j b hstop hc _ hb
    rw [hp b c hb hc]
    simpa using hstop

end

end MarkupHighlight.Bytewise
