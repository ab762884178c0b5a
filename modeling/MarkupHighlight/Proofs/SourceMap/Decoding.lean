import MarkupHighlight.Proofs.SourceMap.Checked
import MarkupHighlight.Proofs.Text.Lines
import Mathlib.Algebra.Group.Int.Defs
import Mathlib.Algebra.Group.Nat.Defs

/-!
Mappings are read back as they were written, and no word overflows on the way:
`mappings_readBack` holds of mappings in the order of their lines whose numbers have at most 63
bits. The reading is followed with its checks; `decodeMappings_encodeMappings` is what is left
without them.
-/
namespace MarkupHighlight

namespace Vlq

/-! Numbers. -/

theorem digit?_digitChar {n : Nat} (h : n < 64) : digit? (digitChar n) = some n := by
  have hall : ∀ n < 64, digit? (digitChar n) = some n := by decide +kernel
  exact hall n h

theorem unzigzag_zigzag (n : Int) : unzigzag (zigzag n) = n := by
  unfold zigzag unzigzag
  by_cases h : n < 0
  · rw [if_pos h, if_pos (by omega)]
    omega
  · rw [if_neg h, if_neg (by omega)]
    omega

/-- A word without its lowest bit fits a signed word, with either sign. -/
theorem signed_unzigzag {n : Nat} (h : n < wordSize) :
    Checked.signed (unzigzag n) = some (unzigzag n) := by
  refine Checked.signed_eq_some_iff.mpr ⟨?_, rfl⟩
  unfold wordSize at h
  unfold unzigzag
  split <;> omega

section
variable {d low shift : Nat} (hd : d < 32) (s : Text) (hvalue : low + d <<< shift < wordSize)
include hd hvalue

theorem decodeFrom_lastDigit : Checked.decodeFrom low shift (digitChar d :: s) =
    (Checked.decode s).map (unzigzag (low + d <<< shift) :: ·) := by
  have hmoved : d <<< shift < wordSize := by omega
  simp only [Checked.decodeFrom, digit?_digitChar (by omega : d < 64), Option.bind_eq_bind,
    Option.bind_some, Nat.mod_eq_of_lt hd, Checked.unsigned, if_pos hmoved, if_pos hvalue,
    if_neg (by omega : ¬ 32 ≤ d), signed_unzigzag hvalue]
  cases h : Checked.decode s <;> rw [Checked.decode] at h <;> rw [h] <;> rfl

theorem decodeFrom_digit (hshift : shift + 5 ≤ 60) :
    Checked.decodeFrom low shift (digitChar (d + 32) :: s) =
      Checked.decodeFrom (low + d <<< shift) (shift + 5) s := by
  have hmoved : d <<< shift < wordSize := by omega
  simp only [Checked.decodeFrom, digit?_digitChar (by omega : d + 32 < 64), Option.bind_eq_bind,
    Option.bind_some, Nat.add_mod_right, Nat.mod_eq_of_lt hd, Checked.unsigned, if_pos hmoved,
    if_pos hvalue, if_pos (Nat.le_add_left 32 d), if_neg (Nat.not_lt.mpr hshift)]

end

/-- The digits of a number are read on top of the digits read already. -/
theorem decodeFrom_encodeNat (n low k : Nat) (s : Text) (hlow : low < 2 ^ (5 * k))
    (hn : low + n * 2 ^ (5 * k) < wordSize) :
    Checked.decodeFrom low (5 * k) (encodeNat n ++ s) =
      (Checked.decode s).map (unzigzag (low + n * 2 ^ (5 * k)) :: ·) := by
  induction n using Nat.strongRecOn generalizing low k with
  | ind n ih =>
    rw [encodeNat]
    split
    · rename_i hsmall
      rw [← Nat.shiftLeft_eq] at hn ⊢
      rw [List.singleton_append, decodeFrom_lastDigit hsmall s hn]
    · rename_i hbig
      -- the low five bits go below the rest of the number
      have hcut : n % 32 * 2 ^ (5 * k) + n / 32 * (32 * 2 ^ (5 * k)) = n * 2 ^ (5 * k) := by
        rw [← Nat.mul_assoc, ← Nat.add_mul, Nat.mul_comm (n / 32), Nat.mod_add_div]
      have hpow : 2 ^ (5 * (k + 1)) = 32 * 2 ^ (5 * k) := by
        rw [Nat.mul_add, Nat.pow_add, Nat.mul_comm]
      have hlow' : low + n % 32 * 2 ^ (5 * k) < 2 ^ (5 * (k + 1)) := by
        have := Nat.mul_le_mul_right (2 ^ (5 * k)) (by omega : n % 32 ≤ 31)
        omega
      have hshift : 5 * k + 5 ≤ 60 := by
        have hle := Nat.mul_le_mul_right (2 ^ (5 * k)) (by omega : 32 ≤ n)
        have hlt : 2 ^ (5 * (k + 1)) < 2 ^ 64 := by
          unfold wordSize at hn
          omega
        have := (Nat.pow_lt_pow_iff_right (by decide : 1 < 2)).mp hlt
        omega
      have hrest := ih (n / 32) (by omega) (low + n % 32 * 2 ^ (5 * k)) (k + 1) hlow'
        (by rwa [hpow, Nat.add_assoc, hcut])
      rw [hpow, Nat.add_assoc, hcut] at hrest
      have hvalue : low + (n % 32) <<< (5 * k) < wordSize := by
        rw [Nat.shiftLeft_eq]
        omega
      rw [List.cons_append, decodeFrom_digit (by omega) _ hvalue hshift, Nat.shiftLeft_eq]
      exact hrest

/-- Numbers of 63 bits and a sign are read back one after the other. -/
theorem decode_encode_append {n : Int} (h : n.natAbs < 2 ^ 63) (s : Text) :
    Checked.decode (encode n ++ s) = (Checked.decode s).map (n :: ·) := by
  have hzigzag : zigzag n < wordSize := by
    unfold zigzag wordSize
    split <;> omega
  have hread := decodeFrom_encodeNat (zigzag n) 0 0 s (by decide) (by simpa using hzigzag)
  rw [Nat.zero_add, Nat.mul_zero, Nat.pow_zero, Nat.mul_one, unzigzag_zigzag] at hread
  exact hread

theorem digitChar_mem (n : Nat) : digitChar n ∈ alphabet := by
  unfold digitChar
  cases h : alphabet[n]? with
  | none => decide
  | some c => exact List.mem_of_getElem? h

theorem encodeNat_mem {n : Nat} {c : Char} (h : c ∈ encodeNat n) : c ∈ alphabet := by
  induction n using Nat.strongRecOn with
  | ind n ih =>
    rw [encodeNat] at h
    split at h
    · rw [List.mem_singleton.mp h]
      exact digitChar_mem n
    · rcases List.mem_cons.mp h with rfl | h
      · exact digitChar_mem _
      · exact ih (n / 32) (by omega) h

end Vlq

/-! Mappings. -/

/-- The numbers of a base are offsets that a machine can hold. -/
structure MappingBase.Fits (b : MappingBase) : Prop where
  generatedColumn : 0 ≤ b.generatedColumn ∧ b.generatedColumn < 2 ^ 63
  sourceIndex : 0 ≤ b.sourceIndex ∧ b.sourceIndex < 2 ^ 63
  sourceLine : 0 ≤ b.sourceLine ∧ b.sourceLine < 2 ^ 63
  sourceColumn : 0 ≤ b.sourceColumn ∧ b.sourceColumn < 2 ^ 63

theorem MappingBase.Fits.newLine {b : MappingBase} (h : b.Fits) :
    ({ b with generatedColumn := 0 } : MappingBase).Fits :=
  ⟨⟨Int.le_refl 0, (by decide : (0 : Int) < 2 ^ 63)⟩, h.sourceIndex, h.sourceLine,
    h.sourceColumn⟩

/-- A base and the difference to an offset come to the offset again. -/
theorem signed_of_fits {m n : Int} (hm : 0 ≤ m ∧ m < 2 ^ 63) :
    Checked.signed (n + (m - n)) = some m := by
  have hsum : n + (m - n) = m := by omega
  rw [hsum]
  exact Checked.signed_eq_some_iff.mpr ⟨by omega, rfl⟩

section
variable {b : MappingBase} {m : Mapping} (hb : b.Fits) (hm : m.base.Fits)
include hb hm

theorem encodeMapping_checked : Checked.encodeMapping b m = some (encodeMapping b m) := by
  obtain ⟨hb₁, hb₂, hb₃, hb₄⟩ := hb
  obtain ⟨hm₁, hm₂, hm₃, hm₄⟩ := hm
  simp only [Mapping.base] at hm₁ hm₂ hm₃ hm₄
  simp only [Checked.encodeMapping, Option.bind_eq_bind, Option.bind_eq_some_iff,
    Checked.encodeDelta_eq_some_iff]
  refine ⟨_, ⟨?_, ?_, rfl⟩, _, ⟨?_, ?_, rfl⟩, _, ⟨?_, ?_, rfl⟩, _, ⟨?_, ?_, rfl⟩, rfl⟩ <;> omega

theorem decodeMapping_encodeMapping :
    Checked.decodeMapping b m.generatedLine (encodeMapping b m) = some (m, m.base) := by
  obtain ⟨hb₁, hb₂, hb₃, hb₄⟩ := hb
  obtain ⟨hm₁, hm₂, hm₃, hm₄⟩ := hm
  simp only [Mapping.base] at hm₁ hm₂ hm₃ hm₄
  have hread : Checked.decode (encodeMapping b m) = some [m.generatedColumn - b.generatedColumn,
      m.sourceIndex - b.sourceIndex, m.sourceLine - b.sourceLine,
      m.sourceColumn - b.sourceColumn] := by
    unfold encodeMapping
    rw [List.append_assoc, List.append_assoc, Vlq.decode_encode_append (by omega),
      Vlq.decode_encode_append (by omega), Vlq.decode_encode_append (by omega),
      ← List.append_nil (Vlq.encode (_ - b.sourceColumn)), Vlq.decode_encode_append (by omega)]
    rfl
  simp only [Checked.decodeMapping, hread, Option.bind_eq_bind, Option.bind_some,
    signed_of_fits hm₁, signed_of_fits hm₂, signed_of_fits hm₃, signed_of_fits hm₄]
  rw [if_pos ⟨hm₁.1, hm₂.1, hm₃.1, hm₄.1⟩]
  rfl

end

theorem encodeMapping_mem {b : MappingBase} {m : Mapping} {c : Char} (h : c ∈ encodeMapping b m) :
    c ∈ Vlq.alphabet := by
  simp only [encodeMapping, List.mem_append] at h
  rcases h with ((h | h) | h) | h <;> exact Vlq.encodeNat_mem h

theorem encodeMapping_ne_nil (b : MappingBase) (m : Mapping) : encodeMapping b m ≠ [] := by
  have hne (n : Nat) : Vlq.encodeNat n ≠ [] := by
    rw [Vlq.encodeNat]
    split <;> exact List.cons_ne_nil _ _
  intro h
  exact hne _ (List.append_eq_nil_iff.mp h).2

theorem encodeLine_mem {b : MappingBase} {ms : List Mapping} {t : Text} {c : Char}
    (ht : t ∈ (encodeLine b ms).1) (hc : c ∈ t) : c ∈ Vlq.alphabet := by
  induction ms generalizing b with
  | nil => cases ht
  | cons m ms ih =>
    rcases List.mem_cons.mp ht with rfl | ht
    · exact encodeMapping_mem hc
    · exact ih ht

theorem encodeLine_checked {b : MappingBase} {ms : List Mapping} (hb : b.Fits)
    (hms : ∀ m ∈ ms, m.base.Fits) :
    Checked.encodeLine b ms = some (encodeLine b ms) ∧ (encodeLine b ms).2.Fits := by
  induction ms generalizing b with
  | nil => exact ⟨rfl, hb⟩
  | cons m ms ih =>
    have hm := hms m (List.mem_cons_self ..)
    obtain ⟨hrest, hlast⟩ := ih hm fun m' hm' => hms m' (List.mem_cons_of_mem _ hm')
    refine ⟨?_, hlast⟩
    simp only [Checked.encodeLine, encodeMapping_checked hb hm, hrest, Option.bind_eq_bind,
      Option.bind_some]
    rfl

/-- The texts of a line are read back to its mappings and its last base. -/
theorem decodeLine_encodeLine {b : MappingBase} {line : Nat} {ms : List Mapping} (hb : b.Fits)
    (hms : ∀ m ∈ ms, m.base.Fits ∧ m.generatedLine = line) :
    Checked.decodeLine b line (encodeLine b ms).1 = some (ms, (encodeLine b ms).2) := by
  induction ms generalizing b with
  | nil => rfl
  | cons m ms ih =>
    obtain ⟨hm, rfl⟩ := hms m (List.mem_cons_self ..)
    have hread := ih hm fun m' hm' => hms m' (List.mem_cons_of_mem _ hm')
    have hne : (encodeMapping b m).isEmpty = false := by
      simpa using encodeMapping_ne_nil b m
    simp only [encodeLine, Checked.decodeLine, hne, decodeMapping_encodeMapping hb hm,
      Option.bind_eq_bind, Option.bind_some, hread, Bool.false_eq_true, if_false]
    rfl

/-- A line without mappings is written like a line with one empty text. -/
theorem decodeLine_splitOnChar (b b' : MappingBase) (line : Nat) (ms : List Mapping) :
    Checked.decodeLine b line (splitOnChar ',' (joinWith [','] (encodeLine b' ms).1)) =
      Checked.decodeLine b line (encodeLine b' ms).1 := by
  cases ms with
  | nil => rfl
  | cons m ms =>
    rw [splitOnChar_joinWith]
    · exact List.cons_ne_nil _ _
    · intro t ht hcomma
      exact absurd (encodeLine_mem ht hcomma) (by decide)

theorem dropWhile_line_le {ms : List Mapping} {line : Nat} (hle : ∀ m ∈ ms, line ≤ m.generatedLine)
    (hordered : ms.Pairwise fun m m' => m.generatedLine ≤ m'.generatedLine) :
    ∀ m ∈ ms.dropWhile (·.generatedLine == line), line + 1 ≤ m.generatedLine := by
  induction ms with
  | nil => intro m hm; cases hm
  | cons m₀ ms ih =>
    obtain ⟨hhead, htail⟩ := List.pairwise_cons.mp hordered
    have hle₀ := hle m₀ (List.mem_cons_self ..)
    by_cases h : m₀.generatedLine = line
    · rw [List.dropWhile_cons_of_pos (by simpa using h)]
      exact ih (fun m hm => hle m (List.mem_cons_of_mem _ hm)) htail
    · rw [List.dropWhile_cons_of_neg (by simpa using h)]
      intro m hm
      rcases List.mem_cons.mp hm with rfl | hm
      · omega
      · have := hhead m hm
        omega

theorem encodeLines_checked {b : MappingBase} (line count : Nat) (ms : List Mapping)
    (hb : b.Fits) (hfits : ∀ m ∈ ms, m.base.Fits) :
    Checked.encodeLines b line count ms = some (encodeLines b line count ms) := by
  induction count generalizing b line ms with
  | zero => rfl
  | succ count ih =>
    have hhere : ∀ m ∈ ms.takeWhile (·.generatedLine == line), m.base.Fits := fun m hm =>
      hfits m ((List.takeWhile_prefix _).subset hm)
    obtain ⟨hline, hlast⟩ := encodeLine_checked hb.newLine hhere
    have hrest := ih (line + 1) (ms.dropWhile (·.generatedLine == line)) hlast
      fun m hm => hfits m ((List.dropWhile_suffix _).subset hm)
    simp only [Checked.encodeLines, encodeLines, hline, hrest, Option.bind_eq_bind,
      Option.bind_some]
    rfl

/-- Lines are read back to the mappings on them, lines with none included. -/
theorem decodeLines_encodeLines {b : MappingBase} (line count : Nat) (ms : List Mapping)
    (hb : b.Fits) (hfits : ∀ m ∈ ms, m.base.Fits)
    (hlines : ∀ m ∈ ms, line ≤ m.generatedLine ∧ m.generatedLine < line + count)
    (hordered : ms.Pairwise fun m m' => m.generatedLine ≤ m'.generatedLine) :
    Checked.decodeLines b line (encodeLines b line count ms) = some ms := by
  induction count generalizing b line ms with
  | zero =>
    cases ms with
    | nil => rfl
    | cons m ms =>
      have := hlines m (List.mem_cons_self ..)
      omega
  | succ count ih =>
    have hhere : ∀ m ∈ ms.takeWhile (·.generatedLine == line),
        m.base.Fits ∧ m.generatedLine = line := by
      intro m hm
      refine ⟨hfits m ((List.takeWhile_prefix _).subset hm), ?_⟩
      simpa using List.all_eq_true.mp List.all_takeWhile m hm
    have hlater := dropWhile_line_le (fun m hm => (hlines m hm).1) hordered
    have hsub := List.dropWhile_suffix (fun m : Mapping => m.generatedLine == line) (l := ms)
    have hread := decodeLine_encodeLine hb.newLine hhere
    obtain ⟨-, hlast⟩ := encodeLine_checked hb.newLine fun m hm => (hhere m hm).1
    have hrest := ih (line + 1) (ms.dropWhile (·.generatedLine == line)) hlast
      (fun m hm => hfits m (hsub.subset hm))
      (fun m hm => ⟨hlater m hm, by have := hlines m (hsub.subset hm); omega⟩)
      (hordered.sublist hsub.sublist)
    simp only [encodeLines, Checked.decodeLines, decodeLine_splitOnChar, hread, hrest,
      Option.bind_eq_bind, Option.bind_some]
    rw [List.takeWhile_append_dropWhile]
    rfl

theorem encodeLines_mem {b : MappingBase} {line count : Nat} {ms : List Mapping} {t : Text}
    {c : Char} (ht : t ∈ encodeLines b line count ms) (hc : c ∈ t) :
    c = ',' ∨ c ∈ Vlq.alphabet := by
  induction count generalizing b line ms with
  | zero => cases ht
  | succ count ih =>
    rcases List.mem_cons.mp ht with rfl | ht
    · rcases mem_joinWith hc with hc | ⟨l, hl, hc⟩
      · exact .inl hc
      · exact .inr (encodeLine_mem hl hc)
    · exact ih ht

theorem MappingBase.Fits.zero : ({} : MappingBase).Fits :=
  ⟨by decide, by decide, by decide, by decide⟩

section
variable {ms : List Mapping} {count : Nat} (hfits : ∀ m ∈ ms, m.base.Fits)
  (hlines : ∀ m ∈ ms, m.generatedLine < count)
  (hordered : ms.Pairwise fun m m' => m.generatedLine ≤ m'.generatedLine)
include hfits hlines hordered

theorem decodeMappings_checked :
    Checked.decodeMappings (encodeMappings ms count) = some ms := by
  have hread := decodeLines_encodeLines 0 count ms .zero hfits
    (fun m hm => ⟨Nat.zero_le _, by have := hlines m hm; omega⟩) hordered
  unfold Checked.decodeMappings encodeMappings
  cases count with
  | zero =>
    cases ms with
    | nil => rfl
    | cons m ms => exact absurd (hlines m (List.mem_cons_self ..)) (Nat.not_lt_zero _)
  | succ count =>
    rw [splitOnChar_joinWith]
    · exact hread
    · exact List.cons_ne_nil _ _
    · intro t ht hsemicolon
      rcases encodeLines_mem ht hsemicolon with h | h
      · cases h
      · exact absurd h (by decide)

theorem decodeMappings_encodeMappings :
    decodeMappings (encodeMappings ms count) = some ms :=
  Checked.decodeMappings_of_checked (decodeMappings_checked hfits hlines hordered)

/-- Mappings are read back as they were written, and both can be done with a check after every
step in machine words: no difference, no shifted number and no sum is out of range. Lines may be
empty, and the other numbers of the mappings may come in any order. -/
theorem mappings_readBack :
    decodeMappings (encodeMappings ms count) = some ms ∧
      Checked.encodeMappings ms count = some (encodeMappings ms count) ∧
      Checked.decodeMappings (encodeMappings ms count) = some ms := by
  refine ⟨decodeMappings_encodeMappings hfits hlines hordered, ?_,
    decodeMappings_checked hfits hlines hordered⟩
  rw [Checked.encodeMappings, encodeLines_checked 0 count ms .zero hfits]
  rfl

end

/-- The largest offsets there are, differences of either sign and lines without mappings. -/
theorem mappings_readBack_largest :
    Checked.decodeMappings (encodeMappings [⟨1, 2 ^ 63 - 1, 0, 7, 2 ^ 63 - 1⟩,
        ⟨1, 0, 2 ^ 63 - 1, 0, 0⟩, ⟨3, 2 ^ 63 - 1, 0, 2 ^ 63 - 1, 1⟩] 5) =
      some [⟨1, 2 ^ 63 - 1, 0, 7, 2 ^ 63 - 1⟩, ⟨1, 0, 2 ^ 63 - 1, 0, 0⟩,
        ⟨3, 2 ^ 63 - 1, 0, 2 ^ 63 - 1, 1⟩] := by
  refine (mappings_readBack ?_ (by decide) (by decide)).2.2
  simp only [List.forall_mem_cons, List.not_mem_nil, false_implies, implies_true, and_true]
  exact ⟨⟨by decide, by decide, by decide, by decide⟩,
    ⟨by decide, by decide, by decide, by decide⟩, ⟨by decide, by decide, by decide, by decide⟩⟩

end MarkupHighlight
