import MarkupHighlight.Json.Reader
import MarkupHighlight.Script.Escape
import Mathlib.Data.List.Chain

/-!
UTF-16. A script counts its texts in units of sixteen bits, and a string may name any code point,
the surrogates among them. As a text it reads with each high surrogate joined to a low one right
behind it, and U+FFFD for every other surrogate (`textOfUnits_unitsOf`). The code points themselves
are read back exactly if no two of them are joined (`joinPairs_eq_self`, `length_joinPairs_lt`).
-/
namespace MarkupHighlight.Script
open Json

/-- The number of code points. -/
def codePoints : Nat := 0x110000

/-- The units of a code point. -/
def unitsOfPoint (n : Nat) : List Nat :=
  if n < 0x10000 then [n] else [0xD800 + (n - 0x10000) / 0x400, 0xDC00 + (n - 0x10000) % 0x400]

def unitsOf (ns : List Nat) : List Nat := ns.flatMap unitsOfPoint

/-- The code points of a text. -/
def pointsOf (s : Text) : List Nat := s.map Char.toNat

/-- The character of a code point, U+FFFD for a surrogate. -/
def charOfPoint (n : Nat) : Char := if n.isValidChar then Char.ofNat n else '\ufffd'

/-- A high surrogate and a low one. -/
def IsPair (m n : Nat) : Prop := isHighUnit m = true ∧ isLowUnit n = true

instance (m n : Nat) : Decidable (IsPair m n) := inferInstanceAs (Decidable (_ ∧ _))

/-- The text that some units stand for. -/
def textOfUnits : List Nat → Text
  | [] => []
  | [u] => [charOfPoint u]
  | u :: v :: us =>
      if IsPair u v then pairChar u v :: textOfUnits us else charOfPoint u :: textOfUnits (v :: us)

/-- The code point that a high and a low surrogate write. -/
def pairPoint (high low : Nat) : Nat := 0x10000 + (high - 0xD800) * 0x400 + (low - 0xDC00)

/-- The code points with every high surrogate joined to a low one right behind it. -/
def joinPairs : List Nat → List Nat
  | m :: n :: ns => if IsPair m n then pairPoint m n :: joinPairs ns else m :: joinPairs (n :: ns)
  | ns => ns

theorem unitsOf_cons (n : Nat) (ns : List Nat) : unitsOf (n :: ns) = unitsOfPoint n ++ unitsOf ns :=
  List.flatMap_cons

theorem unitsOf_eq_self {ns : List Nat} (h : ∀ n ∈ ns, n < 0x10000) : unitsOf ns = ns := by
  induction ns with
  | nil => rfl
  | cons n ns ih =>
    obtain ⟨hn, hns⟩ := List.forall_mem_cons.mp h
    rw [unitsOf_cons, unitsOfPoint, if_pos hn, ih hns, List.singleton_append]

theorem isPair_iff {m n : Nat} :
    IsPair m n ↔ (0xD800 ≤ m ∧ m < 0xDC00) ∧ 0xDC00 ≤ n ∧ n < 0xE000 := by
  simp [IsPair, isHighUnit, isLowUnit]

/-! Single code points. -/

theorem charOfPoint_of_ge {n : Nat} (hle : 0x10000 ≤ n) (hlt : n < codePoints) :
    charOfPoint n = Char.ofNat n := if_pos (.inr ⟨by omega, hlt⟩)

theorem charOfPoint_toNat (c : Char) : charOfPoint c.toNat = c :=
  (if_pos c.valid).trans (Char.ofNat_toNat c)

theorem map_charOfPoint_pointsOf (s : Text) : (pointsOf s).map charOfPoint = s := by
  rw [pointsOf, List.map_map]
  exact List.map_id'' charOfPoint_toNat s

theorem toNat_lt_codePoints (c : Char) : c.toNat < codePoints := by
  rcases c.valid with h | ⟨-, h⟩
  · exact Nat.lt_trans h (by decide)
  · exact h

/-- The units of a code point above the first plane are a pair. -/
theorem exists_unitsOfPoint {n : Nat} (hle : 0x10000 ≤ n) (hlt : n < codePoints) :
    ∃ u v, unitsOfPoint n = [u, v] ∧ IsPair u v ∧ pairPoint u v = n := by
  unfold codePoints at hlt
  refine ⟨_, _, if_neg (by omega), isPair_iff.mpr ?_, ?_⟩
  · omega
  · unfold pairPoint
    omega

theorem pairChar_eq {u v : Nat} (h : IsPair u v) : pairChar u v = charOfPoint (pairPoint u v) := by
  obtain ⟨hu, hv⟩ := isPair_iff.mp h
  have hlt : pairPoint u v < codePoints := by
    unfold pairPoint codePoints
    omega
  exact (charOfPoint_of_ge (by unfold pairPoint; omega) hlt).symm

/-! Rows of code points. -/

section
variable {m : Nat} {ns : List Nat} (hns : ∀ n ∈ ns, n < codePoints)
include hns

/-- The first unit of some code points is a low surrogate only if the first of them is. -/
theorem textOfUnits_alone (h : ∀ n ∈ ns.head?, ¬ IsPair m n) :
    textOfUnits (m :: unitsOf ns) = charOfPoint m :: textOfUnits (unitsOf ns) := by
  cases ns with
  | nil => rfl
  | cons n ns =>
    have hn := hns n (List.mem_cons_self ..)
    rw [unitsOf_cons, unitsOfPoint]
    split
    next => rw [List.singleton_append, textOfUnits, if_neg (h n rfl)]
    next =>
      have hhigh : ¬ IsPair m (0xD800 + (n - 0x10000) / 0x400) := by
        rw [isPair_iff]
        unfold codePoints at hn
        omega
      rw [List.cons_append, textOfUnits, if_neg hhigh]

theorem textOfUnits_cons (hm : m < codePoints) (h : ∀ n ∈ ns.head?, ¬ IsPair m n) :
    textOfUnits (unitsOf (m :: ns)) = charOfPoint m :: textOfUnits (unitsOf ns) := by
  rw [unitsOf_cons]
  by_cases hsmall : m < 0x10000
  · rw [unitsOfPoint, if_pos hsmall]
    exact textOfUnits_alone hns h
  · obtain ⟨u, v, hunits, hpair, hpoint⟩ := exists_unitsOfPoint (Nat.not_lt.mp hsmall) hm
    rw [hunits, List.cons_append, List.singleton_append, textOfUnits, if_pos hpair,
      pairChar_eq hpair, hpoint]

end

theorem textOfUnits_pair {m n : Nat} (h : IsPair m n) (ns : List Nat) :
    textOfUnits (unitsOf (m :: n :: ns)) =
      charOfPoint (pairPoint m n) :: textOfUnits (unitsOf ns) := by
  obtain ⟨hm, hn⟩ := isPair_iff.mp h
  rw [unitsOf_cons, unitsOf_cons, unitsOfPoint, unitsOfPoint, if_pos (by omega),
    if_pos (by omega), List.singleton_append, List.singleton_append, textOfUnits, if_pos h,
    pairChar_eq h]

/-- The text of some code points has the pairs among them joined. -/
theorem textOfUnits_unitsOf {ns : List Nat} (h : ∀ n ∈ ns, n < codePoints) :
    textOfUnits (unitsOf ns) = (joinPairs ns).map charOfPoint := by
  fun_induction joinPairs ns with
  | case1 m n ns hpair ih =>
    have hrest := fun k hk => h k (List.mem_cons_of_mem _ (List.mem_cons_of_mem _ hk))
    rw [textOfUnits_pair hpair, ih hrest, List.map_cons]
  | case2 m n ns hnot ih =>
    obtain ⟨hm, hrest⟩ := List.forall_mem_cons.mp h
    have halone : ∀ k ∈ (n :: ns).head?, ¬ IsPair m k := by simpa using hnot
    rw [textOfUnits_cons hrest hm halone, ih hrest, List.map_cons]
  | case3 ns hshort =>
    match ns with
    | [] => rfl
    | [m] =>
      have hnone : ∀ n ∈ ([] : List Nat), n < codePoints := fun n hn => absurd hn List.not_mem_nil
      exact textOfUnits_cons hnone (h m (List.mem_cons_self ..)) (by simp)
    | m :: n :: ns => exact absurd rfl (hshort m n ns)

theorem length_joinPairs_le (ns : List Nat) : (joinPairs ns).length ≤ ns.length := by
  fun_induction joinPairs ns with
  | case1 m n ns hpair ih =>
    simp only [List.length_cons]
    omega
  | case2 m n ns hnot ih =>
    simp only [List.length_cons] at *
    omega
  | case3 => exact Nat.le_refl _

theorem joinPairs_eq_self {ns : List Nat} (h : ns.IsChain fun m n => ¬ IsPair m n) :
    joinPairs ns = ns := by
  fun_induction joinPairs ns with
  | case1 m n ns hpair => exact absurd hpair (List.isChain_cons_cons.mp h).1
  | case2 m n ns _ ih => rw [ih (List.isChain_cons_cons.mp h).2]
  | case3 => rfl

theorem length_joinPairs_lt {ns : List Nat} (h : ¬ ns.IsChain fun m n => ¬ IsPair m n) :
    (joinPairs ns).length < ns.length := by
  fun_induction joinPairs ns with
  | case1 m n ns =>
    have := length_joinPairs_le ns
    simp only [List.length_cons]
    omega
  | case2 m n ns hnot ih =>
    have := ih fun hchain => h (List.isChain_cons_cons.mpr ⟨hnot, hchain⟩)
    simp only [List.length_cons] at *
    omega
  | case3 ns hshort =>
    match ns with
    | [] => exact absurd .nil h
    | [m] => exact absurd (.singleton m) h
    | m :: n :: ns => exact absurd rfl (hshort m n ns)

/-! Texts. -/

theorem not_isPair_toNat (c : Char) (n : Nat) : ¬ IsPair c.toNat n := by
  rw [isPair_iff]
  rcases c.valid with h | h
  · have hlt : c.toNat < 0xD800 := h
    omega
  · have hlt : 0xDFFF < c.toNat := h.1
    omega

theorem isChain_pointsOf (s : Text) : (pointsOf s).IsChain fun m n => ¬ IsPair m n := by
  induction s with
  | nil => exact .nil
  | cons c s ih => exact List.isChain_cons.mpr ⟨fun n _ => not_isPair_toNat c n, ih⟩

/-- A text is read back from its units. -/
theorem textOfUnits_pointsOf (s : Text) : textOfUnits (unitsOf (pointsOf s)) = s := by
  have hlt : ∀ n ∈ pointsOf s, n < codePoints := by
    intro n hn
    obtain ⟨c, -, rfl⟩ := List.mem_map.mp hn
    exact toNat_lt_codePoints c
  rw [textOfUnits_unitsOf hlt, joinPairs_eq_self (isChain_pointsOf s), map_charOfPoint_pointsOf]

end MarkupHighlight.Script
