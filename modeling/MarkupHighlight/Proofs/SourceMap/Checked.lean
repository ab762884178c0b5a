import MarkupHighlight.SourceMap.Mappings
import Mathlib.Algebra.Group.Int.Defs
import Mathlib.Algebra.Group.Nat.Defs

/-!
Writing and reading mappings in machine words that never wrap: a step whose exact result does not
fit ends the whole run. What such a run gives is what is written and read without the checks
(`encodeMappings_of_checked`, `decodeMappings_of_checked`), so a run that ends well shows that no
word overflowed.
-/
namespace MarkupHighlight.Checked

/-- The number, if a signed word holds it. -/
def signed (n : Int) : Option Int := if -2 ^ 63 ≤ n ∧ n < 2 ^ 63 then some n else none

/-- The number, if an unsigned word holds it. -/
def unsigned (n : Nat) : Option Nat := if n < Vlq.wordSize then some n else none

theorem signed_eq_some_iff {m n : Int} :
    signed m = some n ↔ (-2 ^ 63 ≤ m ∧ m < 2 ^ 63) ∧ m = n := by
  simp [signed]

theorem unsigned_eq_some_iff {m n : Nat} : unsigned m = some n ↔ m < Vlq.wordSize ∧ m = n := by
  simp [unsigned]

/-! Writing. -/

/-- The digits of a number: its absolute value moves up by one bit, to make room for its sign. -/
def encode (n : Int) : Option Text :=
  if n < 0 then do
    let magnitude ← signed (-n)
    let moved ← unsigned (magnitude.toNat <<< 1)
    return Vlq.encodeNat (moved ||| 1)
  else do
    let moved ← unsigned (n.toNat <<< 1)
    return Vlq.encodeNat moved

/-- The digits of what an offset adds to the one before. -/
def encodeDelta (m : Nat) (base : Int) : Option Text := do
  let n ← signed m
  let delta ← signed (n - base)
  encode delta

def encodeMapping (b : MappingBase) (m : Mapping) : Option Text := do
  let column ← encodeDelta m.generatedColumn b.generatedColumn
  let index ← encodeDelta m.sourceIndex b.sourceIndex
  let line ← encodeDelta m.sourceLine b.sourceLine
  let sourceColumn ← encodeDelta m.sourceColumn b.sourceColumn
  return column ++ index ++ line ++ sourceColumn

def encodeLine (b : MappingBase) : List Mapping → Option (List Text × MappingBase)
  | [] => some ([], b)
  | m :: ms => do
      let text ← encodeMapping b m
      let (texts, last) ← encodeLine m.base ms
      return (text :: texts, last)

def encodeLines (b : MappingBase) (line : Nat) : Nat → List Mapping → Option (List Text)
  | 0, _ => some []
  | count + 1, ms => do
      let (texts, last) ←
        encodeLine { b with generatedColumn := 0 } (ms.takeWhile (·.generatedLine == line))
      let more ← encodeLines last (line + 1) count (ms.dropWhile (·.generatedLine == line))
      return joinWith [','] texts :: more

def encodeMappings (ms : List Mapping) (lineCount : Nat) : Option Text :=
  (encodeLines {} 0 lineCount ms).map (joinWith [';'])

/-! Reading. -/

/-- Reads the numbers of a row of digits, as `Vlq.decodeFrom` does. -/
def decodeFrom (low shift : Nat) : Text → Option (List Int)
  | [] => if shift = 0 then some [] else none
  | c :: s => do
      let d ← Vlq.digit? c
      let moved ← unsigned ((d % 32) <<< shift)
      let value ← unsigned (low + moved)
      if 32 ≤ d then
        if shift + 5 > 60 then none else decodeFrom value (shift + 5) s
      else
        let number ← signed (Vlq.unzigzag value)
        let more ← decodeFrom 0 0 s
        return number :: more

def decode (s : Text) : Option (List Int) := decodeFrom 0 0 s

def decodeMapping (b : MappingBase) (line : Nat) (s : Text) : Option (Mapping × MappingBase) := do
  let [column, index, sourceLine, sourceColumn] ← decode s | none
  let next : MappingBase :=
    ⟨← signed (b.generatedColumn + column), ← signed (b.sourceIndex + index),
      ← signed (b.sourceLine + sourceLine), ← signed (b.sourceColumn + sourceColumn)⟩
  if 0 ≤ next.generatedColumn ∧ 0 ≤ next.sourceIndex ∧ 0 ≤ next.sourceLine ∧
      0 ≤ next.sourceColumn then
    some (⟨line, next.generatedColumn.toNat, next.sourceIndex.toNat, next.sourceLine.toNat,
      next.sourceColumn.toNat⟩, next)
  else none

def decodeLine (b : MappingBase) (line : Nat) : List Text → Option (List Mapping × MappingBase)
  | [] => some ([], b)
  | s :: rest => do
      if s.isEmpty then decodeLine b line rest
      else
        let (m, next) ← decodeMapping b line s
        let (ms, last) ← decodeLine next line rest
        return (m :: ms, last)

def decodeLines (b : MappingBase) (line : Nat) : List Text → Option (List Mapping)
  | [] => some []
  | l :: ls => do
      let (ms, last) ← decodeLine { b with generatedColumn := 0 } line (splitOnChar ',' l)
      let more ← decodeLines last (line + 1) ls
      return ms ++ more

def decodeMappings (s : Text) : Option (List Mapping) := decodeLines {} 0 (splitOnChar ';' s)

/-! What is written with checks is what is written without them. -/

/-- A number is written exactly if its absolute value has at most 63 bits. -/
theorem encode_eq_some_iff {n : Int} {t : Text} :
    encode n = some t ↔ n.natAbs < 2 ^ 63 ∧ t = Vlq.encode n := by
  have hor (k : Nat) : k * 2 ||| 1 = 2 * k + 1 := by
    have := Nat.two_pow_add_eq_or_of_lt (by decide : 1 < 2 ^ 1) k
    rw [Nat.pow_one] at this
    rw [Nat.mul_comm, ← this]
  by_cases hn : n < 0
  · have habs : (-n).toNat = n.natAbs := by omega
    simp only [encode, if_pos hn, signed, unsigned, Vlq.encode, Vlq.zigzag, Vlq.wordSize]
    by_cases hfits : n.natAbs < 2 ^ 63
    · rw [if_pos (by omega)]
      simp only [Option.bind_eq_bind, Option.bind_some, habs, Nat.shiftLeft_eq, Nat.pow_one]
      rw [if_pos (by omega)]
      simp only [Option.bind_some, hor, Option.pure_def, Option.some.injEq, hfits, true_and]
      exact eq_comm
    · rw [if_neg (by omega)]
      simp only [Option.bind_eq_bind, Option.bind_none, reduceCtorEq, hfits, false_and]
  · have habs : n.toNat = n.natAbs := by omega
    simp only [encode, if_neg hn, unsigned, Vlq.encode, Vlq.zigzag, Vlq.wordSize, habs,
      Nat.shiftLeft_eq, Nat.pow_one, Nat.mul_comm _ 2]
    by_cases hfits : n.natAbs < 2 ^ 63
    · rw [if_pos (by omega)]
      simp only [Option.bind_eq_bind, Option.bind_some, Option.pure_def, Option.some.injEq, hfits,
        true_and]
      exact eq_comm
    · rw [if_neg (by omega)]
      simp only [Option.bind_eq_bind, Option.bind_none, reduceCtorEq, hfits, false_and]

theorem encodeDelta_eq_some_iff {m : Nat} {base : Int} {t : Text} :
    encodeDelta m base = some t ↔
      m < 2 ^ 63 ∧ (m - base).natAbs < 2 ^ 63 ∧ t = Vlq.encode (m - base) := by
  simp only [encodeDelta, Option.bind_eq_bind, Option.bind_eq_some_iff, signed_eq_some_iff,
    encode_eq_some_iff]
  constructor
  · rintro ⟨_, ⟨hm, rfl⟩, _, ⟨-, rfl⟩, hdelta, rfl⟩
    exact ⟨by omega, hdelta, rfl⟩
  · rintro ⟨hm, hdelta, rfl⟩
    exact ⟨m, ⟨by omega, rfl⟩, _, ⟨by omega, rfl⟩, hdelta, rfl⟩

theorem encodeMapping_of_checked {b : MappingBase} {m : Mapping} {t : Text}
    (h : encodeMapping b m = some t) : MarkupHighlight.encodeMapping b m = t := by
  simp only [encodeMapping, Option.bind_eq_bind, Option.bind_eq_some_iff,
    encodeDelta_eq_some_iff] at h
  obtain ⟨_, ⟨-, -, rfl⟩, _, ⟨-, -, rfl⟩, _, ⟨-, -, rfl⟩, _, ⟨-, -, rfl⟩, h⟩ := h
  exact Option.some.inj h

theorem encodeLine_of_checked {b : MappingBase} {ms : List Mapping}
    {r : List Text × MappingBase} (h : encodeLine b ms = some r) :
    MarkupHighlight.encodeLine b ms = r := by
  induction ms generalizing b r with
  | nil => exact Option.some.inj h
  | cons m ms ih =>
    simp only [encodeLine, Option.bind_eq_bind, Option.bind_eq_some_iff] at h
    obtain ⟨text, htext, rest, hrest, h⟩ := h
    obtain rfl := Option.some.inj h
    rw [MarkupHighlight.encodeLine, encodeMapping_of_checked htext, ih hrest]

theorem encodeLines_of_checked {b : MappingBase} {line count : Nat} {ms : List Mapping}
    {ts : List Text} (h : encodeLines b line count ms = some ts) :
    MarkupHighlight.encodeLines b line count ms = ts := by
  induction count generalizing b line ms ts with
  | zero => exact Option.some.inj h
  | succ count ih =>
    simp only [encodeLines, Option.bind_eq_bind, Option.bind_eq_some_iff] at h
    obtain ⟨⟨texts, last⟩, hfirst, more, hmore, h⟩ := h
    obtain rfl := Option.some.inj h
    simp only [MarkupHighlight.encodeLines, encodeLine_of_checked hfirst, ih hmore]

theorem encodeMappings_of_checked {ms : List Mapping} {count : Nat} {t : Text}
    (h : encodeMappings ms count = some t) : MarkupHighlight.encodeMappings ms count = t := by
  obtain ⟨ts, hts, rfl⟩ := Option.map_eq_some_iff.mp h
  rw [MarkupHighlight.encodeMappings, encodeLines_of_checked hts]

/-! What is read with checks is what is read without them. -/

theorem decodeFrom_of_checked {low shift : Nat} {s : Text} {vs : List Int}
    (h : decodeFrom low shift s = some vs) : Vlq.decodeFrom low shift s = some vs := by
  induction s generalizing low shift vs with
  | nil => exact h
  | cons c s ih =>
    simp only [decodeFrom, Option.bind_eq_bind, Option.bind_eq_some_iff,
      unsigned_eq_some_iff] at h
    obtain ⟨d, hd, _, ⟨-, rfl⟩, _, ⟨hvalue, rfl⟩, h⟩ := h
    rw [Vlq.decodeFrom, hd]
    simp only [Option.bind_eq_bind, Option.bind_some, Nat.mod_eq_of_lt hvalue]
    split at h
    next hmore =>
      rw [if_pos hmore]
      split at h
      next => cases h
      next hshift => rw [if_neg hshift, ih h]
    next hlast =>
      rw [if_neg hlast]
      simp only [Option.bind_eq_some_iff, signed_eq_some_iff] at h
      obtain ⟨_, ⟨-, rfl⟩, more, hrest, h⟩ := h
      rw [ih hrest]
      exact h

/-- The sums of a base and four numbers are kept as they are if they fit. -/
theorem wrapSum_of_signed {m n : Int} (h : signed m = some n) : wrapSum m = n := by
  obtain ⟨hfits, rfl⟩ := signed_eq_some_iff.mp h
  unfold wrapSum Vlq.wordSize
  apply Int.bmod_eq_of_le <;> omega

theorem decodeMapping_of_checked {b : MappingBase} {line : Nat} {s : Text}
    {r : Mapping × MappingBase} (h : decodeMapping b line s = some r) :
    MarkupHighlight.decodeMapping b line s = some r := by
  unfold decodeMapping at h
  simp only [Option.bind_eq_bind, Option.bind_eq_some_iff] at h
  obtain ⟨vs, hvs, h⟩ := h
  have hread : Vlq.decode s = some vs := decodeFrom_of_checked hvs
  split at h
  next column index sourceLine sourceColumn =>
    simp only [Option.bind_eq_some_iff] at h
    obtain ⟨_, h₁, _, h₂, _, h₃, _, h₄, h⟩ := h
    simp only [MarkupHighlight.decodeMapping, hread, Option.bind_eq_bind, Option.bind_some,
      wrapSum_of_signed h₁, wrapSum_of_signed h₂, wrapSum_of_signed h₃, wrapSum_of_signed h₄]
    exact h
  next => cases h

theorem decodeLine_of_checked {b : MappingBase} {line : Nat} {ts : List Text}
    {r : List Mapping × MappingBase} (h : decodeLine b line ts = some r) :
    MarkupHighlight.decodeLine b line ts = some r := by
  induction ts generalizing b r with
  | nil => exact h
  | cons t ts ih =>
    rw [decodeLine] at h
    rw [MarkupHighlight.decodeLine]
    split at h
    next hempty => rw [if_pos hempty, ih h]
    next hempty =>
      simp only [Option.bind_eq_bind, Option.bind_eq_some_iff] at h
      obtain ⟨⟨m, next⟩, hm, ⟨ms, last⟩, hms, h⟩ := h
      rw [if_neg hempty, decodeMapping_of_checked hm]
      simp only [Option.bind_eq_bind, Option.bind_some, ih hms]
      exact h

theorem decodeLines_of_checked {b : MappingBase} {line : Nat} {ls : List Text}
    {ms : List Mapping} (h : decodeLines b line ls = some ms) :
    MarkupHighlight.decodeLines b line ls = some ms := by
  induction ls generalizing b line ms with
  | nil => exact h
  | cons l ls ih =>
    simp only [decodeLines, Option.bind_eq_bind, Option.bind_eq_some_iff] at h
    obtain ⟨⟨first, last⟩, hfirst, more, hmore, h⟩ := h
    simp only [MarkupHighlight.decodeLines, decodeLine_of_checked hfirst, ih hmore,
      Option.bind_eq_bind, Option.bind_some]
    exact h

theorem decodeMappings_of_checked {s : Text} {ms : List Mapping}
    (h : decodeMappings s = some ms) : MarkupHighlight.decodeMappings s = some ms :=
  decodeLines_of_checked h

end MarkupHighlight.Checked
