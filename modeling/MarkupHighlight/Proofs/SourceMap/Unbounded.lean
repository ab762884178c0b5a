import MarkupHighlight.Proofs.SourceMap.Decoding
import Mathlib.Data.Nat.Digits.Defs
import Mathlib.Tactic.Ring

/-!
What a `mappings` text says when its numbers may have any size, and what the reader makes of it. It
reads a number of up to thirteen digits, but only modulo the size of a word. `decodeMappings_exact`
says that its answers are what the text says exactly if no number is larger than a word, and that
some place would not fit in 63 bits if one is.
-/
namespace MarkupHighlight

namespace Vlq

/-! The numbers of a row of digits. -/

/-- The groups of five bits, low one first, of each number in a row of digits. -/
def groups? : Text → Option (List (List Nat))
  | [] => some []
  | c :: s => do
      let d ← digit? c
      let more ← groups? s
      if 32 ≤ d then
        match more with
        | [] => none
        | g :: gs => some (((d - 32) :: g) :: gs)
      else some ([d] :: more)

/-- What a number with its sign in the lowest bit stands for, every group at its full weight. -/
def exactValue (g : List Nat) : Int := unzigzag (Nat.ofDigits 32 g)

/-- The same, but without the bits that a word has no room for. -/
def wordValue (g : List Nat) : Int := unzigzag (Nat.ofDigits 32 g % wordSize)

theorem digit?_lt {c : Char} {d : Nat} (h : digit? c = some d) : d < 64 := by
  obtain ⟨hlt, -⟩ := List.findIdx?_eq_some_iff_getElem.mp h
  exact hlt

/-- What one more digit in front does: the last digit of a number stands alone, and any other joins
the number behind it. -/
theorem groups?_cons_eq_some_iff {c : Char} {s : Text} {gs : List (List Nat)} :
    groups? (c :: s) = some gs ↔ ∃ d more, digit? c = some d ∧ groups? s = some more ∧
      (d < 32 ∧ gs = [d] :: more ∨
        32 ≤ d ∧ ∃ g rest, more = g :: rest ∧ gs = ((d - 32) :: g) :: rest) := by
  simp only [groups?, Option.bind_eq_bind, Option.bind_eq_some_iff]
  constructor
  · rintro ⟨d, hd, more, hmore, h⟩
    split at h
    next hnotLast =>
      cases more with
      | nil => cases h
      | cons g rest =>
        exact ⟨d, _, hd, hmore, .inr ⟨hnotLast, g, rest, rfl, (Option.some.inj h).symm⟩⟩
    next hlast =>
      exact ⟨d, more, hd, hmore, .inl ⟨Nat.lt_of_not_le hlast, (Option.some.inj h).symm⟩⟩
  · rintro ⟨d, more, hd, hmore, ⟨hlast, rfl⟩ | ⟨hnotLast, g, rest, rfl, rfl⟩⟩
    · exact ⟨d, hd, more, hmore, if_neg (Nat.not_le.mpr hlast)⟩
    · exact ⟨d, hd, _, hmore, if_pos hnotLast⟩

/-- Every number has a digit. -/
theorem ne_nil_of_groups? {s : Text} {gs : List (List Nat)} (h : groups? s = some gs) :
    ∀ g ∈ gs, g ≠ [] := by
  induction s generalizing gs with
  | nil =>
    obtain rfl := Option.some.inj h
    exact List.forall_mem_nil _
  | cons c s ih =>
    obtain ⟨d, more, -, hmore, ⟨-, rfl⟩ | ⟨-, g, rest, rfl, rfl⟩⟩ := groups?_cons_eq_some_iff.mp h
    · exact List.forall_mem_cons.mpr ⟨List.cons_ne_nil _ _, ih hmore⟩
    · obtain ⟨-, hrest⟩ := List.forall_mem_cons.mp (ih hmore)
      exact List.forall_mem_cons.mpr ⟨List.cons_ne_nil _ _, hrest⟩

/-- What the reader makes of the groups of a row of digits if it has read `k` groups of the first
number already, which come to `low`. -/
def valuesFrom (low k : Nat) : List (List Nat) → Option (List Int)
  | [] => if k = 0 then some [] else none
  | g :: gs =>
      if k + g.length ≤ 13 ∧ ∀ h ∈ gs, h.length ≤ 13 then
        some (unzigzag ((low + 32 ^ k * Nat.ofDigits 32 g) % wordSize) :: gs.map wordValue)
      else none

theorem valuesFrom_zero (gs : List (List Nat)) :
    valuesFrom 0 0 gs = if ∀ g ∈ gs, g.length ≤ 13 then some (gs.map wordValue) else none := by
  cases gs with
  | nil => rfl
  | cons g gs => simp [valuesFrom, wordValue]

/-- A digit that is not the last one of its number joins the groups read already. -/
theorem valuesFrom_digit {low k d : Nat} (g : List Nat) (gs : List (List Nat)) :
    valuesFrom (low + d * 32 ^ k) (k + 1) (g :: gs) = valuesFrom low k ((d :: g) :: gs) := by
  have hvalue : low + d * 32 ^ k + 32 ^ (k + 1) * Nat.ofDigits 32 g =
      low + 32 ^ k * Nat.ofDigits 32 (d :: g) := by
    rw [Nat.ofDigits_cons]
    ring
  rw [valuesFrom, valuesFrom, hvalue, List.length_cons, Nat.add_assoc, Nat.add_comm 1]

/-- The last digit of a number leaves the others to be read from the start. -/
theorem valuesFrom_last {low k d : Nat} (hk : k ≤ 12) (gs : List (List Nat)) :
    valuesFrom low k ([d] :: gs) =
      (valuesFrom 0 0 gs).map (unzigzag ((low + d * 32 ^ k) % wordSize) :: ·) := by
  have hshort : k + [d].length ≤ 13 := by
    rw [List.length_singleton]
    omega
  rw [valuesFrom, valuesFrom_zero, Nat.ofDigits_singleton, Nat.mul_comm (32 ^ k)]
  simp only [hshort, true_and]
  split <;> rfl

/-- A thirteenth digit must be the last one of its number. -/
theorem valuesFrom_tooLong {low d : Nat} {g : List Nat} (hg : g ≠ []) (gs : List (List Nat)) :
    valuesFrom low 12 ((d :: g) :: gs) = none := by
  have := List.length_pos_iff.mpr hg
  refine if_neg ?_
  rintro ⟨hshort, -⟩
  rw [List.length_cons] at hshort
  omega

theorem two_pow_five_mul (k : Nat) : 2 ^ (5 * k) = 32 ^ k := Nat.pow_mul 2 5 k

/-- One more group leaves what was read below the next weight. -/
theorem add_mul_pow_lt {low k d : Nat} (hlow : low < 32 ^ k) (hd : d < 32) :
    low + d * 32 ^ k < 32 ^ (k + 1) := by
  have hpow : 32 ^ (k + 1) = 32 * 32 ^ k := Nat.pow_succ'
  have := Nat.mul_le_mul_right (32 ^ k) (Nat.le_of_lt_succ hd)
  omega

theorem pow_lt_wordSize {k : Nat} (hk : k ≤ 12) : 32 ^ k < wordSize :=
  Nat.lt_of_le_of_lt (Nat.pow_le_pow_right (by decide) hk) (by decide)

/-- The reader takes the numbers of a row of digits modulo the size of a word. -/
theorem decodeFrom_eq (s : Text) {low k : Nat} (hk : k ≤ 12) (hlow : low < 32 ^ k) :
    decodeFrom low (5 * k) s = (groups? s).bind (valuesFrom low k) := by
  induction s generalizing low k with
  | nil =>
    show (if 5 * k = 0 then _ else _) = (if k = 0 then _ else _)
    simp only [Nat.mul_eq_zero, reduceCtorEq, false_or]
  | cons c s ih =>
    rw [decodeFrom, groups?]
    cases hd : digit? c with
    | none => rfl
    | some d =>
      have hlt := digit?_lt hd
      simp only [Option.bind_eq_bind, Option.bind_some, Nat.shiftLeft_eq, two_pow_five_mul]
      by_cases hmore : 32 ≤ d
      · have hdigit : d % 32 = d - 32 := by omega
        simp only [if_pos hmore, hdigit]
        by_cases hfull : 5 * k + 5 > 60
        · obtain rfl : k = 12 := by omega
          rw [if_pos hfull]
          rcases hgs : groups? s with - | - | ⟨g, gs⟩
          · rfl
          · rfl
          · have hg := ne_nil_of_groups? hgs g (List.mem_cons_self ..)
            exact (valuesFrom_tooLong hg gs).symm
        · have hnext := add_mul_pow_lt hlow (by omega : d - 32 < 32)
          have hword := Nat.lt_trans hnext (pow_lt_wordSize (by omega))
          rw [if_neg hfull, Nat.mod_eq_of_lt hword, ← Nat.mul_succ 5 k, ih (by omega) hnext]
          rcases groups? s with - | - | ⟨g, gs⟩
          · rfl
          · rfl
          · exact valuesFrom_digit g gs
      · have hread : decodeFrom 0 0 s = (groups? s).bind (valuesFrom 0 0) :=
          ih (Nat.zero_le _) (by decide)
        simp only [if_neg hmore, hread, Nat.mod_eq_of_lt (by omega : d < 32)]
        cases groups? s with
        | none => rfl
        | some gs =>
          simp only [Option.bind_some, valuesFrom_last hk]
          cases valuesFrom 0 0 gs <;> rfl

theorem decode_eq_some_iff {s : Text} {vs : List Int} :
    decode s = some vs ↔ ∃ gs, groups? s = some gs ∧ (∀ g ∈ gs, g.length ≤ 13) ∧
      vs = gs.map wordValue := by
  have hread : decodeFrom 0 0 s = (groups? s).bind (valuesFrom 0 0) :=
    decodeFrom_eq s (Nat.zero_le _) (by decide)
  simp only [decode, hread, Option.bind_eq_some_iff, valuesFrom_zero]
  constructor
  · rintro ⟨gs, hgs, h⟩
    split at h
    next hshort => exact ⟨gs, hgs, hshort, (Option.some.inj h).symm⟩
    next => cases h
  · rintro ⟨gs, hgs, hshort, rfl⟩
    exact ⟨gs, hgs, if_pos hshort⟩

theorem natAbs_unzigzag (n : Nat) : (unzigzag n).natAbs = n / 2 := by
  unfold unzigzag
  split <;> omega

theorem natAbs_wordValue_lt (g : List Nat) : (wordValue g).natAbs < 2 ^ 63 := by
  have := Nat.mod_lt (Nat.ofDigits 32 g) (by decide : 0 < wordSize)
  rw [wordValue, natAbs_unzigzag]
  unfold wordSize at *
  omega

/-- A word holds a number exactly if its absolute value has at most 63 bits. -/
theorem ofDigits_lt_iff {g : List Nat} :
    Nat.ofDigits 32 g < wordSize ↔ (exactValue g).natAbs < 2 ^ 63 := by
  rw [exactValue, natAbs_unzigzag]
  unfold wordSize
  omega

theorem wordValue_eq {g : List Nat} (h : Nat.ofDigits 32 g < wordSize) :
    wordValue g = exactValue g := by
  rw [wordValue, exactValue, Nat.mod_eq_of_lt h]

/-! Which rows of digits write numbers. -/

/-- The character is the last digit of a number. -/
def endsNumber (c : Char) : Bool := (digit? c).any (· < 32)

/-- A row of digits that writes four numbers, the last of which is complete. -/
structure WritesFour (s : Text) : Prop where
  digits : ∀ c ∈ s, c ∈ alphabet
  last : ∀ c ∈ s.getLast?, endsNumber c = true
  four : s.countP endsNumber = 4

theorem mem_alphabet_iff {c : Char} : c ∈ alphabet ↔ ∃ d, digit? c = some d := by
  rw [← Option.isSome_iff_exists, digit?, List.findIdx?_isSome, List.any_eq_true]
  simp

theorem groups?_eq_nil_iff {s : Text} : groups? s = some [] ↔ s = [] := by
  constructor
  · intro h
    cases s with
    | nil => rfl
    | cons c s =>
      obtain ⟨d, more, -, -, ⟨-, hgs⟩ | ⟨-, g, rest, -, hgs⟩⟩ := groups?_cons_eq_some_iff.mp h <;>
        cases hgs
  · rintro rfl
    rfl

theorem endsNumber_iff {c : Char} {d : Nat} (h : digit? c = some d) :
    endsNumber c = true ↔ d < 32 := by
  rw [endsNumber, h, Option.any_some, decide_eq_true_iff]

/-- Numbers can be told apart if all characters are digits and the last one ends a number. -/
theorem exists_groups?_iff {s : Text} {n : Nat} :
    (∃ gs, groups? s = some gs ∧ gs.length = n) ↔
      (∀ c ∈ s, c ∈ alphabet) ∧ (∀ c ∈ s.getLast?, endsNumber c = true) ∧
        s.countP endsNumber = n := by
  induction s generalizing n with
  | nil => simp [groups?]
  | cons c s ih =>
    have hlast : (∀ x ∈ (c :: s).getLast?, endsNumber x = true) ↔
        (s = [] → endsNumber c = true) ∧ ∀ x ∈ s.getLast?, endsNumber x = true := by
      obtain rfl | ⟨front, x, rfl⟩ := List.eq_nil_or_concat s <;> simp [List.getLast?_cons]
    rw [hlast, List.forall_mem_cons, mem_alphabet_iff]
    constructor
    · rintro ⟨gs, hgs, rfl⟩
      obtain ⟨d, more, hd, hmore, hgs⟩ := groups?_cons_eq_some_iff.mp hgs
      obtain ⟨hdigits, hfinished, hcount⟩ := ih.mp ⟨more, hmore, rfl⟩
      obtain ⟨hends, rfl⟩ | ⟨hends, g, rest, rfl, rfl⟩ := hgs
      · have hends := (endsNumber_iff hd).mpr hends
        refine ⟨⟨⟨d, hd⟩, hdigits⟩, ⟨fun _ => hends, hfinished⟩, ?_⟩
        rw [List.countP_cons_of_pos hends, hcount, List.length_cons]
      · have hends := mt (endsNumber_iff hd).mp (Nat.not_lt.mpr hends)
        refine ⟨⟨⟨d, hd⟩, hdigits⟩, ⟨?_, hfinished⟩, ?_⟩
        · rintro rfl
          cases hmore
        · rw [List.countP_cons_of_neg hends, hcount, List.length_cons, List.length_cons]
    · rintro ⟨⟨⟨d, hd⟩, hdigits⟩, ⟨hends, hfinished⟩, rfl⟩
      obtain ⟨more, hmore, hlength⟩ := ih.mpr ⟨hdigits, hfinished, rfl⟩
      by_cases hsmall : d < 32
      · refine ⟨[d] :: more, groups?_cons_eq_some_iff.mpr ⟨d, more, hd, hmore, ?_⟩, ?_⟩
        · exact .inl ⟨hsmall, rfl⟩
        · rw [List.countP_cons_of_pos ((endsNumber_iff hd).mpr hsmall), List.length_cons, hlength]
      · have hnot := mt (endsNumber_iff hd).mp hsmall
        cases more with
        | nil => exact absurd (hends (groups?_eq_nil_iff.mp hmore)) hnot
        | cons g rest =>
          refine ⟨((d - 32) :: g) :: rest,
            groups?_cons_eq_some_iff.mpr ⟨d, _, hd, hmore, ?_⟩, ?_⟩
          · exact .inr ⟨Nat.le_of_not_lt hsmall, g, rest, rfl, rfl⟩
          · rw [List.countP_cons_of_neg hnot, ← hlength, List.length_cons, List.length_cons]

end Vlq

/-! Mappings as they are written. -/

/-- The line of a mapping and the digit groups of its four numbers. -/
structure WrittenMapping where
  line : Nat
  generatedColumn : List Nat
  sourceIndex : List Nat
  sourceLine : List Nat
  sourceColumn : List Nat
  deriving DecidableEq, Repr

namespace WrittenMapping

def numbers (w : WrittenMapping) : List (List Nat) :=
  [w.generatedColumn, w.sourceIndex, w.sourceLine, w.sourceColumn]

/-- No number has more than thirteen digits. -/
def Short (w : WrittenMapping) : Prop := ∀ g ∈ w.numbers, g.length ≤ 13

/-- Every number is one that a word holds. -/
def FitsWord (w : WrittenMapping) : Prop := ∀ g ∈ w.numbers, Nat.ofDigits 32 g < Vlq.wordSize

def delta (value : List Nat → Int) (w : WrittenMapping) : MappingBase :=
  ⟨value w.generatedColumn, value w.sourceIndex, value w.sourceLine, value w.sourceColumn⟩

/-- A row of digits that writes four numbers. -/
def ofDigits? (line : Nat) (s : Text) : Option WrittenMapping :=
  match Vlq.groups? s with
  | some [column, index, sourceLine, sourceColumn] =>
      some ⟨line, column, index, sourceLine, sourceColumn⟩
  | _ => none

/-- The mappings of one line. An empty text is none. -/
def ofLine? (line : Nat) : List Text → Option (List WrittenMapping)
  | [] => some []
  | s :: rest =>
      if s.isEmpty then ofLine? line rest
      else do
        let w ← ofDigits? line s
        let ws ← ofLine? line rest
        return w :: ws

def ofLines? (line : Nat) : List Text → Option (List WrittenMapping)
  | [] => some []
  | l :: ls => do
      let ws ← ofLine? line (splitOnChar ',' l)
      let more ← ofLines? (line + 1) ls
      return ws ++ more

/-- The mappings that a text writes, one for each text that is not empty between the separators. -/
def ofText? (s : Text) : Option (List WrittenMapping) := ofLines? 0 (splitOnChar ';' s)

end WrittenMapping

def MappingBase.plus (b d : MappingBase) : MappingBase :=
  ⟨b.generatedColumn + d.generatedColumn, b.sourceIndex + d.sourceIndex,
    b.sourceLine + d.sourceLine, b.sourceColumn + d.sourceColumn⟩

/-- The lines and the places of mappings behind one on line `line` with the place `b`: the sums of
all numbers up to there, but of the generated columns only of those on the same line. -/
def placesFrom (value : List Nat → Int) (line : Nat) (b : MappingBase) :
    List WrittenMapping → List (Nat × MappingBase)
  | [] => []
  | w :: ws =>
      let start := if w.line = line then b else { b with generatedColumn := 0 }
      let place := start.plus (w.delta value)
      (w.line, place) :: placesFrom value w.line place ws

/-- The lines and the places that mappings write, for a way to read numbers. -/
def placesOf (value : List Nat → Int) (ws : List WrittenMapping) : List (Nat × MappingBase) :=
  placesFrom value 0 {} ws

/-- The line and the place of a mapping that was read. -/
def Mapping.place (m : Mapping) : Nat × MappingBase := (m.generatedLine, m.base)

/-- The place behind the last one of some. -/
def lastPlace (b : MappingBase) : List (Nat × MappingBase) → MappingBase
  | [] => b
  | p :: ps => lastPlace p.2 ps

/-- All mappings of a text are rows of digits that write four numbers. -/
def WellWritten (s : Text) : Prop :=
  ∀ l ∈ splitOnChar ';' s, ∀ t ∈ splitOnChar ',' l, t ≠ [] → Vlq.WritesFour t

/-! What can be read as four numbers. -/

namespace WrittenMapping

theorem ofDigits?_eq_some_iff {line : Nat} {s : Text} {w : WrittenMapping} :
    ofDigits? line s = some w ↔ w.line = line ∧ Vlq.groups? s = some w.numbers := by
  obtain ⟨line', column, index, sourceLine, sourceColumn⟩ := w
  unfold ofDigits? numbers
  constructor
  · intro h
    split at h
    next hread =>
      obtain ⟨rfl, rfl, rfl, rfl, rfl⟩ := mk.inj (Option.some.inj h)
      exact ⟨rfl, hread⟩
    next => cases h
  · rintro ⟨rfl, hread⟩
    rw [hread]

theorem exists_ofDigits?_iff (line : Nat) {s : Text} :
    (∃ w, ofDigits? line s = some w) ↔ Vlq.WritesFour s := by
  constructor
  · rintro ⟨w, h⟩
    obtain ⟨-, hread⟩ := ofDigits?_eq_some_iff.mp h
    obtain ⟨hdigits, hlast, hfour⟩ := Vlq.exists_groups?_iff.mp ⟨_, hread, rfl⟩
    exact ⟨hdigits, hlast, hfour⟩
  · rintro ⟨hdigits, hlast, hfour⟩
    obtain ⟨gs, hread, hlength⟩ := Vlq.exists_groups?_iff.mpr ⟨hdigits, hlast, hfour⟩
    match gs, hlength with
    | [a, b, c, d], _ => exact ⟨⟨line, a, b, c, d⟩, ofDigits?_eq_some_iff.mpr ⟨rfl, hread⟩⟩

theorem exists_ofLine?_iff (line : Nat) {ts : List Text} :
    (∃ ws, ofLine? line ts = some ws) ↔ ∀ t ∈ ts, t ≠ [] → Vlq.WritesFour t := by
  induction ts with
  | nil => simp [ofLine?]
  | cons t ts ih =>
    rw [List.forall_mem_cons, ← ih, ← exists_ofDigits?_iff line, ofLine?]
    by_cases ht : t = []
    · simp [ht]
    · have hne : t.isEmpty = false := by simpa using ht
      simp only [hne, Bool.false_eq_true, if_false, Option.bind_eq_bind, Option.bind_eq_some_iff,
        ne_eq, ht, not_false_eq_true, true_implies]
      constructor
      · rintro ⟨_, w, hw, ws, hws, -⟩
        exact ⟨⟨w, hw⟩, ws, hws⟩
      · rintro ⟨⟨w, hw⟩, ws, hws⟩
        exact ⟨_, w, hw, ws, hws, rfl⟩

theorem exists_ofLines?_iff (line : Nat) {ls : List Text} :
    (∃ ws, ofLines? line ls = some ws) ↔
      ∀ l ∈ ls, ∀ t ∈ splitOnChar ',' l, t ≠ [] → Vlq.WritesFour t := by
  induction ls generalizing line with
  | nil => simp [ofLines?]
  | cons l ls ih =>
    rw [List.forall_mem_cons, ← ih (line + 1), ← exists_ofLine?_iff line,
      ofLines?]
    simp only [Option.bind_eq_bind, Option.bind_eq_some_iff]
    constructor
    · rintro ⟨_, ws, hws, more, hmore, -⟩
      exact ⟨⟨ws, hws⟩, more, hmore⟩
    · rintro ⟨⟨ws, hws⟩, more, hmore⟩
      exact ⟨_, ws, hws, more, hmore, rfl⟩

/-- The mappings of a text can be told apart exactly if each is four numbers. -/
theorem exists_ofText?_iff {s : Text} : (∃ ws, ofText? s = some ws) ↔ WellWritten s :=
  exists_ofLines?_iff 0

theorem line_of_mem_ofLine? {line : Nat} {ts : List Text} {ws : List WrittenMapping}
    (h : ofLine? line ts = some ws) : ∀ w ∈ ws, w.line = line := by
  induction ts generalizing ws with
  | nil =>
    obtain rfl := Option.some.inj h
    exact List.forall_mem_nil _
  | cons t ts ih =>
    rw [ofLine?] at h
    split at h
    · exact ih h
    · simp only [Option.bind_eq_bind, Option.bind_eq_some_iff] at h
      obtain ⟨w, hw, ws, hws, h⟩ := h
      obtain rfl := Option.some.inj h
      exact List.forall_mem_cons.mpr ⟨(ofDigits?_eq_some_iff.mp hw).1, ih hws⟩

theorem le_line_of_mem_ofLines? {line : Nat} {ls : List Text} {ws : List WrittenMapping}
    (h : ofLines? line ls = some ws) : ∀ w ∈ ws, line ≤ w.line := by
  induction ls generalizing line ws with
  | nil =>
    obtain rfl := Option.some.inj h
    exact List.forall_mem_nil _
  | cons l ls ih =>
    simp only [ofLines?, Option.bind_eq_bind, Option.bind_eq_some_iff] at h
    obtain ⟨ws, hws, more, hmore, h⟩ := h
    obtain rfl := Option.some.inj h
    refine List.forall_mem_append.mpr ⟨fun w hw => ?_, fun w hw => ?_⟩
    · exact Nat.le_of_eq (line_of_mem_ofLine? hws w hw).symm
    · have := ih hmore w hw
      omega

end WrittenMapping

/-! The reader, mapping after mapping. -/

theorem wrapSum_eq {n : Int} (h : 0 ≤ n ∧ n < 2 ^ 63) : wrapSum n = n :=
  Checked.wrapSum_of_signed (Checked.signed_eq_some_iff.mpr ⟨by omega, rfl⟩)

/-- A sum that is too large wraps round to one below zero. -/
theorem wrapSum_nonneg_iff {b d : Int} (hb : 0 ≤ b ∧ b < 2 ^ 63) (hd : d.natAbs < 2 ^ 63) :
    0 ≤ wrapSum (b + d) ↔ 0 ≤ b + d ∧ b + d < 2 ^ 63 := by
  constructor
  · intro h
    rw [wrapSum, Int.bmod_def, Vlq.wordSize] at h
    split at h <;> omega
  · intro h
    rw [wrapSum_eq h]
    exact h.1

theorem MappingBase.fits_iff {b : MappingBase} :
    b.Fits ↔ (0 ≤ b.generatedColumn ∧ b.generatedColumn < 2 ^ 63) ∧
      (0 ≤ b.sourceIndex ∧ b.sourceIndex < 2 ^ 63) ∧ (0 ≤ b.sourceLine ∧ b.sourceLine < 2 ^ 63) ∧
        0 ≤ b.sourceColumn ∧ b.sourceColumn < 2 ^ 63 :=
  ⟨fun ⟨h₁, h₂, h₃, h₄⟩ => ⟨h₁, h₂, h₃, h₄⟩, fun ⟨h₁, h₂, h₃, h₄⟩ => ⟨h₁, h₂, h₃, h₄⟩⟩

theorem Mapping.place_eq_iff {m : Mapping} {line : Nat} {b : MappingBase} (hb : b.Fits) :
    m.place = (line, b) ↔ m = ⟨line, b.generatedColumn.toNat, b.sourceIndex.toNat,
      b.sourceLine.toNat, b.sourceColumn.toNat⟩ := by
  obtain ⟨⟨h₁, -⟩, ⟨h₂, -⟩, ⟨h₃, -⟩, h₄, -⟩ := hb
  constructor
  · intro h
    obtain ⟨rfl, rfl⟩ := Prod.mk.inj h
    simp [base]
  · rintro rfl
    simp [place, base, h₁, h₂, h₃, h₄]

/-- The base that is left of sums in words. -/
def MappingBase.wrapped (b : MappingBase) : MappingBase :=
  ⟨wrapSum b.generatedColumn, wrapSum b.sourceIndex, wrapSum b.sourceLine, wrapSum b.sourceColumn⟩

def MappingBase.Nonneg (b : MappingBase) : Prop :=
  0 ≤ b.generatedColumn ∧ 0 ≤ b.sourceIndex ∧ 0 ≤ b.sourceLine ∧ 0 ≤ b.sourceColumn

instance (b : MappingBase) : Decidable b.Nonneg := inferInstanceAs (Decidable (_ ∧ _ ∧ _ ∧ _))

theorem MappingBase.Fits.wrapped {b : MappingBase} (h : b.Fits) : b.wrapped = b := by
  obtain ⟨h₁, h₂, h₃, h₄⟩ := h
  rw [MappingBase.wrapped, wrapSum_eq h₁, wrapSum_eq h₂, wrapSum_eq h₃, wrapSum_eq h₄]

section
variable {b : MappingBase} (hb : b.Fits) {line : Nat}
include hb

theorem nonneg_wrapped_iff (w : WrittenMapping) :
    (b.plus (w.delta Vlq.wordValue)).wrapped.Nonneg ↔ (b.plus (w.delta Vlq.wordValue)).Fits := by
  obtain ⟨h₁, h₂, h₃, h₄⟩ := hb
  rw [MappingBase.fits_iff]
  exact and_congr (wrapSum_nonneg_iff h₁ (Vlq.natAbs_wordValue_lt _))
    (and_congr (wrapSum_nonneg_iff h₂ (Vlq.natAbs_wordValue_lt _))
      (and_congr (wrapSum_nonneg_iff h₃ (Vlq.natAbs_wordValue_lt _))
        (wrapSum_nonneg_iff h₄ (Vlq.natAbs_wordValue_lt _))))

theorem decodeMapping_of_short {s : Text} {w : WrittenMapping}
    (hw : WrittenMapping.ofDigits? line s = some w) (hshort : w.Short) {m : Mapping}
    {next : MappingBase} :
    decodeMapping b line s = some (m, next) ↔
      next = b.plus (w.delta Vlq.wordValue) ∧ next.Fits ∧ m.place = (line, next) := by
  have hread : Vlq.decode s = some (w.numbers.map Vlq.wordValue) :=
    Vlq.decode_eq_some_iff.mpr
      ⟨_, (WrittenMapping.ofDigits?_eq_some_iff.mp hw).2, hshort, rfl⟩
  have hdecode : decodeMapping b line s =
      let next := (b.plus (w.delta Vlq.wordValue)).wrapped
      if next.Nonneg then
        some (⟨line, next.generatedColumn.toNat, next.sourceIndex.toNat, next.sourceLine.toNat,
          next.sourceColumn.toNat⟩, next)
      else none := by
    rw [decodeMapping, hread]
    rfl
  rw [hdecode]
  constructor
  · intro h
    dsimp only at h
    split at h
    next hnonneg =>
      have hfits := (nonneg_wrapped_iff hb w).mp hnonneg
      rw [hfits.wrapped] at h
      obtain ⟨rfl, rfl⟩ := Prod.mk.inj (Option.some.inj h)
      exact ⟨rfl, hfits, (Mapping.place_eq_iff hfits).mpr rfl⟩
    next => cases h
  · rintro ⟨rfl, hfits, hplace⟩
    have hnonneg := (nonneg_wrapped_iff hb w).mpr hfits
    rw [hfits.wrapped] at hnonneg
    simp only [hfits.wrapped, if_pos hnonneg, (Mapping.place_eq_iff hfits).mp hplace]

/-- A mapping is read if it is four numbers of at most thirteen digits, and if it leads to a place
that fits. -/
theorem decodeMapping_eq_some_iff {s : Text} {m : Mapping} {next : MappingBase} :
    decodeMapping b line s = some (m, next) ↔
      ∃ w, WrittenMapping.ofDigits? line s = some w ∧ w.Short ∧
        next = b.plus (w.delta Vlq.wordValue) ∧ next.Fits ∧ m.place = (line, next) := by
  constructor
  · intro h
    have hread : ∃ w, WrittenMapping.ofDigits? line s = some w ∧ w.Short := by
      simp only [decodeMapping, Option.bind_eq_bind, Option.bind_eq_some_iff] at h
      obtain ⟨vs, hvs, h⟩ := h
      obtain ⟨gs, hgs, hshort, rfl⟩ := Vlq.decode_eq_some_iff.mp hvs
      rcases gs with _ | ⟨column, _ | ⟨index, _ | ⟨sourceLine, _ | ⟨sourceColumn, _ | _⟩⟩⟩⟩
      case cons.cons.cons.cons.nil =>
        exact ⟨⟨line, column, index, sourceLine, sourceColumn⟩,
          WrittenMapping.ofDigits?_eq_some_iff.mpr ⟨rfl, hgs⟩, hshort⟩
      all_goals cases h
    obtain ⟨w, hw, hshort⟩ := hread
    exact ⟨w, hw, hshort, (decodeMapping_of_short hb hw hshort).mp h⟩
  · rintro ⟨w, hw, hshort, h⟩
    exact (decodeMapping_of_short hb hw hshort).mpr h

end

/-! The reader, line after line. -/

/-- What the reader makes of mappings behind one on line `line` with the place `b`: they are short,
all their places fit, and these are the places of the mappings that were read. -/
structure ReadAs (line : Nat) (b : MappingBase) (ws : List WrittenMapping) (ms : List Mapping) :
    Prop where
  short : ∀ w ∈ ws, w.Short
  fits : ∀ p ∈ placesFrom Vlq.wordValue line b ws, p.2.Fits
  places : ms.map Mapping.place = placesFrom Vlq.wordValue line b ws

theorem readAs_nil_iff {line : Nat} {b : MappingBase} {ms : List Mapping} :
    ReadAs line b [] ms ↔ ms = [] := by
  constructor
  · intro h
    exact List.map_eq_nil_iff.mp h.places
  · rintro rfl
    exact ⟨List.forall_mem_nil _, List.forall_mem_nil _, rfl⟩

theorem readAs_cons_iff {b : MappingBase} {w : WrittenMapping} {ws : List WrittenMapping}
    {ms : List Mapping} :
    ReadAs w.line b (w :: ws) ms ↔
      ∃ m rest, ms = m :: rest ∧ w.Short ∧ (b.plus (w.delta Vlq.wordValue)).Fits ∧
        m.place = (w.line, b.plus (w.delta Vlq.wordValue)) ∧
        ReadAs w.line (b.plus (w.delta Vlq.wordValue)) ws rest := by
  have hplaces : placesFrom Vlq.wordValue w.line b (w :: ws) =
      (w.line, b.plus (w.delta Vlq.wordValue)) ::
        placesFrom Vlq.wordValue w.line (b.plus (w.delta Vlq.wordValue)) ws := by
    rw [placesFrom, if_pos rfl]
  constructor
  · rintro ⟨hshort, hfits, hms⟩
    rw [hplaces] at hfits hms
    obtain ⟨m, rest, rfl, hm, hrest⟩ := List.map_eq_cons_iff.mp hms
    obtain ⟨hw, hws⟩ := List.forall_mem_cons.mp hshort
    obtain ⟨hfirst, hlater⟩ := List.forall_mem_cons.mp hfits
    exact ⟨m, rest, rfl, hw, hfirst, hm, hws, hlater, hrest⟩
  · rintro ⟨m, rest, rfl, hw, hfirst, hm, hws, hlater, hrest⟩
    refine ⟨List.forall_mem_cons.mpr ⟨hw, hws⟩, ?_, ?_⟩
    · rw [hplaces]
      exact List.forall_mem_cons.mpr ⟨hfirst, hlater⟩
    · rw [hplaces, List.map_cons, hm, hrest]

theorem decodeLine_eq_some_iff {b : MappingBase} (hb : b.Fits) {line : Nat} {ts : List Text}
    {ms : List Mapping} {last : MappingBase} :
    decodeLine b line ts = some (ms, last) ↔
      ∃ ws, WrittenMapping.ofLine? line ts = some ws ∧ ReadAs line b ws ms ∧
        last = lastPlace b (ms.map Mapping.place) := by
  induction ts generalizing b ms with
  | nil =>
    simp only [decodeLine, WrittenMapping.ofLine?, Option.some.injEq, exists_eq_left',
      readAs_nil_iff, Prod.mk.injEq]
    constructor
    · rintro ⟨rfl, rfl⟩
      exact ⟨rfl, rfl⟩
    · rintro ⟨rfl, rfl⟩
      exact ⟨rfl, rfl⟩
  | cons t ts ih =>
    rw [decodeLine, WrittenMapping.ofLine?]
    split
    next => exact ih hb
    next =>
      simp only [Option.bind_eq_bind, Option.bind_eq_some_iff]
      constructor
      · rintro ⟨⟨m, next⟩, hm, ⟨rest, last'⟩, hrest, h⟩
        obtain ⟨rfl, rfl⟩ := Prod.mk.inj (Option.some.inj h)
        obtain ⟨w, hw, hshort, rfl, hfits, hplace⟩ := (decodeMapping_eq_some_iff hb).mp hm
        obtain ⟨ws, hws, hread, rfl⟩ := (ih hfits).mp hrest
        obtain ⟨rfl, -⟩ := WrittenMapping.ofDigits?_eq_some_iff.mp hw
        refine ⟨w :: ws, ⟨w, hw, ws, hws, rfl⟩, ?_, ?_⟩
        · exact readAs_cons_iff.mpr ⟨m, rest, rfl, hshort, hfits, hplace, hread⟩
        · rw [List.map_cons, hplace]
          rfl
      · rintro ⟨_, ⟨w, hw, ws, hws, h⟩, hread, rfl⟩
        obtain rfl := Option.some.inj h
        obtain ⟨rfl, -⟩ := WrittenMapping.ofDigits?_eq_some_iff.mp hw
        obtain ⟨m, rest, rfl, hshort, hfits, hplace, hread⟩ := readAs_cons_iff.mp hread
        have hlast : lastPlace (b.plus (w.delta Vlq.wordValue)) (rest.map Mapping.place) =
            lastPlace b ((m :: rest).map Mapping.place) := by
          rw [List.map_cons, hplace]
          rfl
        exact ⟨(m, _), (decodeMapping_eq_some_iff hb).mpr ⟨w, hw, hshort, rfl, hfits, hplace⟩,
          (rest, _), (ih hfits).mpr ⟨ws, hws, hread, hlast.symm⟩, rfl⟩

/-- On a new line the generated columns start anew. -/
theorem placesFrom_newLine (value : List Nat → Int) {line : Nat} {ws : List WrittenMapping}
    (h : ∀ w ∈ ws, line ≠ w.line) (line' : Nat) (b : MappingBase) :
    placesFrom value line b ws = placesFrom value line' { b with generatedColumn := 0 } ws := by
  cases ws with
  | nil => rfl
  | cons w ws =>
    have hne := h w (List.mem_cons_self ..)
    rw [placesFrom, placesFrom, if_neg (Ne.symm hne)]
    simp only [ite_self]

theorem placesFrom_append {value : List Nat → Int} {line : Nat} {ws : List WrittenMapping}
    (h : ∀ w ∈ ws, w.line = line) (b : MappingBase) (more : List WrittenMapping) :
    placesFrom value line b (ws ++ more) = placesFrom value line b ws ++
      placesFrom value line (lastPlace b (placesFrom value line b ws)) more := by
  induction ws generalizing b with
  | nil => rfl
  | cons w ws ih =>
    obtain ⟨rfl, hws⟩ := List.forall_mem_cons.mp h
    simp only [List.cons_append, placesFrom, if_pos, ih hws, lastPlace]

theorem fits_lastPlace {b : MappingBase} (hb : b.Fits) {ps : List (Nat × MappingBase)}
    (h : ∀ p ∈ ps, p.2.Fits) : (lastPlace b ps).Fits := by
  induction ps generalizing b with
  | nil => exact hb
  | cons p ps ih =>
    obtain ⟨hp, hps⟩ := List.forall_mem_cons.mp h
    exact ih hp hps

/-- Mappings on one line and mappings on later lines. -/
theorem readAs_append_iff {line : Nat} {b : MappingBase} {ws more : List WrittenMapping}
    (hws : ∀ w ∈ ws, w.line = line) (hmore : ∀ w ∈ more, line < w.line) {ms : List Mapping} :
    ReadAs line b (ws ++ more) ms ↔ ∃ first rest, ms = first ++ rest ∧ ReadAs line b ws first ∧
      ReadAs (line + 1)
        { lastPlace b (first.map Mapping.place) with generatedColumn := 0 } more rest := by
  have hlater (b' : MappingBase) := placesFrom_newLine Vlq.wordValue
    (fun w hw => Nat.ne_of_lt (hmore w hw)) (line + 1) b'
  constructor
  · rintro ⟨hshort, hfits, hms⟩
    rw [placesFrom_append hws, hlater] at hfits hms
    obtain ⟨first, rest, rfl, hfirst, hrest⟩ := List.map_eq_append_iff.mp hms
    obtain ⟨hshort, hshort'⟩ := List.forall_mem_append.mp hshort
    obtain ⟨hfits, hfits'⟩ := List.forall_mem_append.mp hfits
    rw [← hfirst] at hfits' hrest
    exact ⟨first, rest, rfl, ⟨hshort, hfits, hfirst⟩, hshort', hfits', hrest⟩
  · rintro ⟨first, rest, rfl, ⟨hshort, hfits, hfirst⟩, hshort', hfits', hrest⟩
    rw [hfirst] at hfits' hrest
    refine ⟨List.forall_mem_append.mpr ⟨hshort, hshort'⟩, ?_, ?_⟩
    · rw [placesFrom_append hws, hlater]
      exact List.forall_mem_append.mpr ⟨hfits, hfits'⟩
    · rw [placesFrom_append hws, hlater, List.map_append, hfirst, hrest]

theorem decodeLines_eq_some_iff {b : MappingBase} (hb : b.Fits) {line : Nat} {ls : List Text}
    {ms : List Mapping} :
    decodeLines b line ls = some ms ↔
      ∃ ws, WrittenMapping.ofLines? line ls = some ws ∧
        ReadAs line { b with generatedColumn := 0 } ws ms := by
  induction ls generalizing b line ms with
  | nil =>
    simp only [decodeLines, WrittenMapping.ofLines?, Option.some.injEq, exists_eq_left',
      readAs_nil_iff]
    exact eq_comm
  | cons l ls ih =>
    simp only [decodeLines, WrittenMapping.ofLines?, Option.bind_eq_bind, Option.bind_eq_some_iff]
    constructor
    · rintro ⟨⟨first, last⟩, hfirst, rest, hrest, h⟩
      obtain rfl := Option.some.inj h
      obtain ⟨ws, hws, hread, rfl⟩ := (decodeLine_eq_some_iff hb.newLine).mp hfirst
      have hlast := fits_lastPlace hb.newLine (hread.places ▸ hread.fits)
      obtain ⟨more, hmore, hread'⟩ := (ih hlast).mp hrest
      refine ⟨ws ++ more, ⟨ws, hws, more, hmore, rfl⟩, ?_⟩
      exact (readAs_append_iff (WrittenMapping.line_of_mem_ofLine? hws)
        (WrittenMapping.le_line_of_mem_ofLines? hmore)).mpr ⟨first, rest, rfl, hread, hread'⟩
    · rintro ⟨_, ⟨ws, hws, more, hmore, h⟩, hread⟩
      obtain rfl := Option.some.inj h
      obtain ⟨first, rest, rfl, hread, hread'⟩ :=
        (readAs_append_iff (WrittenMapping.line_of_mem_ofLine? hws)
          (WrittenMapping.le_line_of_mem_ofLines? hmore)).mp hread
      have hlast := fits_lastPlace hb.newLine (hread.places ▸ hread.fits)
      exact ⟨(first, _), (decodeLine_eq_some_iff hb.newLine).mpr ⟨ws, hws, hread, rfl⟩, rest,
        (ih hlast).mpr ⟨more, hmore, hread'⟩, rfl⟩

/-! Numbers of any size. -/

/-- If no number is larger than a word, the reader takes each for what it is. -/
theorem placesFrom_eq_of_fitsWord {ws : List WrittenMapping} (h : ∀ w ∈ ws, w.FitsWord)
    (line : Nat) (b : MappingBase) :
    placesFrom Vlq.wordValue line b ws = placesFrom Vlq.exactValue line b ws := by
  induction ws generalizing line b with
  | nil => rfl
  | cons w ws ih =>
    obtain ⟨hw, hws⟩ := List.forall_mem_cons.mp h
    have hdelta : w.delta Vlq.wordValue = w.delta Vlq.exactValue := by
      simp only [WrittenMapping.FitsWord, WrittenMapping.numbers, List.forall_mem_cons] at hw
      obtain ⟨h₁, h₂, h₃, h₄, -⟩ := hw
      simp only [WrittenMapping.delta, Vlq.wordValue_eq h₁, Vlq.wordValue_eq h₂,
        Vlq.wordValue_eq h₃, Vlq.wordValue_eq h₄]
    rw [placesFrom, placesFrom, hdelta, ih hws]

/-- From a place that fits to another one a number leads that a word holds. -/
theorem fitsWord_of_fits {b : MappingBase} (hb : b.Fits) {w : WrittenMapping}
    (h : (b.plus (w.delta Vlq.exactValue)).Fits) : w.FitsWord := by
  obtain ⟨hb₁, hb₂, hb₃, hb₄⟩ := hb
  obtain ⟨h₁, h₂, h₃, h₄⟩ := h
  simp only [MappingBase.plus, WrittenMapping.delta] at h₁ h₂ h₃ h₄
  simp only [WrittenMapping.FitsWord, WrittenMapping.numbers, List.forall_mem_cons,
    Vlq.ofDigits_lt_iff]
  refine ⟨?_, ?_, ?_, ?_, List.forall_mem_nil _⟩ <;> omega

theorem fitsWord_of_places {b : MappingBase} (hb : b.Fits) {line : Nat} {ws : List WrittenMapping}
    (h : ∀ p ∈ placesFrom Vlq.exactValue line b ws, p.2.Fits) : ∀ w ∈ ws, w.FitsWord := by
  induction ws generalizing line b with
  | nil => exact List.forall_mem_nil _
  | cons w ws ih =>
    rw [placesFrom] at h
    obtain ⟨hplace, hplaces⟩ := List.forall_mem_cons.mp h
    refine List.forall_mem_cons.mpr ⟨?_, ih hplace hplaces⟩
    simp only at hplace
    split at hplace
    · exact fitsWord_of_fits hb hplace
    · exact fitsWord_of_fits hb.newLine hplace

theorem decodeMappings_eq_some_iff {s : Text} {ms : List Mapping} :
    decodeMappings s = some ms ↔ ∃ ws, WrittenMapping.ofText? s = some ws ∧ ReadAs 0 {} ws ms :=
  decodeLines_eq_some_iff MappingBase.Fits.zero

/-- A text with a mapping that is not four numbers is refused. Of any other text the answer is a
list of mappings exactly if no number has more than thirteen digits and all places fit in 63 bits,
and then the mappings are at these places; but numbers count modulo the size of a word. If no number
is larger than a word, that is what the text says in numbers of any size. If one is, some place that
the text says does not fit, whatever is read. -/
theorem decodeMappings_exact (s : Text) :
    (¬ WellWritten s → decodeMappings s = none) ∧
    (WellWritten s → ∃ ws, WrittenMapping.ofText? s = some ws ∧
      (∀ ms, decodeMappings s = some ms ↔
        (∀ w ∈ ws, w.Short) ∧ (∀ p ∈ placesOf Vlq.wordValue ws, p.2.Fits) ∧
          ms.map Mapping.place = placesOf Vlq.wordValue ws) ∧
      ((∀ w ∈ ws, w.FitsWord) → placesOf Vlq.wordValue ws = placesOf Vlq.exactValue ws) ∧
      ((∃ w ∈ ws, ¬ w.FitsWord) → ∃ p ∈ placesOf Vlq.exactValue ws, ¬ p.2.Fits)) := by
  constructor
  · intro hwritten
    rw [Option.eq_none_iff_forall_ne_some]
    intro ms hms
    obtain ⟨ws, hws, -⟩ := decodeMappings_eq_some_iff.mp hms
    exact hwritten (WrittenMapping.exists_ofText?_iff.mp ⟨ws, hws⟩)
  · intro hwritten
    obtain ⟨ws, hws⟩ := WrittenMapping.exists_ofText?_iff.mpr hwritten
    refine ⟨ws, hws, fun ms => ?_, fun hfits => ?_, fun hlarge => ?_⟩
    · rw [decodeMappings_eq_some_iff]
      constructor
      · rintro ⟨ws', hws', hread⟩
        obtain rfl := Option.some.inj (hws.symm.trans hws')
        exact ⟨hread.short, hread.fits, hread.places⟩
      · rintro ⟨hshort, hfits, hplaces⟩
        exact ⟨ws, hws, hshort, hfits, hplaces⟩
    · exact placesFrom_eq_of_fitsWord hfits 0 {}
    · obtain ⟨w, hw, hnot⟩ := hlarge
      by_contra hall
      push Not at hall
      exact hnot (fitsWord_of_places MappingBase.Fits.zero hall w hw)

/-- The thirteenth digit holds the bit behind the end of a word, and a column of `2 ^ 63` is read as
zero. -/
theorem decodeMappings_exact_droppedBit :
    WellWritten "ggggggggggggQAAA".toList ∧
      decodeMappings "ggggggggggggQAAA".toList = some [⟨0, 0, 0, 0, 0⟩] ∧
      ∃ ws, WrittenMapping.ofText? "ggggggggggggQAAA".toList = some ws ∧
        ∃ p ∈ placesOf Vlq.exactValue ws, ¬ p.2.Fits := by
  obtain ⟨hrefused, hread⟩ := decodeMappings_exact "ggggggggggggQAAA".toList
  have hdecode : decodeMappings "ggggggggggggQAAA".toList = some [⟨0, 0, 0, 0, 0⟩] := by
    decide +kernel
  have hwritten : WellWritten "ggggggggggggQAAA".toList := by
    by_contra hwritten
    have := (hrefused hwritten).symm.trans hdecode
    cases this
  have htext : WrittenMapping.ofText? "ggggggggggggQAAA".toList =
      some [⟨0, List.replicate 12 0 ++ [16], [0], [0], [0]⟩] := by
    decide +kernel
  obtain ⟨ws, hws, -, -, hlarge⟩ := hread hwritten
  obtain rfl := Option.some.inj (hws.symm.trans htext)
  refine ⟨hwritten, hdecode, _, hws, hlarge ⟨_, List.mem_singleton_self _, ?_⟩⟩
  intro hfits
  have := hfits _ (List.mem_cons_self ..)
  revert this
  decide +kernel

end MarkupHighlight
