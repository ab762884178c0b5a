import MarkupHighlight.Proofs.Script.LiteralGrammar

/-!
What the decoder makes of a literal. It takes every escape for itself, so it gives the value of a
string exactly if no high surrogate is followed by a low one and no line is continued behind a line
or paragraph separator (`unescape_eq_value_iff`).
-/
namespace MarkupHighlight.Script

/-! Bodies. -/

/-- What the decoder makes of an escape. -/
def EscapeForm.decoded : EscapeForm → Text
  | letter _ c | itself c => [c]
  | twoDigits _ n | fourDigits _ n | codePoint _ n => [charOfPoint n]
  | lineBreak ends => if ends ∈ separators then ends else []

def BodyPart.decoded : BodyPart → Text
  | plain c => [c]
  | escape e => e.decoded
  | carriageReturn feed => (carriageReturn feed).written

theorem readEscape_lineBreak {ends t : Text} (h : ends ∈ lineBreaks)
    (hnext : ends = ['\r'] → t.head? ≠ some '\n') :
    readEscape (ends ++ t) = (if ends ∈ separators then ends else [], t) := by
  simp only [lineBreaks, separators, List.cons_append, List.nil_append, List.mem_cons,
    List.not_mem_nil, or_false] at h
  rcases h with rfl | rfl | rfl | rfl | rfl
  · rfl
  · have hfeed : ∀ u, t = '\n' :: u → False := by
      rintro u rfl
      exact hnext rfl rfl
    rw [List.singleton_append, readEscape.eq_14 _ hfeed]
    rfl
  · rfl
  · rfl
  · rfl

theorem EscapeForm.Fits.readEscape {e : EscapeForm} {t : Text} (h : e.Fits t) :
    readEscape (e.written ++ t) = (e.decoded, t) := by
  cases e with
  | letter l c => exact readEscape_short h.1 t
  | itself c =>
    obtain ⟨hshort, hdigits, -, hbreak⟩ := h
    have hends : c ≠ '\n' ∧ c ≠ '\r' := by
      simp only [lineTerminators, List.mem_cons, not_or] at hbreak
      exact ⟨hbreak.1, hbreak.2.1⟩
    exact readEscape_itself hshort hdigits hends t
  | twoDigits ds n =>
    have hread := readEscape_twoDigits h.1 t
    rwa [h.2.namedChar_eq] at hread
  | fourDigits ds n =>
    have hread := h.2.readEscape_fourDigits h.1 t
    rwa [h.2.namedChar_eq] at hread
  | codePoint ds n =>
    have hread := h.1.readEscape_codePoint t
    rw [h.1.namedChar_eq] at hread
    simpa [written, decoded, charOfPoint] using hread
  | lineBreak ends => exact readEscape_lineBreak h.1 h.2

theorem unescape_plain {c : Char} (h : c ≠ '\\') (s : Text) :
    unescape (c :: s) = c :: unescape s := by
  rw [unescape, if_neg h]

theorem BodyPart.Fits.unescape {d : Delimiter} {p : BodyPart} {t : Text} (h : p.Fits d t) :
    unescape (p.written ++ t) = p.decoded ++ unescape t := by
  cases p with
  | plain c => exact unescape_plain h.1.1 t
  | escape e =>
    have hread := EscapeForm.Fits.readEscape h
    rw [written, List.cons_append, unescape_escaped, hread]
    rfl
  | carriageReturn feed =>
    cases feed with
    | false => exact unescape_plain (by decide) t
    | true =>
      have hrest := unescape_plain (by decide : '\n' ≠ '\\') t
      exact (unescape_plain (by decide) _).trans (congrArg ('\r' :: ·) hrest)

/-- The decoder takes the parts of a body one by one. -/
theorem unescape_written {d : Delimiter} {ps : List BodyPart} (h : WellFormed d ps) :
    unescape (written ps) = ps.flatMap BodyPart.decoded := by
  induction ps with
  | nil => rw [written_nil, unescape, List.flatMap_nil]
  | cons p ps ih => rw [written_cons, h.1.unescape, ih h.2, List.flatMap_cons]

/-! Decoded text and value. -/

theorem BodyPart.length_points_le (p : BodyPart) : p.points.length ≤ p.decoded.length := by
  cases p with
  | plain c => exact Nat.le_refl _
  | escape e => cases e <;> simp [points, decoded, EscapeForm.points, EscapeForm.decoded]
  | carriageReturn feed => cases feed <;> decide

/-- A separator behind a backslash is decoded, but stands for nothing. -/
theorem BodyPart.length_points_lt {b : Text} (h : b ∈ separators) :
    (escape (.lineBreak b)).points.length < (escape (.lineBreak b)).decoded.length := by
  revert b
  decide

/-- Apart from that a part of a string is decoded as its code point. -/
theorem BodyPart.Fits.decoded_eq {d : Delimiter} {p : BodyPart} {t : Text} (h : p.Fits d t)
    (hd : d ≠ .backtick) (hseparator : ∀ b ∈ separators, p ≠ .escape (.lineBreak b)) :
    p.decoded = p.points.map charOfPoint := by
  cases p with
  | plain c => simp [decoded, points, charOfPoint_toNat]
  | carriageReturn feed => exact absurd h.1 hd
  | escape e =>
    cases e with
    | lineBreak ends =>
      have hnot : ends ∉ separators := fun hmem => hseparator ends hmem rfl
      simp [decoded, points, EscapeForm.decoded, EscapeForm.points, hnot]
    | _ => simp [decoded, points, EscapeForm.decoded, EscapeForm.points, charOfPoint_toNat]

theorem length_points_le (ps : List BodyPart) :
    (points ps).length ≤ (ps.flatMap BodyPart.decoded).length := by
  induction ps with
  | nil => exact Nat.le_refl _
  | cons p ps ih =>
    have := p.length_points_le
    rw [points_cons, List.flatMap_cons, List.length_append, List.length_append]
    omega

theorem length_points_lt {ps : List BodyPart} {b : Text} (hb : b ∈ separators)
    (h : .escape (.lineBreak b) ∈ ps) :
    (points ps).length < (ps.flatMap BodyPart.decoded).length := by
  obtain ⟨before, after, rfl⟩ := List.append_of_mem h
  have hbefore := length_points_le before
  have hafter := length_points_le after
  have hlt := BodyPart.length_points_lt hb
  simp only [points, List.flatMap_append, List.flatMap_cons, List.length_append] at *
  omega

theorem WellFormed.decoded_eq {d : Delimiter} {ps : List BodyPart} (h : WellFormed d ps)
    (hd : d ≠ .backtick) (hseparator : ∀ b ∈ separators, .escape (.lineBreak b) ∉ ps) :
    ps.flatMap BodyPart.decoded = (points ps).map charOfPoint := by
  induction ps with
  | nil => rfl
  | cons p ps ih =>
    have hp : ∀ b ∈ separators, p ≠ .escape (.lineBreak b) := by
      rintro b hb rfl
      exact hseparator b hb (List.mem_cons_self ..)
    have hrest := ih h.2 fun b hb hmem => hseparator b hb (List.mem_cons_of_mem _ hmem)
    rw [List.flatMap_cons, points_cons, List.map_append, h.1.decoded_eq hd hp, hrest]

/-- The decoder gives the value of a string exactly if no surrogates are to be joined in it and no
line is continued behind a separator. -/
theorem WellFormed.unescape_eq_iff {d : Delimiter} (hd : d ≠ .backtick) {ps : List BodyPart}
    (h : WellFormed d ps) :
    unescape (written ps) = textOfUnits (value ps) ↔
      ((points ps).IsChain fun m n => ¬ IsPair m n) ∧
        ∀ b ∈ separators, .escape (.lineBreak b) ∉ ps := by
  rw [unescape_written h, h.textOfUnits_value]
  constructor
  · intro heq
    have hlength := congrArg List.length heq
    rw [List.length_map] at hlength
    have hdecoded := length_points_le ps
    have hjoined := length_joinPairs_le (points ps)
    refine ⟨by_contra fun hpair => ?_, fun b hb hmem => ?_⟩
    · have := length_joinPairs_lt hpair
      omega
    · have := length_points_lt hb hmem
      omega
  · rintro ⟨hchain, hseparator⟩
    rw [h.decoded_eq hd hseparator, joinPairs_eq_self hchain]

/-! Texts in ASCII. -/

/-- A unit in four digits of base sixteen. -/
def fourHex (u : Nat) : Text :=
  [hexChar (u / 0x1000), hexChar (u / 0x100 % 16), hexChar (u / 0x10 % 16), hexChar (u % 16)]

/-- A character in ASCII, by the numbers of its units where it needs to be. -/
def asciiParts (c : Char) : List BodyPart :=
  if c.toNat < 0x20 ∨ 0x7F ≤ c.toNat then
    (unitsOfPoint c.toNat).map fun u => .escape (.fourDigits (fourHex u) u)
  else if c = '\x22' ∨ c = '\\' then [.escape (.itself c)]
  else [.plain c]

/-- A text in ASCII, as it stands in a string with double quotes. -/
def asciiForm (s : Text) : List BodyPart := s.flatMap asciiParts

theorem hexChar_mem : ∀ n, n < 16 → (hexChar n, n) ∈ hexDigits := by decide

theorem writesHex_fourHex {u : Nat} (h : u < 0x10000) : WritesHex (fourHex u) u := by
  have hrow := ((WritesHex.digit (hexChar_mem (u / 0x1000) (by omega))).snoc
    (hexChar_mem (u / 0x100 % 16) (by omega))).snoc (hexChar_mem (u / 0x10 % 16) (by omega))
  have hall := hrow.snoc (hexChar_mem (u % 16) (by omega))
  have hvalue : 16 * (16 * (16 * (u / 0x1000) + u / 0x100 % 16) + u / 0x10 % 16) + u % 16 = u := by
    omega
  rw [hvalue] at hall
  exact hall

theorem unitsOfPoint_lt {n : Nat} (h : n < codePoints) : ∀ u ∈ unitsOfPoint n, u < 0x10000 := by
  unfold codePoints at h
  unfold unitsOfPoint
  split
  · simpa using ‹n < 0x10000›
  · simp only [List.mem_cons, List.not_mem_nil, or_false, forall_eq_or_imp, forall_eq]
    omega

theorem fits_asciiParts (c : Char) : ∀ p ∈ asciiParts c, ∀ t, p.Fits .double t := by
  intro p hp t
  unfold asciiParts at hp
  split at hp
  next =>
    obtain ⟨u, hu, rfl⟩ := List.mem_map.mp hp
    exact ⟨rfl, writesHex_fourHex (unitsOfPoint_lt (toNat_lt_codePoints c) u hu)⟩
  next hplain =>
    split at hp
    next hc =>
      obtain rfl := List.mem_singleton.mp hp
      rcases hc with rfl | rfl <;>
        exact ⟨by decide, by decide, by decide, by decide⟩
    next hc =>
      obtain rfl := List.mem_singleton.mp hp
      obtain ⟨hquote, hslash⟩ := not_or.mp hc
      refine ⟨⟨hslash, hquote, fun _ => ?_, fun h => absurd h (by decide)⟩, ?_⟩
      · rintro rfl
        exact hplain (by decide)
      · rintro rfl
        exact hplain (by decide)

theorem points_asciiParts (c : Char) : points (asciiParts c) = unitsOfPoint c.toNat := by
  unfold asciiParts
  split
  next => simp [points, BodyPart.points, EscapeForm.points, List.flatMap_map]
  next hplain =>
    have hsmall : unitsOfPoint c.toNat = [c.toNat] := if_pos (by omega)
    rw [hsmall]
    split <;> rfl

theorem points_asciiForm (s : Text) : points (asciiForm s) = unitsOf (pointsOf s) := by
  induction s with
  | nil => rfl
  | cons c s ih =>
    have hcons : points (asciiForm (c :: s)) = points (asciiParts c) ++ points (asciiForm s) := by
      simp [asciiForm, points]
    rw [hcons, points_asciiParts, ih]
    exact (unitsOf_cons _ _).symm

theorem wellFormed_of_forall {d : Delimiter} {ps : List BodyPart}
    (h : ∀ p ∈ ps, ∀ t, p.Fits d t) : WellFormed d ps := by
  induction ps with
  | nil => trivial
  | cons p ps ih =>
    obtain ⟨hp, hps⟩ := List.forall_mem_cons.mp h
    exact ⟨hp _, ih hps⟩

theorem wellFormed_asciiForm (s : Text) : WellFormed .double (asciiForm s) := by
  refine wellFormed_of_forall fun p hp => ?_
  obtain ⟨c, -, hc⟩ := List.mem_flatMap.mp hp
  exact fits_asciiParts c p hc

theorem ascii_asciiForm (s : Text) : ∀ c ∈ written (asciiForm s), c.toNat < 0x80 := by
  have hhex : ∀ n, (hexChar (n % 16)).toNat < 0x80 := by
    intro n
    have hall : ∀ k, k < 16 → (hexChar k).toNat < 0x80 := by decide
    exact hall _ (Nat.mod_lt _ (by decide))
  intro c hc
  obtain ⟨p, hp, hcp⟩ := List.mem_flatMap.mp hc
  obtain ⟨a, -, ha⟩ := List.mem_flatMap.mp hp
  unfold asciiParts at ha
  split at ha
  next =>
    obtain ⟨u, hu, rfl⟩ := List.mem_map.mp ha
    have hlt := unitsOfPoint_lt (toNat_lt_codePoints a) u hu
    have hfirst : u / 0x1000 % 16 = u / 0x1000 := Nat.mod_eq_of_lt (by omega)
    simp only [BodyPart.written, EscapeForm.written, fourHex, List.mem_cons, List.not_mem_nil,
      or_false] at hcp
    rcases hcp with rfl | rfl | rfl | rfl | rfl | rfl
    · decide
    · decide
    · rw [← hfirst]
      exact hhex _
    all_goals exact hhex _
  next hplain =>
    split at ha
    next hc =>
      obtain rfl := List.mem_singleton.mp ha
      have hslash : '\\'.toNat < 0x80 := by decide
      rcases List.mem_cons.mp hcp with rfl | hcp
      · exact hslash
      · obtain rfl := List.mem_singleton.mp hcp
        omega
    next =>
      obtain rfl := List.mem_singleton.mp ha
      obtain rfl := List.mem_singleton.mp hcp
      omega

/-- The units of a text are free of pairs only if each of them is a character. -/
theorem isChain_unitsOf_iff {s : Text} :
    ((unitsOf (pointsOf s)).IsChain fun m n => ¬ IsPair m n) ↔ ∀ c ∈ s, c.toNat < 0x10000 := by
  constructor
  · intro h c hc
    by_contra hlarge
    obtain ⟨a, b, rfl⟩ := List.append_of_mem hc
    obtain ⟨u, v, hunits, hpair, -⟩ :=
      exists_unitsOfPoint (Nat.not_lt.mp hlarge) (toNat_lt_codePoints c)
    simp only [pointsOf, unitsOf, List.map_append, List.map_cons, List.flatMap_append,
      List.flatMap_cons, hunits, List.cons_append, List.nil_append] at h
    have htail := h.right_of_append
    exact (List.isChain_cons_cons.mp htail).1 hpair
  · intro h
    have hself : unitsOf (pointsOf s) = pointsOf s := by
      refine unitsOf_eq_self fun n hn => ?_
      obtain ⟨c, hc, rfl⟩ := List.mem_map.mp hn
      exact h c hc
    rw [hself]
    exact isChain_pointsOf s

theorem textOfUnits_asciiForm (s : Text) : textOfUnits (value (asciiForm s)) = s := by
  have hunits : ∀ u ∈ unitsOf (pointsOf s), u < 0x10000 := by
    intro u hu
    obtain ⟨n, hn, hu⟩ := List.mem_flatMap.mp hu
    obtain ⟨c, -, rfl⟩ := List.mem_map.mp hn
    exact unitsOfPoint_lt (toNat_lt_codePoints c) u hu
  rw [value, points_asciiForm, unitsOf_eq_self hunits, textOfUnits_pointsOf]

theorem lineBreak_notMem_asciiForm (s b : Text) : .escape (.lineBreak b) ∉ asciiForm s := by
  intro h
  obtain ⟨c, -, hc⟩ := List.mem_flatMap.mp h
  unfold asciiParts at hc
  split at hc
  next =>
    obtain ⟨u, -, hu⟩ := List.mem_map.mp hc
    cases hu
  next => split at hc <;> cases List.mem_singleton.mp hc

/-- The decoder gives the value of a string exactly if no high surrogate comes before a low one
among its code points, and no line or paragraph separator stands behind a backslash: it takes half a
pair for a whole character, and separators for characters that need no backslash. So a text that is
written in ASCII is decoded to itself exactly if all of its characters have one unit. -/
theorem unescape_eq_value_iff {d : Delimiter} {ps : List BodyPart} (hd : d ≠ .backtick)
    (h : WellFormed d ps) (s : Text) :
    (unescape (written ps) = textOfUnits (value ps) ↔
        ((points ps).IsChain fun m n => ¬ IsPair m n) ∧
          ∀ b ∈ separators, .escape (.lineBreak b) ∉ ps) ∧
      WellFormed .double (asciiForm s) ∧ (∀ c ∈ written (asciiForm s), c.toNat < 0x80) ∧
      textOfUnits (value (asciiForm s)) = s ∧
      (unescape (written (asciiForm s)) = s ↔ ∀ c ∈ s, c.toNat < 0x10000) := by
  have hform := wellFormed_asciiForm s
  have hvalue := textOfUnits_asciiForm s
  have hiff := hform.unescape_eq_iff (by decide)
  rw [hvalue, points_asciiForm, isChain_unitsOf_iff] at hiff
  refine ⟨h.unescape_eq_iff hd, hform, ascii_asciiForm s, hvalue,
    hiff.trans (and_iff_left fun b _ => ?_)⟩
  exact lineBreak_notMem_asciiForm s b

/-- A pair that is written as two escapes, with or without a line break between them, is not
joined. -/
theorem unescape_eq_value_iff_pair :
    let ps : List BodyPart := [.escape (.fourDigits "D83D".toList 0xD83D),
      .escape (.lineBreak ['\n']), .escape (.fourDigits "DE00".toList 0xDE00)]
    let s : Text := [Char.ofNat 0x1F600]
    WellFormed .single ps ∧ textOfUnits (value ps) = s ∧ unescape (written ps) ≠ s ∧
      unescape (written (asciiForm s)) ≠ s := by
  intro ps s
  have hhigh : WritesHex "D83D".toList 0xD83D :=
    (((WritesHex.digit (by decide : ('D', 0xD) ∈ _)).snoc (by decide : ('8', 0x8) ∈ _)).snoc
      (by decide : ('3', 0x3) ∈ _)).snoc (by decide : ('D', 0xD) ∈ _)
  have hlow : WritesHex "DE00".toList 0xDE00 :=
    (((WritesHex.digit (by decide : ('D', 0xD) ∈ _)).snoc (by decide : ('E', 0xE) ∈ _)).snoc
      (by decide : ('0', 0x0) ∈ _)).snoc (by decide : ('0', 0x0) ∈ _)
  have hform : WellFormed .single ps :=
    ⟨⟨rfl, hhigh⟩, ⟨by decide, by decide⟩, ⟨rfl, hlow⟩, trivial⟩
  have hvalue : textOfUnits (value ps) = s := by decide
  obtain ⟨hbody, -, -, -, hascii⟩ := unescape_eq_value_iff (by decide) hform s
  rw [hvalue] at hbody
  refine ⟨hform, hvalue, fun hdecoded => ?_, fun hdecoded => ?_⟩
  · exact absurd (hbody.mp hdecoded).1 (by decide)
  · exact absurd (hascii.mp hdecoded _ (List.mem_singleton_self _)) (by decide)

end MarkupHighlight.Script
