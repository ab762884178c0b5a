import MarkupHighlight.Proofs.Bytes.Bounds
import MarkupHighlight.Proofs.Script.BraceMatching

/-!
Where an expression ends, found byte by byte. Strings, templates and code are scanned by three
functions that call each other with offsets of the text; they give what the scanner of characters
gives, without a fault (`stringFrom_eq`, `templateFrom_eq`, `braceFrom_eq`).
-/
namespace MarkupHighlight.Script

theorem resume_lineComment (t : Text) :
    resume [.lineComment] t = (splitOnFirst? ['\n'] t).map (·.2) := by
  induction t with
  | nil => rfl
  | cons c t ih =>
    by_cases hc : c = '\n'
    · simp [resume, splitOnFirst?, afterLead?, hc]
    · simp [resume, splitOnFirst?, afterLead?, hc, Ne.symm hc, ih, Function.comp_def]

theorem resume_blockComment (t : Text) :
    resume [.blockComment] t = (splitOnFirst? ['*', '/'] t).map (·.2) := by
  induction t with
  | nil => rfl
  | cons c t ih =>
    rw [splitOnFirst?]
    cases hlead : afterLead? ['*', '/'] (c :: t) with
    | some r =>
      obtain ⟨rfl, rfl⟩ := List.cons.inj (afterLead?_eq_some_iff.mp hlead)
      simp [resume]
    | none =>
      have hpasses : Mode.blockComment.passes c t = true := by
        rw [Mode.passes, Bool.not_eq_true', Bool.and_eq_false_imp, beq_iff_eq]
        rintro rfl
        rw [beq_eq_false_iff_ne]
        intro hhead
        obtain ⟨r, rfl⟩ := List.head?_eq_some_iff.mp hhead
        simp [afterLead?] at hlead
      rw [resume_passes hpasses, ih, Option.map_map]
      rfl

theorem Opens.length_pos {m m' : Mode} {opening : Text} (h : Opens m opening m') :
    0 < opening.length := by
  cases h <;> simp

/-- A construct in another one is closed first. -/
theorem resume_opens {m m' : Mode} {opening : Text} (h : Opens m opening m') (t : Text) :
    resume [m] (opening ++ t) = (resume [m'] t).bind (resume [m]) :=
  (h.resume [] t).trans (resume_append [m'] [m] t)

/-- In code a character opens a construct, is a bracket or means nothing but itself. -/
theorem code_cases (d : Nat) (c : Char) (t : Text) :
    (∃ opening m r, Opens (.code d) opening m ∧ c :: t = opening ++ r) ∨ isOpening c = true ∨
      isClosing c = true ∨ (Mode.code d).passes c t = true := by
  by_cases hquote : isQuote c = true
  · exact .inl ⟨[c], _, t, .quote d hquote, rfl⟩
  by_cases htick : c = '\x60'
  · exact .inl ⟨['\x60'], _, t, .backtick d, by rw [htick]; rfl⟩
  by_cases hline : c = '/' ∧ t.head? = some '/'
  · obtain ⟨rfl, hhead⟩ := hline
    obtain ⟨r, rfl⟩ := List.head?_eq_some_iff.mp hhead
    exact .inl ⟨['/', '/'], _, r, .lineComment d, rfl⟩
  by_cases hblock : c = '/' ∧ t.head? = some '*'
  · obtain ⟨rfl, hhead⟩ := hblock
    obtain ⟨r, rfl⟩ := List.head?_eq_some_iff.mp hhead
    exact .inl ⟨['/', '*'], _, r, .blockComment d, rfl⟩
  by_cases hopening : isOpening c = true
  · exact .inr (.inl hopening)
  by_cases hclosing : isClosing c = true
  · exact .inr (.inr (.inl hclosing))
  have hslash : (c == '/' && (t.head? == some '/' || t.head? == some '*')) = false := by
    rw [Bool.and_eq_false_imp, beq_iff_eq]
    rintro rfl
    simp_all
  exact .inr (.inr (.inr (by simp [Mode.passes, hquote, htick, hopening, hclosing, hslash])))

end MarkupHighlight.Script

namespace MarkupHighlight.Bytewise
open Script

/-- Just past the string whose inside goes on at `i`. The byte behind a backslash is passed over
whatever it is, so the scan may stand inside a character. -/
def stringFrom (s : Text) (quote : Char) (i : Nat) : Run (Option Nat) :=
  if _h : i < byteSize s then do
    let b ← byteAt s i
    if b = '\\' then stringFrom s quote (i + 2)
    else if b = '\n' then return none
    else if b = quote then return some (i + 1)
    else stringFrom s quote (i + 1)
  else return none
  termination_by byteSize s - i

/-- Just past the string whose opening quote is byte `start`. -/
def stringEnd (s : Text) (start : Nat) : Run (Option Nat) := do
  stringFrom s (← byteAt s start) (start + 1)

mutual

/-- The byte of the `}` that closes code which goes on at `i`, with `depth` brackets open in it. -/
def braceFrom (s : Text) (depth i : Nat) : Run (Option Nat) :=
  if _h : i < byteSize s then do
    let b ← byteAt s i
    if isQuote b then
      let some stop ← stringEnd s i | return none
      let j ← onward s i stop
      braceFrom s depth j
    else if b = '\x60' then
      let some stop ← templateFrom s (i + 1) | return none
      let j ← onward s i stop
      braceFrom s depth j
    else if b = '/' ∧ peek s (i + 1) = some '/' then
      let rest ← cut s i (byteSize s)
      let j ← onward s i <| match splitOnFirst? ['\n'] rest with
        | some (comment, _) => i + byteSize comment + 1
        | none => byteSize s
      braceFrom s depth j
    else if b = '/' ∧ peek s (i + 1) = some '*' then
      let rest ← cut s (i + 2) (byteSize s)
      let some (comment, _) := splitOnFirst? ['*', '/'] rest | return none
      braceFrom s depth (i + 2 + byteSize comment + 2)
    else if isOpening b then braceFrom s (depth + 1) (i + 1)
    else if b = '}' ∧ depth = 0 then return some i
    else if isClosing b then braceFrom s (depth - 1) (i + 1)
    else braceFrom s depth (i + 1)
  else return none
  termination_by byteSize s - i
  decreasing_by all_goals omega

/-- Just past the template whose inside goes on at `i`. -/
def templateFrom (s : Text) (i : Nat) : Run (Option Nat) :=
  if _h : i < byteSize s then do
    let b ← byteAt s i
    if b = '\\' then templateFrom s (i + 2)
    else if b = '\x60' then return some (i + 1)
    else if b = '$' ∧ peek s (i + 1) = some '{' then
      let some close ← braceFrom s 0 (i + 2) | return none
      let j ← onward s i (close + 1)
      templateFrom s j
    else templateFrom s (i + 1)
  else return none
  termination_by byteSize s - i
  decreasing_by all_goals omega

end

/-! What scans have in common. -/

/-- A larger character means nothing but itself. -/
theorem passes_of_not_low {m : Mode} (hm : ∀ q, m = .quoted q → Low q) {c : Char} (hc : ¬ Low c)
    (t : Text) : m.passes c t = true := by
  have hne {a : Char} (ha : Low a) : c ≠ a := ne_of_not_low hc ha
  have hslash := hne (by decide : Low '\\')
  cases m with
  | code d =>
    have hquote : isQuote c = false := by
      simp [isQuote, hne (by decide : Low '\x27'), hne (by decide : Low '\x22')]
    have hopening : isOpening c = false := by
      simp [isOpening, hne (by decide : Low '{'), hne (by decide : Low '('),
        hne (by decide : Low '[')]
    have hclosing : isClosing c = false := by
      simp [isClosing, hne (by decide : Low '}'), hne (by decide : Low ')'),
        hne (by decide : Low ']')]
    simp [Mode.passes, hquote, hopening, hclosing, hne (by decide : Low '\x60'),
      hne (by decide : Low '/')]
  | quoted q => simp [Mode.passes, hslash, hne (hm q rfl), hne (by decide : Low '\n')]
  | template =>
    simp [Mode.passes, hslash, hne (by decide : Low '\x60'), hne (by decide : Low '$')]
  | lineComment => simp [Mode.passes, hne (by decide : Low '\n')]
  | blockComment => simp [Mode.passes, hne (by decide : Low '*')]

/-- The meaning of a character depends at most on a one-byte character behind it. -/
theorem passes_congr {m : Mode} {t u : Text}
    (h : ∀ a, Low a → (t.head? = some a ↔ u.head? = some a)) (c : Char) :
    m.passes c t = m.passes c u := by
  have hbeq {a : Char} (ha : Low a) : (t.head? == some a) = (u.head? == some a) := by
    rw [Bool.eq_iff_iff, beq_iff_eq, beq_iff_eq, h a ha]
  cases m with
  | code d => simp only [Mode.passes, hbeq (by decide : Low '/'), hbeq (by decide : Low '*')]
  | template => simp only [Mode.passes, hbeq (by decide : Low '{')]
  | blockComment => simp only [Mode.passes, hbeq (by decide : Low '/')]
  | _ => rfl

section
variable {s t r : Text} {i : Nat} {c : Char}

/-- A function of the offset that does not change over a byte without a meaning does not change over
a character without one. -/
theorem Tail.passes {α : Type} {f : Nat → α} {m : Mode} (h : Tail s i (c :: t))
    (hm : ∀ q, m = .quoted q → Low q)
    (hf : ∀ j b, j < i + c.utf8Size → peek s j = some b →
      m.passes b (peek s (j + 1)).toList = true → f j = f (j + 1))
    (hc : m.passes c t = true) : f i = f (i + c.utf8Size) := by
  by_cases hlow : Low c
  · have hnext := h.next_low hlow
    have hhead (a : Char) (ha : Low a) :
        (peek s (i + 1)).toList.head? = some a ↔ t.head? = some a := by
      rw [Option.head?_toList, hnext.peek_eq_some_iff ha]
    rw [hlow.utf8Size] at hf ⊢
    exact hf i c (Nat.lt_succ_self i) (h.peek_low hlow) ((passes_congr hhead c).trans hc)
  · exact h.pass hlow (fun j b hj hb hb' => hf j b hj hb (passes_of_not_low hm hb' _))
      (Nat.zero_le _)

/-- What a scan leaves is a tail, and not before the place it starts at. -/
theorem Tail.of_resume (h : Tail s i t) (hr : resume stack t = some r) :
    Tail s (offsetOf s r) r ∧ i ≤ offsetOf s r := by
  obtain ⟨u, hu, -⟩ := resume_local hr
  exact h.suffix ⟨u, hu.symm⟩

/-- What a search finds is followed by a tail. -/
theorem Tail.of_splitOnFirst? {needle lead : Text} (h : Tail s i t)
    (hr : splitOnFirst? needle t = some (lead, r)) :
    Tail s (i + byteSize lead + byteSize needle) r := by
  obtain ⟨rfl, -⟩ := splitOnFirst?_local hr
  rw [Nat.add_assoc, ← byteSize_append]
  exact h.append

end

/-! Strings. -/

section
variable {s : Text} {q : Char} {i : Nat}

theorem stringFrom_end (h : byteSize s ≤ i) : stringFrom s q i = .ok none := by
  rw [stringFrom, dif_neg (Nat.not_lt.mpr h)]
  rfl

theorem stringFrom_byte {b : Char} (hb : peek s i = some b) : stringFrom s q i =
    if b = '\\' then stringFrom s q (i + 2)
    else if b = '\n' then .ok none
    else if b = q then .ok (some (i + 1))
    else stringFrom s q (i + 1) := by
  rw [stringFrom, dif_pos (lt_byteSize_of_peek hb), byteAt, hb]
  rfl

theorem stringFrom_passes {j : Nat} {b : Char} (hb : peek s j = some b)
    (hpasses : (Mode.quoted q).passes b (peek s (j + 1)).toList = true) :
    stringFrom s q j = stringFrom s q (j + 1) := by
  simp only [Mode.passes, Bool.and_eq_true, bne_iff_ne] at hpasses
  rw [stringFrom_byte hb, if_neg hpasses.1.2, if_neg hpasses.2, if_neg hpasses.1.1]

end

theorem stringFrom_eq {s : Text} {q : Char} (hq : Low q) {i : Nat} {t : Text} (h : Tail s i t) :
    stringFrom s q i = .ok ((afterQuoted q t).map (offsetOf s)) := by
  have hm (p : Char) (hp : Mode.quoted q = .quoted p) : Low p := Mode.quoted.inj hp ▸ hq
  match t with
  | [] =>
    rw [stringFrom_end h.le_of_nil]
    rfl
  | c :: t =>
    by_cases hescape : c = '\\'
    · subst hescape
      have hnext := h.next_low (by decide)
      have hbyte : peek s i = some '\\' := h.peek_low (by decide)
      rw [stringFrom_byte hbyte, if_pos rfl]
      cases t with
      | nil =>
        have hend := hnext.le_of_nil
        rw [stringFrom_end (by omega)]
        rfl
      | cons e t =>
        -- the second step of the pair may end inside of `e`
        have hskip : stringFrom s q (i + 1 + 1) = _ := hnext.pass_rest fun _ j b _ hb hb' =>
          stringFrom_passes hb (passes_of_not_low hm hb' _)
        rw [hskip, stringFrom_eq hq hnext.next]
        rfl
    by_cases hbreak : c = '\n'
    · subst hbreak
      rw [stringFrom_byte (h.peek_low (by decide))]
      simp [afterQuoted, resume]
    by_cases hclose : c = q
    · subst hclose
      have hnext := h.next_low hq
      rw [stringFrom_byte (h.peek_low hq), if_neg hescape, if_neg hbreak, if_pos rfl]
      simp [afterQuoted, resume, hescape, hbreak, hnext.offsetOf_eq]
    · have hpasses : (Mode.quoted q).passes c t = true := by
        simp [Mode.passes, hescape, hbreak, hclose]
      have hstep : stringFrom s q i = _ := h.passes hm (fun j b _ => stringFrom_passes) hpasses
      rw [hstep, stringFrom_eq hq h.next, afterQuoted, afterQuoted, resume_passes hpasses]
  termination_by t.length

theorem stringEnd_eq {s t : Text} {q : Char} (hq : Low q) {i : Nat} (h : Tail s i (q :: t)) :
    stringEnd s i = .ok ((afterQuoted q t).map (offsetOf s)) := by
  rw [stringEnd, h.byteAt_low hq, ok_bind, stringFrom_eq hq (h.next_low hq)]

/-! Code and templates. -/

section
variable {s t : Text} {d i : Nat} {c : Char}

theorem low_of_isQuote (h : isQuote c = true) : Low c := by
  simp only [isQuote, Bool.or_eq_true, beq_iff_eq] at h
  rcases h with rfl | rfl <;> decide

theorem uniform_isQuote : Uniform isQuote := (uniform_beq (by decide)).or (uniform_beq (by decide))

theorem low_of_isOpening (h : isOpening c = true) : Low c := by
  simp only [isOpening, Bool.or_eq_true, beq_iff_eq] at h
  rcases h with (rfl | rfl) | rfl <;> decide

theorem low_of_isClosing (h : isClosing c = true) : Low c := by
  simp only [isClosing, Bool.or_eq_true, beq_iff_eq] at h
  rcases h with (rfl | rfl) | rfl <;> decide

theorem braceFrom_end (h : byteSize s ≤ i) : braceFrom s d i = .ok none := by
  rw [braceFrom, dif_neg (Nat.not_lt.mpr h)]
  rfl

theorem templateFrom_end (h : byteSize s ≤ i) : templateFrom s i = .ok none := by
  rw [templateFrom, dif_neg (Nat.not_lt.mpr h)]
  rfl

/-! In code, one lemma for each construct that is passed over as a whole. -/

theorem braceFrom_quote (h : Tail s i (c :: t)) (hquote : isQuote c = true) :
    braceFrom s d i =
      (resume [.quoted c] t).elim (.ok none) fun r => braceFrom s d (offsetOf s r) := by
  have hc := low_of_isQuote hquote
  have hnext := h.next_low hc
  rw [braceFrom, dif_pos h.lt, h.byteAt_low hc, ok_bind, if_pos hquote, stringEnd_eq hc h, ok_bind,
    afterQuoted]
  cases hr : resume [.quoted c] t with
  | none => rfl
  | some r =>
    obtain ⟨-, hle⟩ := hnext.of_resume hr
    simp only [Option.map_some, onward_eq ⟨Nat.lt_of_succ_le hle, offsetOf_le s r⟩]
    rfl

theorem braceFrom_backtick (h : Tail s i ('\x60' :: t))
    (htemplate : templateFrom s (i + 1) = .ok ((afterTemplate t).map (offsetOf s))) :
    braceFrom s d i =
      (resume [.template] t).elim (.ok none) fun r => braceFrom s d (offsetOf s r) := by
  have hnext := h.next_low (by decide)
  rw [braceFrom, dif_pos h.lt, h.byteAt_low (by decide), ok_bind, if_neg (by decide), if_pos rfl,
    htemplate, ok_bind, afterTemplate]
  cases hr : resume [.template] t with
  | none => rfl
  | some r =>
    obtain ⟨-, hle⟩ := hnext.of_resume hr
    simp only [Option.map_some, onward_eq ⟨Nat.lt_of_succ_le hle, offsetOf_le s r⟩]
    rfl

theorem braceFrom_lineComment (h : Tail s i ('/' :: '/' :: t)) :
    braceFrom s d i =
      (resume [.lineComment] t).elim (.ok none) fun r => braceFrom s d (offsetOf s r) := by
  have hc : Low '/' := by decide
  have hresume : resume [.lineComment] t =
      (splitOnFirst? ['\n'] ('/' :: '/' :: t)).map (·.2) := by
    rw [resume_lineComment]
    simp [splitOnFirst?, afterLead?, Function.comp_def]
  rw [braceFrom, dif_pos h.lt, h.byteAt_low hc, ok_bind, if_neg (by decide), if_neg (by decide),
    if_pos ⟨rfl, (h.next_low hc).peek_low hc⟩, h.cut_rest, ok_bind, hresume]
  cases hr : splitOnFirst? ['\n'] ('/' :: '/' :: t) with
  | none =>
    simp only [onward_eq ⟨h.lt, Nat.le_refl _⟩, ok_bind, braceFrom_end (Nat.le_refl _)]
    rfl
  | some p =>
    obtain ⟨comment, r⟩ := p
    have hrest : Tail s (i + byteSize comment + 1) r := h.of_splitOnFirst? hr
    have hlt : i < i + byteSize comment + 1 ∧ i + byteSize comment + 1 ≤ byteSize s :=
      ⟨by omega, hrest.le⟩
    simp only [onward_eq hlt, ok_bind, Option.map_some, Option.elim_some, hrest.offsetOf_eq]

theorem braceFrom_blockComment (h : Tail s i ('/' :: '*' :: t)) :
    braceFrom s d i =
      (resume [.blockComment] t).elim (.ok none) fun r => braceFrom s d (offsetOf s r) := by
  have hnext : Tail s (i + 1) ('*' :: t) := h.next_low (by decide)
  have hinside : Tail s (i + 2) t := hnext.next_low (by decide)
  have hstar : peek s (i + 1) = some '*' := hnext.peek_low (by decide)
  rw [braceFrom, dif_pos h.lt, h.byteAt_low (by decide), ok_bind, if_neg (by decide),
    if_neg (by decide), if_neg (by simp [hstar]), if_pos ⟨rfl, hstar⟩, hinside.cut_rest, ok_bind,
    resume_blockComment]
  cases hr : splitOnFirst? ['*', '/'] t with
  | none => rfl
  | some p =>
    obtain ⟨comment, r⟩ := p
    have hrest : Tail s (i + 2 + byteSize comment + 2) r := hinside.of_splitOnFirst? hr
    simp only [Option.map_some, Option.elim_some, hrest.offsetOf_eq]

theorem braceFrom_opens {opening : Text} {m : Mode} (h : Tail s i (opening ++ t))
    (hopens : Opens (.code d) opening m)
    (htemplate : m = .template →
      templateFrom s (i + 1) = .ok ((afterTemplate t).map (offsetOf s))) :
    braceFrom s d i = (resume [m] t).elim (.ok none) fun r => braceFrom s d (offsetOf s r) := by
  cases hopens with
  | quote _ hquote => exact braceFrom_quote h hquote
  | backtick => exact braceFrom_backtick h (htemplate rfl)
  | lineComment => exact braceFrom_lineComment h
  | blockComment => exact braceFrom_blockComment h

theorem braceFrom_opening (h : Tail s i (c :: t)) (hc : isOpening c = true) :
    braceFrom s d i = braceFrom s (d + 1) (i + 1) := by
  rw [braceFrom, dif_pos h.lt, h.byteAt_low (low_of_isOpening hc), ok_bind]
  simp only [isOpening, Bool.or_eq_true, beq_iff_eq] at hc
  rcases hc with (rfl | rfl) | rfl <;> simp [isQuote, isOpening]

theorem braceFrom_brace (h : Tail s i ('}' :: t)) : braceFrom s 0 i = .ok (some i) := by
  rw [braceFrom, dif_pos h.lt, h.byteAt_low (by decide), ok_bind]
  simp [isQuote, isOpening]

theorem braceFrom_closing (h : Tail s i (c :: t)) (hc : isClosing c = true)
    (hd : c = '}' → d ≠ 0) : braceFrom s d i = braceFrom s (d - 1) (i + 1) := by
  rw [braceFrom, dif_pos h.lt, h.byteAt_low (low_of_isClosing hc), ok_bind]
  simp only [isClosing, Bool.or_eq_true, beq_iff_eq] at hc
  rcases hc with (rfl | rfl) | rfl <;> simp_all [isQuote, isOpening, isClosing]

theorem braceFrom_passes {b : Char} (hb : peek s i = some b)
    (hpasses : (Mode.code d).passes b (peek s (i + 1)).toList = true) :
    braceFrom s d i = braceFrom s d (i + 1) := by
  simp only [Mode.passes, Bool.and_eq_true, Bool.not_eq_true', bne_iff_ne,
    Option.head?_toList] at hpasses
  obtain ⟨⟨⟨⟨hquote, htick⟩, hopening⟩, hclosing⟩, hslash⟩ := hpasses
  have hbrace : b ≠ '}' := by
    rintro rfl
    cases hclosing
  have hline : ¬ (b = '/' ∧ peek s (i + 1) = some '/') := by
    rintro ⟨rfl, hnext⟩
    simp [hnext] at hslash
  have hblock : ¬ (b = '/' ∧ peek s (i + 1) = some '*') := by
    rintro ⟨rfl, hnext⟩
    simp [hnext] at hslash
  rw [braceFrom, dif_pos (lt_byteSize_of_peek hb), byteAt, hb, ok_bind, if_neg hline, if_neg hblock]
  simp [hquote, htick, hopening, hclosing, hbrace]

theorem templateFrom_escape (h : Tail s i ('\\' :: t)) :
    templateFrom s i = templateFrom s (i + 2) := by
  rw [templateFrom, dif_pos h.lt, h.byteAt_low (by decide), ok_bind, if_pos rfl]

theorem templateFrom_backtick (h : Tail s i ('\x60' :: t)) :
    templateFrom s i = .ok (some (i + 1)) := by
  rw [templateFrom, dif_pos h.lt, h.byteAt_low (by decide), ok_bind, if_neg (by decide), if_pos rfl]
  rfl

/-- A substitution is passed over as a whole. -/
theorem templateFrom_substitution (h : Tail s i ('$' :: '{' :: t))
    (hbrace : braceFrom s 0 (i + 2) = .ok ((afterBrace t).map (offsetOf s · - 1))) :
    templateFrom s i = (afterBrace t).elim (.ok none) fun r => templateFrom s (offsetOf s r) := by
  have hnext : Tail s (i + 1) ('{' :: t) := h.next_low (by decide)
  have hinside : Tail s (i + 2) t := hnext.next_low (by decide)
  have hopen : peek s (i + 1) = some '{' := hnext.peek_low (by decide)
  rw [templateFrom, dif_pos h.lt, h.byteAt_low (by decide), ok_bind, if_neg (by decide),
    if_neg (by decide), if_pos ⟨rfl, hopen⟩, hbrace, ok_bind]
  cases hr : afterBrace t with
  | none => rfl
  | some r =>
    obtain ⟨-, hle⟩ := hinside.of_resume hr
    have hclose : offsetOf s r - 1 + 1 = offsetOf s r := by omega
    have hlt : i < offsetOf s r ∧ offsetOf s r ≤ byteSize s := ⟨by omega, offsetOf_le s r⟩
    simp only [Option.map_some, hclose, onward_eq hlt]
    rfl

theorem templateFrom_passes {b : Char} (hb : peek s i = some b)
    (hpasses : Mode.template.passes b (peek s (i + 1)).toList = true) :
    templateFrom s i = templateFrom s (i + 1) := by
  simp only [Mode.passes, Bool.and_eq_true, Bool.not_eq_true', bne_iff_ne,
    Option.head?_toList] at hpasses
  obtain ⟨⟨htick, hescape⟩, hdollar⟩ := hpasses
  have hopening : ¬ (b = '$' ∧ peek s (i + 1) = some '{') := by
    rintro ⟨rfl, hnext⟩
    simp [hnext] at hdollar
  rw [templateFrom, dif_pos (lt_byteSize_of_peek hb), byteAt, hb, ok_bind, if_neg hescape,
    if_neg htick, if_neg hopening]

end

mutual

theorem braceFrom_eq {s : Text} {i : Nat} {t : Text} (h : Tail s i t) (d : Nat) :
    braceFrom s d i = .ok ((resume [.code d] t).map (offsetOf s · - 1)) := by
  match t with
  | [] =>
    rw [braceFrom_end h.le_of_nil]
    rfl
  | c :: t =>
    obtain ⟨opening, m, r, hopens, ht⟩ | hc | hc | hc := code_cases d c t
    · have hshorter : r.length < t.length + 1 := by
        have hlen := congrArg List.length ht
        have hpos := hopens.length_pos
        simp only [List.length_append, List.length_cons] at hlen
        omega
      rw [ht] at h ⊢
      have htemplate : m = .template →
          templateFrom s (i + 1) = .ok ((afterTemplate r).map (offsetOf s)) := by
        rintro rfl
        cases hopens
        exact templateFrom_eq (h.next_low (by decide))
      rw [braceFrom_opens h hopens htemplate, resume_opens hopens]
      cases hr : resume [m] r with
      | none => rfl
      | some r' =>
        have hlen := resume_length hr
        exact braceFrom_eq (h.append.of_resume hr).1 d
    · rw [braceFrom_opening h hc, braceFrom_eq (h.next_low (low_of_isOpening hc)),
        resume_opening hc]
    · have hnext := h.next_low (low_of_isClosing hc)
      by_cases hend : c = '}' ∧ d = 0
      · obtain ⟨rfl, rfl⟩ := hend
        rw [braceFrom_brace h, resume_brace]
        simp [resume, hnext.offsetOf_eq]
      · have hd : c = '}' → d ≠ 0 := fun hbrace hzero => hend ⟨hbrace, hzero⟩
        rw [braceFrom_closing h hc hd, braceFrom_eq hnext, resume_closing hc hd]
    · have hstep : braceFrom s d i = _ := h.passes (by simp) (fun j b _ => braceFrom_passes) hc
      rw [hstep, braceFrom_eq h.next, resume_passes hc]
  termination_by t.length

theorem templateFrom_eq {s : Text} {i : Nat} {t : Text} (h : Tail s i t) :
    templateFrom s i = .ok ((afterTemplate t).map (offsetOf s)) := by
  match t with
  | [] =>
    rw [templateFrom_end h.le_of_nil]
    rfl
  | c :: t =>
    by_cases hescape : c = '\\'
    · subst hescape
      have hnext := h.next_low (by decide)
      rw [templateFrom_escape h]
      cases t with
      | nil =>
        have hend := hnext.le_of_nil
        rw [templateFrom_end (by omega)]
        rfl
      | cons e t =>
        have hskip : templateFrom s (i + 1 + 1) = _ := hnext.pass_rest fun _ j b _ hb hb' =>
          templateFrom_passes hb (passes_of_not_low (by simp) hb' _)
        rw [hskip, templateFrom_eq hnext.next, afterTemplate, afterTemplate, resume_escape rfl]
    by_cases htick : c = '\x60'
    · subst htick
      have hnext := h.next_low (by decide)
      rw [templateFrom_backtick h]
      simp [afterTemplate, resume, hnext.offsetOf_eq]
    by_cases hopening : c = '$' ∧ t.head? = some '{'
    · obtain ⟨rfl, hhead⟩ := hopening
      obtain ⟨r, ht⟩ := List.head?_eq_some_iff.mp hhead
      rw [ht] at h ⊢
      have hinside : Tail s (i + 2) r := (h.next_low (by decide)).next_low (by decide)
      rw [templateFrom_substitution h (braceFrom_eq hinside 0)]
      have hresume : afterTemplate ('$' :: '{' :: r) = _ := resume_opens .substitution r
      rw [hresume, ← afterBrace]
      cases hr : afterBrace r with
      | none => rfl
      | some r' =>
        have hshorter : r'.length < t.length + 1 := by
          have hlen := afterBrace_length hr
          rw [ht, List.length_cons]
          omega
        exact templateFrom_eq (hinside.of_resume hr).1
    · have hpasses : Mode.template.passes c t = true := by
        have hdollar : (c == '$' && t.head? == some '{') = false := by
          simpa using hopening
        simp [Mode.passes, hescape, htick, hdollar]
      have hstep : templateFrom s i = _ :=
        h.passes (by simp) (fun j b _ => templateFrom_passes) hpasses
      rw [hstep, templateFrom_eq h.next, afterTemplate, afterTemplate, resume_passes hpasses]
  termination_by t.length

end

end MarkupHighlight.Bytewise
