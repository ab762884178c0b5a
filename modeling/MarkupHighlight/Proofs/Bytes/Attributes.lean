import MarkupHighlight.Proofs.Bytes.Expressions
import MarkupHighlight.Proofs.Markup.TagLayout
import Mathlib.Data.List.DropRight

/-!
Attributes read at byte offsets. A reader here takes the offset at which it starts and gives the one
at which it ends, and it `Agrees` with the reader of characters: the same result, ending at the same
place, or the same refusal (`readAttribute_agrees`, `readAttributes_agrees`).
-/
namespace MarkupHighlight.Bytewise
open Script Markup

def skipBlanks (s : Text) (i : Nat) : Run Nat := skipWhile s (fun b _ => .ok (isTagBlank b)) i

/-- Reads an expression from its opening brace on, and gives it with the text in the braces. -/
def readBraces (s : Text) (start : Nat) : Run ((Expression × Text) × Nat) := do
  let some close ← braceFrom s 0 (start + 1)
    | throw (.refused (.unterminated .expression start))
  let inner ← cut s (start + 1) close
  let e ← classify (trim inner)
  return ((e, inner), close + 1)

def isNameByte (b : Char) : Bool := !endsAttributeName b && b != '/'

/-- Goes on with a name behind slashes that do not end the tag. -/
def skipSlashes (s : Text) (i : Nat) : Run Nat := do
  if peek s i = some '/' ∧ peek s (i + 1) ≠ some '>' then
    let stop ← skipWhile s (fun b _ => .ok (isNameByte b)) (i + 1)
    let j ← onward s i stop
    skipSlashes s j
  else return i
  termination_by byteSize s - i
  decreasing_by omega

/-- The text between two offsets as a chunk, if it is not empty. -/
def textBetween (s : Text) (start stop : Nat) : Run (List Chunk) :=
  if start < stop then (cut s start stop).map fun raw => [.text raw] else .ok []

/-- Reads a quoted value on from `i`. Its chunks before `start` have been read. -/
def quotedFrom (s : Text) (quote : Char) (openAt : Nat) (chunks : List Chunk) (start i : Nat) :
    Run (List Chunk × Nat) :=
  match _h : peek s i with
  | none => throw (.refused (.unterminated .attributeValue openAt))
  | some b => do
    if b = quote then
      if start < i ∨ chunks = [] then
        let raw ← cut s start i
        return (chunks ++ [.text raw], i + 1)
      else return (chunks, i + 1)
    else if b = '{' then
      let texts ← textBetween s start i
      let ((e, _), stop) ← readBraces s i
      let j ← onward s i stop
      quotedFrom s quote openAt (chunks ++ texts ++ [.expression e]) j j
    else quotedFrom s quote openAt chunks start (i + 1)
  termination_by byteSize s - i
  decreasing_by
    · omega
    · have := lt_byteSize_of_peek _h
      omega

/-- Reads a value behind its `=` and blanks. -/
def readValue (s : Text) (start i : Nat) : Run (List Chunk × Nat) := do
  match peek s i with
  | none => throw (.refused (.unterminated .attributeValue start))
  | some b =>
    if isQuote b then quotedFrom s b i [] (i + 1) (i + 1)
    else if b = '{' then
      let ((e, _), stop) ← readBraces s i
      return ([.expression e], stop)
    else
      let stop ← skipWhile s (fun b j =>
        .ok (!endsBareValue b && !(b == '/' && peek s (j + 1) == some '>'))) i
      let raw ← cut s i stop
      return ([.text raw], stop)

def readAttribute (s : Text) (start : Nat) : Run (Attribute × Nat) := do
  if peek s start = some '{' then
    let ((e, raw), stop) ← readBraces s start
    return (⟨trim raw, ⟨start, stop⟩, some [.expression e]⟩, stop)
  else
    let nameEnd ← skipSlashes s (← skipWhile s (fun b _ => .ok (isNameByte b)) start)
    let name ← cut s start nameEnd
    if name.isEmpty then throw (.refused (.expected .attributeName start))
    else
      let i ← skipBlanks s nameEnd
      if peek s i = some '=' then
        let (chunks, stop) ← readValue s start (← skipBlanks s (i + 1))
        return (⟨name, ⟨start, stop⟩, some chunks⟩, stop)
      else return (⟨name, ⟨start, nameEnd⟩, none⟩, nameEnd)

/-- Reads the attributes of the tag that starts at `start`, up to the end of the tag. -/
def readAttributes (s : Text) (start : Nat) (attributes : List Attribute) (i : Nat) :
    Run ((List Attribute × Bool) × Nat) := do
  let j ← skipBlanks s i
  match peek s j with
  | none => throw (.refused (.unterminated .tag start))
  | some b =>
    if b = '>' then return ((attributes, false), j + 1)
    else if b = '/' ∧ peek s (j + 1) = some '>' then return ((attributes, true), j + 2)
    else if b = '/' then
      let k ← onward s i (j + 1)
      readAttributes s start attributes k
    else
      let (a, stop) ← readAttribute s j
      let k ← onward s i stop
      readAttributes s start (attributes ++ [a]) k
  termination_by byteSize s - i
  decreasing_by all_goals omega

/-! Readings. -/

/-- A run on the bytes of `s` ends as a reading of characters ends, and never in a fault. -/
inductive Agrees (s : Text) {α : Type} : Run (α × Nat) → Except Error (α × Cursor) → Prop
  | ok (a : α) {i : Nat} {t : Text} (h : Tail s i t) : Agrees s (.ok (a, i)) (.ok (a, ⟨i, t⟩))
  | refused (e : Error) : Agrees s (.error (.refused e)) (.error e)

section
variable {s : Text} {α : Type} {run : Run (α × Nat)}

theorem Agrees.of_error {e : Error} (h : Agrees s run (.error e)) :
    run = .error (.refused e) := by
  cases h
  rfl

theorem Agrees.of_ok {a : α} {c : Cursor} (h : Agrees s run (.ok (a, c))) :
    run = .ok (a, c.offset) ∧ Tail s c.offset c.rest := by
  cases h with
  | ok a h => exact ⟨rfl, h⟩

end

/-- What becomes of a result may depend on where the reading ends. -/
theorem Agrees.map {s : Text} {α β : Type} {run : Run (α × Nat)}
    {reading : Except Error (α × Cursor)} (h : Agrees s run reading) (f : α → Nat → β) :
    Agrees s (run >>= fun x => pure (f x.1 x.2, x.2))
      (reading.map fun x => (f x.1 x.2.offset, x.2)) := by
  cases h with
  | @ok a i t h => exact .ok (f a i) h
  | refused e => exact .refused e

section
variable {s t r : Text} {i : Nat}

theorem Tail.moveTo_eq (h : Tail s i t) (hr : r <:+ t) :
    (⟨i, t⟩ : Cursor).moveTo r = ⟨offsetOf s r, r⟩ := by
  obtain ⟨u, rfl⟩ := hr
  rw [Cursor.moveTo_append, h.append.offsetOf_eq]

theorem uniform_isTagBlank : Uniform isTagBlank := by
  have h {a : Char} (ha : Low a) := uniform_beq ha
  exact ((((h (by decide)).or (h (by decide))).or (h (by decide))).or (h (by decide))).or
    (h (by decide))

theorem uniform_endsAttributeName : Uniform endsAttributeName :=
  (uniform_isTagBlank.or (uniform_beq (by decide))).or (uniform_beq (by decide))

theorem uniform_endsBareValue : Uniform endsBareValue :=
  uniform_isTagBlank.or (uniform_beq (by decide))

theorem uniform_isNameByte : Uniform isNameByte :=
  uniform_endsAttributeName.not.and (uniform_beq (by decide)).not

theorem skipBlanks_eq (h : Tail s i t) :
    skipBlanks s i = .ok (offsetOf s (t.dropWhile isTagBlank)) := h.skipRun_eq uniform_isTagBlank

theorem suffix_of_afterBrace (hr : afterBrace t = some r) : r <:+ t := by
  obtain ⟨u, hu, -⟩ := afterBrace_local hr
  exact ⟨u, hu.symm⟩

theorem readBraces_eq (h : Tail s i ('{' :: t)) :
    readBraces s i = match afterBrace t with
      | none => .error (.refused (.unterminated .expression i))
      | some r => .ok ((.classify (trim (enclosed t r)), enclosed t r), offsetOf s r) := by
  have hinside := h.next_low (by decide)
  rw [readBraces, braceFrom_eq hinside, ok_bind, ← afterBrace]
  cases hr : afterBrace t with
  | none => rfl
  | some r =>
    obtain ⟨w, rfl, -⟩ := exists_strict_of_afterBrace hr
    have hrest := hinside.append.next_low (by decide)
    have henclosed : enclosed (w ++ '}' :: r) r = w := by
      rw [List.append_cons, enclosed_append, List.dropLast_concat]
    simp only [Option.map_some, henclosed, hrest.offsetOf_eq, Nat.add_sub_cancel,
      hinside.cut_eq rfl, ok_bind, classify_eq]
    rfl

/-! Names. -/

theorem afterRun_suffix (ends : Char → Bool) (t : Text) : afterRun ends t <:+ t := by
  fun_induction afterRun ends t with
  | case4 c t _ _ ih => exact ih.trans (List.suffix_cons c t)
  | _ => exact List.suffix_rfl

theorem afterRun_cons (ends : Char → Bool) (c : Char) (t : Text) : afterRun ends (c :: t) =
    if ends c || (c == '/' && t.head? == some '>') then c :: t else afterRun ends t := by
  by_cases hclose : c = '/' ∧ t.head? = some '>'
  · obtain ⟨rfl, hhead⟩ := hclose
    obtain ⟨r, rfl⟩ := List.head?_eq_some_iff.mp hhead
    simp [afterRun]
  · have hstep : ∀ r, c = '/' → t = '>' :: r → False := fun r hc ht =>
      hclose ⟨hc, by rw [ht]; rfl⟩
    have hfalse : (c == '/' && t.head? == some '>') = false := by simpa using hclose
    rw [afterRun.eq_3 ends c t hstep, hfalse, Bool.or_false]

theorem afterRun_dropWhile {p ends : Char → Bool} (hp : ∀ c, p c = true → ends c = false ∧ c ≠ '/')
    (t : Text) : afterRun ends (t.dropWhile p) = afterRun ends t := by
  induction t with
  | nil => rfl
  | cons c t ih =>
    cases hc : p c with
    | false => rw [List.dropWhile_cons_of_neg (by simp [hc])]
    | true =>
      obtain ⟨hends, hslash⟩ := hp c hc
      rw [List.dropWhile_cons_of_pos hc, ih, afterRun_cons]
      simp [hends, hslash]

theorem ne_slash_of_isNameByte (c : Char) (hc : isNameByte c = true) :
    endsAttributeName c = false ∧ c ≠ '/' := by
  simpa [isNameByte] using hc

end

theorem skipSlashes_end {s : Text} {i : Nat}
    (h : ¬ (peek s i = some '/' ∧ peek s (i + 1) ≠ some '>')) : skipSlashes s i = .ok i := by
  rw [skipSlashes, if_neg h]
  rfl

/-- Behind the first part of a name the rest of it is passed over. -/
theorem skipSlashes_eq {s : Text} {i : Nat} {t : Text} (h : Tail s i t)
    (hhead : t.dropWhile isNameByte = t) :
    skipSlashes s i = .ok (offsetOf s (afterRun endsAttributeName t)) := by
  have hslash := h.peek_eq_some_iff (by decide : Low '/')
  match t with
  | [] =>
    rw [skipSlashes_end (by simp [hslash]), afterRun, h.offsetOf_eq]
  | c :: t =>
    by_cases hgo : c = '/' ∧ t.head? ≠ some '>'
    · obtain ⟨rfl, hend⟩ := hgo
      have hnext := h.next_low (by decide)
      have hclose := hnext.peek_eq_some_iff (by decide : Low '>')
      obtain ⟨hrest, hle⟩ := hnext.suffix (List.dropWhile_suffix isNameByte)
      have hshorter := length_dropWhile_le isNameByte t
      have hrun : afterRun endsAttributeName ('/' :: t) = afterRun endsAttributeName t := by
        rw [afterRun_cons]
        simp [endsAttributeName, isTagBlank, hend]
      rw [skipSlashes, if_pos ⟨hslash.mpr rfl, mt hclose.mp hend⟩,
        hnext.skipRun_eq uniform_isNameByte, ok_bind,
        onward_eq ⟨Nat.lt_of_succ_le hle, offsetOf_le _ _⟩, ok_bind,
        skipSlashes_eq hrest (List.dropWhile_idempotent ..),
        afterRun_dropWhile ne_slash_of_isNameByte, hrun]
    · have hstay : ¬ (peek s i = some '/' ∧ peek s (i + 1) ≠ some '>') := by
        rintro ⟨hc, hend⟩
        obtain rfl : c = '/' := by simpa using hslash.mp hc
        have hclose := (h.next_low (by decide)).peek_eq_some_iff (by decide : Low '>')
        exact hgo ⟨rfl, mt hclose.mpr hend⟩
      have hrun : afterRun endsAttributeName (c :: t) = c :: t := by
        have hname := List.dropWhile_eq_self_iff.mp hhead (Nat.succ_pos _)
        rw [afterRun_cons, if_pos]
        by_cases hends : endsAttributeName c = true
        · rw [hends, Bool.true_or]
        · obtain rfl : c = '/' := by simpa [isNameByte, hends] using hname
          have hclose := Decidable.not_not.mp (not_and.mp hgo rfl)
          simp [hclose]
      rw [skipSlashes_end hstay, hrun, h.offsetOf_eq]
  termination_by t.length

/-! Values. -/

section
variable {s t : Text} {q : Char} {openAt start i : Nat} {chunks : List Chunk}

theorem uniform_isValueChar (hq : Low q) : Uniform (isValueChar q) :=
  (uniform_beq hq).not.and (uniform_beq (by decide)).not

theorem textBetween_eq {w : Text} (h : Tail s i (w ++ t)) :
    textBetween s i (i + byteSize w) = .ok (textChunk w) := by
  rw [textBetween, h.cut_eq rfl]
  cases w with
  | nil => simp [textChunk]
  | cons c w =>
    have hpos := c.utf8Size_pos
    rw [if_pos (by rw [byteSize_cons]; omega)]
    rfl

theorem quotedFrom_end (hb : peek s i = none) : quotedFrom s q openAt chunks start i =
    .error (.refused (.unterminated .attributeValue openAt)) := by
  rw [quotedFrom]
  split
  next => rfl
  next hb' => cases hb.symm.trans hb'

theorem quotedFrom_byte {b : Char} (hb : peek s i = some b) (hvalue : isValueChar q b = true) :
    quotedFrom s q openAt chunks start i = quotedFrom s q openAt chunks start (i + 1) := by
  obtain ⟨hquote, hbrace⟩ : b ≠ q ∧ b ≠ '{' := by simpa [isValueChar] using hvalue
  rw [quotedFrom]
  split
  next hnone => cases hb.symm.trans hnone
  next b' hb' =>
    obtain rfl := Option.some.inj (hb.symm.trans hb')
    rw [if_neg hquote, if_neg hbrace]

theorem quotedFrom_run (hq : Low q) (h : Tail s i t) : quotedFrom s q openAt chunks start i =
    quotedFrom s q openAt chunks start (offsetOf s (t.dropWhile (isValueChar q))) := by
  induction t generalizing i with
  | nil => rw [List.dropWhile_nil, h.offsetOf_eq]
  | cons c t ih =>
    cases hc : isValueChar q c with
    | false => rw [List.dropWhile_cons_of_neg (by simp [hc]), h.offsetOf_eq]
    | true =>
      obtain ⟨b, hb, huniform⟩ := h.peek_cons
      have hvalue := (huniform _ (uniform_isValueChar hq)).trans hc
      have hskip : quotedFrom s q openAt chunks start (i + 1) =
          quotedFrom s q openAt chunks start (i + c.utf8Size) := by
        refine h.pass_rest fun hlow j b' _ hb' hhigh => ?_
        exact quotedFrom_byte hb' ((uniform_isValueChar hq b' c hhigh hlow).trans hc)
      rw [quotedFrom_byte hb hvalue, hskip, List.dropWhile_cons_of_pos hc, ih h.next]

theorem readChunks_unclosed {w : Text} (hq : q ≠ '{') (hw : ∀ c ∈ w, isValueChar q c = true)
    (ht : afterBrace t = none) (n : Nat) :
    readChunks q openAt ⟨n, w ++ '{' :: t⟩ =
      .error (.unterminated .expression (n + byteSize w)) := by
  have hd := dropWhile_run hw (by simp [isValueChar] : isValueChar q '{' = false) t
  unfold isValueChar at hd
  rw [readChunks]
  split
  next hnil => simp [hd] at hnil
  next d r hcons =>
    obtain ⟨rfl, rfl⟩ := List.cons.inj (hd.symm.trans hcons)
    rw [if_neg (Ne.symm hq)]
    split
    next => rw [Cursor.moveTo_append]
    next hr => simp [ht] at hr

/-- An expression in a value and what follows it. -/
theorem readChunks_closed {w r : Text} (hq : q ≠ '{') (hw : ∀ c ∈ w, isValueChar q c = true)
    (h : Tail s i (w ++ '{' :: t)) (hr : afterBrace t = some r) :
    readChunks q openAt ⟨i, w ++ '{' :: t⟩ =
      (readChunks q openAt ⟨offsetOf s r, r⟩).map fun (more, c) =>
        (textChunk w ++ .expression (.classify (trim (enclosed t r))) :: more, c) := by
  obtain ⟨v, rfl, hv⟩ := afterBrace_local hr
  have hrest : Tail s (i + byteSize (w ++ '{' :: v)) r := by
    rw [← List.cons_append, ← List.append_assoc] at h
    exact h.append
  rw [readChunks_brace hq hw (hv r), hrest.offsetOf_eq, enclosed_append]

theorem readChunks_open {w : Text} (hw : ∀ c ∈ w, isValueChar q c = true) (n : Nat) :
    readChunks q openAt ⟨n, w⟩ = .error (.unterminated .attributeValue openAt) := by
  have hd := List.dropWhile_eq_nil_iff.mpr hw
  unfold isValueChar at hd
  rw [readChunks]
  split
  next => rfl
  next hcons => cases hd.symm.trans hcons

end

/-- The value of an attribute without a text has an empty one. -/
def someChunk (chunks : List Chunk) : List Chunk := if chunks.isEmpty then [.text []] else chunks

theorem quotedFrom_quote {s w t : Text} {q : Char} {openAt i : Nat} {chunks : List Chunk}
    (h : Tail s i (w ++ q :: t)) (hq : Low q) :
    quotedFrom s q openAt chunks i (i + byteSize w) =
      .ok (someChunk (chunks ++ textChunk w), i + byteSize w + 1) := by
  have hb : peek s (i + byteSize w) = some q := h.append.peek_low hq
  rw [quotedFrom]
  split
  next hnone => cases hb.symm.trans hnone
  next b hb' =>
    obtain rfl := Option.some.inj (hb.symm.trans hb')
    rw [if_pos rfl]
    cases w with
    | nil =>
      have hcut : cut s i (i + byteSize []) = .ok [] := h.cut_eq rfl
      cases chunks with
      | nil =>
        rw [if_pos (.inr rfl), hcut]
        rfl
      | cons =>
        simp [textChunk, someChunk]
    | cons c w =>
      have hpos := c.utf8Size_pos
      rw [if_pos (.inl (by rw [byteSize_cons]; omega)), h.cut_eq rfl]
      simp [textChunk, someChunk]

theorem quotedFrom_brace {s w t : Text} {q : Char} (hq : q ≠ '{') {openAt i : Nat}
    {chunks : List Chunk} (h : Tail s i (w ++ '{' :: t)) :
    quotedFrom s q openAt chunks i (i + byteSize w) = match afterBrace t with
      | none => .error (.refused (.unterminated .expression (i + byteSize w)))
      | some r => quotedFrom s q openAt
          (chunks ++ textChunk w ++ [.expression (.classify (trim (enclosed t r)))])
          (offsetOf s r) (offsetOf s r) := by
  have hbrace : Tail s (i + byteSize w) ('{' :: t) := h.append
  have hb := hbrace.peek_low (by decide)
  rw [quotedFrom]
  split
  next hnone => cases hb.symm.trans hnone
  next b hb' =>
    obtain rfl := Option.some.inj (hb.symm.trans hb')
    rw [if_neg (Ne.symm hq), if_pos rfl, textBetween_eq h, ok_bind, readBraces_eq hbrace]
    cases hr : afterBrace t with
    | none => rfl
    | some r =>
      obtain ⟨-, hle⟩ := (hbrace.next_low (by decide)).suffix (suffix_of_afterBrace hr)
      simp only [ok_bind, onward_eq ⟨Nat.lt_of_succ_le hle, offsetOf_le s r⟩]

theorem quotedFrom_agrees {s : Text} {q : Char} (hq : isQuote q = true) (openAt : Nat) {i : Nat}
    {t : Text} (h : Tail s i t) (chunks : List Chunk) : Agrees s (quotedFrom s q openAt chunks i i)
      ((readChunks q openAt ⟨i, t⟩).map fun (l, c) => (someChunk (chunks ++ l), c)) := by
  have hlow := low_of_isQuote hq
  have hne : q ≠ '{' := by
    rintro rfl
    cases hq
  rw [quotedFrom_run hlow h]
  cases hd : t.dropWhile (isValueChar q) with
  | nil =>
    have hw := List.dropWhile_eq_nil_iff.mp hd
    have hend := (h.suffix (List.nil_suffix)).1
    rw [quotedFrom_end hend.peek_nil, readChunks_open hw]
    exact .refused _
  | cons d u =>
    obtain ⟨w, ht, hw, hstop, -⟩ := cut_run hd
    rw [ht] at h
    rw [h.append.offsetOf_eq, ht]
    by_cases hquote : d = q
    · subst hquote
      have hrest : Tail s (i + byteSize w + 1) u := h.append.next_low hlow
      rw [quotedFrom_quote h hlow, readChunks_quote hw, byteSize_append, ← Nat.add_assoc,
        byteSize_cons, hlow.utf8Size]
      exact .ok _ hrest
    · obtain rfl : d = '{' := by simpa [isValueChar, hquote] using hstop
      rw [quotedFrom_brace hne h]
      cases hr : afterBrace u with
      | none =>
        rw [readChunks_unclosed hne hw hr]
        exact .refused _
      | some r =>
        have hshorter : r.length < t.length := by
          have hlen := afterBrace_length hr
          rw [ht, List.length_append, List.length_cons]
          omega
        obtain ⟨hrest, -⟩ := (h.append.next_low (by decide)).suffix (suffix_of_afterBrace hr)
        have hread := quotedFrom_agrees hq openAt hrest
          (chunks ++ textChunk w ++ [.expression (.classify (trim (enclosed u r)))])
        rw [readChunks_closed hne hw h hr]
        cases hl : readChunks q openAt ⟨offsetOf s r, r⟩ <;>
          simpa [hl, Except.map] using hread
  termination_by t.length

/-- Where an unquoted value ends. -/
theorem skipBare_eq {s t : Text} {i : Nat} (h : Tail s i t) :
    skipWhile s (fun b j => .ok (!endsBareValue b && !(b == '/' && peek s (j + 1) == some '>'))) i =
      .ok (offsetOf s (afterRun endsBareValue t)) := by
  refine h.skipWhile_eq (fun t =>
    t.head?.any endsBareValue || (t.head? == some '/' && t.tail.head? == some '>')) rfl ?_ ?_ ?_
  · intro c t
    rw [afterRun_cons]
    simp
  · intro i c t b h hb
    obtain ⟨b', hb', huniform⟩ := h.peek_cons
    obtain rfl := Option.some.inj (hb.symm.trans hb')
    have hslash := huniform _ (uniform_beq (by decide : Low '/'))
    have hclose : (b == '/' && peek s (i + 1) == some '>') = (c == '/' && t.head? == some '>') := by
      by_cases hc : c = '/'
      · subst hc
        have hnext := (h.next_low (by decide)).peek_eq_some_iff (by decide : Low '>')
        rw [hslash, Bool.eq_iff_iff]
        simp [hnext]
      · simp only [hslash, beq_eq_false_iff_ne.mpr hc, Bool.false_and]
    simp [huniform _ uniform_endsBareValue, hclose]
  · intro c t j b hstop hc _ hb
    have hends : endsBareValue c = false := by simp_all
    have hslash := ne_of_not_low hb (by decide : Low '/')
    simp [uniform_endsBareValue b c hb hc, hends, hslash]

theorem readValue_agrees {s t : Text} {i : Nat} (start : Nat) (h : Tail s i t) :
    Agrees s (readValue s start i) (Markup.readValue start ⟨i, t⟩) := by
  cases t with
  | nil =>
    rw [readValue, h.peek_nil]
    exact .refused _
  | cons c t =>
    obtain ⟨b, hb, huniform⟩ := h.peek_cons
    have hquote : isQuote b = isQuote c := huniform _ uniform_isQuote
    have hbrace : b = '{' ↔ c = '{' := by
      rw [← beq_iff_eq, huniform _ (uniform_beq (by decide : Low '{')), beq_iff_eq]
    rw [readValue, hb]
    simp only
    by_cases hc : isQuote c = true
    · have hlow := low_of_isQuote hc
      obtain rfl := Option.some.inj (hb.symm.trans (h.peek_low hlow))
      rw [if_pos hc, readValue_quoted hc, hlow.utf8Size]
      exact quotedFrom_agrees hc i (h.next_low hlow) []
    · rw [if_neg (by rwa [hquote])]
      by_cases hopen : c = '{'
      · subst hopen
        rw [if_pos (hbrace.mpr rfl), readBraces_eq h, Markup.readValue]
        simp only
        cases hr : afterBrace t with
        | none => exact .refused _
        | some r =>
          have hsuffix := (suffix_of_afterBrace hr).trans (List.suffix_cons '{' t)
          simp only [h.moveTo_eq hsuffix]
          exact .ok _ (h.suffix hsuffix).1
      · obtain ⟨u, hu⟩ := afterRun_suffix endsBareValue (c :: t)
        have hread := readValue_bare hu (by simpa using hc) hopen (by rw [hu]) start i
        have hcut := h.cut_before ⟨u, hu⟩
        rw [if_neg (mt hbrace.mp hopen), skipBare_eq h, ok_bind, hcut]
        generalize afterRun endsBareValue (c :: t) = r at hu hread
        rw [← hu] at h ⊢
        rw [hread, before_append, h.append.offsetOf_eq]
        exact .ok _ h.append

/-! Attributes. -/

theorem Tail.skipBlanks_cursor {s t : Text} {i : Nat} (h : Tail s i t) :
    (⟨i, t⟩ : Cursor).skipBlanks =
      ⟨offsetOf s (t.dropWhile isTagBlank), t.dropWhile isTagBlank⟩ :=
  h.moveTo_eq (List.dropWhile_suffix _)

section
variable {s t : Text} {i : Nat}

theorem readAttribute_enclosing (h : Tail s i ('{' :: t)) :
    Agrees s (readAttribute s i) (Markup.readAttribute ⟨i, '{' :: t⟩) := by
  rw [readAttribute, if_pos (h.peek_low (by decide)), readBraces_eq h, Markup.readAttribute]
  simp only
  cases hr : afterBrace t with
  | none => exact .refused _
  | some r =>
    have hsuffix := (suffix_of_afterBrace hr).trans (List.suffix_cons '{' t)
    simp only [h.moveTo_eq hsuffix]
    exact .ok _ (h.suffix hsuffix).1

theorem readAttribute_named (h : Tail s i t) (hbrace : t.head? ≠ some '{') :
    Agrees s (readAttribute s i) (Markup.readAttribute ⟨i, t⟩) := by
  have hne := mt (h.peek_eq_some_iff (by decide : Low '{')).mp hbrace
  unfold Markup.readAttribute
  split
  next u ht => exact absurd (congrArg List.head? ht) hbrace
  -- two loops read the name, where the reader of characters has one
  have hfirst := (h.suffix (List.dropWhile_suffix isNameByte)).1
  have hname := skipSlashes_eq hfirst (List.dropWhile_idempotent ..)
  rw [afterRun_dropWhile ne_slash_of_isNameByte] at hname
  have hsuffix := afterRun_suffix endsAttributeName t
  rw [readAttribute, if_neg hne, h.skipRun_eq uniform_isNameByte, ok_bind, hname, ok_bind,
    h.cut_before hsuffix, ok_bind]
  simp only [h.moveTo_eq hsuffix]
  generalize afterRun endsAttributeName t = r at hsuffix
  obtain ⟨hr, -⟩ := h.suffix hsuffix
  split
  next => exact .refused _
  have hequals := (hr.suffix (List.dropWhile_suffix isTagBlank)).1
  have hpeek := hequals.peek_eq_some_iff (by decide : Low '=')
  rw [skipBlanks_eq hr, ok_bind]
  split
  next hequal =>
    obtain ⟨u, hu⟩ := List.head?_eq_some_iff.mp (hpeek.mp hequal)
    rw [hu] at hequals ⊢
    have hvalue := hequals.next_low (by decide)
    have hstart := (hvalue.suffix (List.dropWhile_suffix isTagBlank)).1
    have htail : u <:+ r :=
      (List.suffix_cons '=' u).trans (hu ▸ List.dropWhile_suffix isTagBlank)
    rw [skipBlanks_eq hvalue, ok_bind]
    simp only [hr.moveTo_eq htail, (hr.suffix htail).1.skipBlanks_cursor]
    exact (readValue_agrees i hstart).map fun chunks stop =>
      (⟨before t r, ⟨i, stop⟩, some chunks⟩ : Attribute)
  next hequal =>
    split
    next u hu => exact absurd (hpeek.mpr (by rw [hu]; rfl)) hequal
    next => exact .ok _ hr

theorem readAttribute_agrees (h : Tail s i t) :
    Agrees s (readAttribute s i) (Markup.readAttribute ⟨i, t⟩) := by
  by_cases hhead : t.head? = some '{'
  · obtain ⟨u, rfl⟩ := List.head?_eq_some_iff.mp hhead
    exact readAttribute_enclosing h
  · exact readAttribute_named h hhead

end

section
variable {s t u : Text} {i start : Nat} {attributes : List Attribute}

theorem readAttributes_endless (h : Tail s i t) (ht : t.dropWhile isTagBlank = []) :
    readAttributes s start attributes i = .error (.refused (.unterminated .tag start)) := by
  have hend := (h.suffix (List.dropWhile_suffix isTagBlank)).1
  rw [ht] at hend
  rw [readAttributes, skipBlanks_eq h, ok_bind, ht, hend.peek_nil]
  rfl

theorem readAttributes_open (h : Tail s i t) (ht : t.dropWhile isTagBlank = '>' :: u) :
    readAttributes s start attributes i = .ok ((attributes, false), offsetOf s u) ∧
      Tail s (offsetOf s u) u := by
  have hend := (h.suffix (List.dropWhile_suffix isTagBlank)).1
  rw [ht] at hend
  have hrest := hend.next_low (by decide)
  rw [readAttributes, skipBlanks_eq h, ok_bind, ht, hend.peek_low (by decide), hrest.offsetOf_eq]
  exact ⟨rfl, hrest⟩

theorem readAttributes_closed (h : Tail s i t) (ht : t.dropWhile isTagBlank = '/' :: '>' :: u) :
    readAttributes s start attributes i = .ok ((attributes, true), offsetOf s u) ∧
      Tail s (offsetOf s u) u := by
  have hend := (h.suffix (List.dropWhile_suffix isTagBlank)).1
  rw [ht] at hend
  have hclose := hend.next_low (by decide)
  have hrest := hclose.next_low (by decide)
  have hgreater := hclose.peek_low (by decide : Low '>')
  rw [readAttributes, skipBlanks_eq h, ok_bind, ht, hend.peek_low (by decide), hrest.offsetOf_eq]
  simp only [hgreater]
  exact ⟨rfl, hrest⟩

/-- A slash that does not end the tag is passed over. -/
theorem readAttributes_pass (h : Tail s i t) (ht : t.dropWhile isTagBlank = '/' :: u)
    (hu : ∀ x, u ≠ '>' :: x) :
    readAttributes s start attributes i = readAttributes s start attributes (offsetOf s u) ∧
      Tail s (offsetOf s u) u := by
  obtain ⟨hslash, hle⟩ := h.suffix (List.dropWhile_suffix isTagBlank)
  rw [ht] at hslash hle
  have hrest := hslash.next_low (by decide)
  have hend : ¬ peek s (offsetOf s ('/' :: u) + 1) = some '>' := by
    rw [hrest.peek_eq_some_iff (by decide)]
    intro hhead
    obtain ⟨x, hx⟩ := List.head?_eq_some_iff.mp hhead
    exact hu x hx
  have hmoves : i < offsetOf s ('/' :: u) + 1 ∧ offsetOf s ('/' :: u) + 1 ≤ byteSize s :=
    ⟨by omega, hrest.le⟩
  rw [readAttributes, skipBlanks_eq h, ok_bind, ht, hslash.peek_low (by decide), hrest.offsetOf_eq]
  simp only [hend, onward_eq hmoves]
  exact ⟨rfl, hrest⟩

/-- What is neither the end of the tag nor a slash is an attribute. -/
theorem readAttributes_step (h : Tail s i t) (hempty : t.dropWhile isTagBlank ≠ [])
    (hend : ∀ u, t.dropWhile isTagBlank ≠ '>' :: u)
    (hslash : ∀ u, t.dropWhile isTagBlank ≠ '/' :: u) :
    readAttributes s start attributes i =
      readAttribute s (offsetOf s (t.dropWhile isTagBlank)) >>= fun x =>
        onward s i x.2 >>= fun k => readAttributes s start (attributes ++ [x.1]) k := by
  have hfirst := (h.suffix (List.dropWhile_suffix isTagBlank)).1
  obtain ⟨c, r, hr⟩ := List.exists_cons_of_ne_nil hempty
  rw [hr] at hfirst
  obtain ⟨b, hb, huniform⟩ := hfirst.peek_cons
  have hne {a : Char} (ha : Low a) (hc : c ≠ a) : b ≠ a := by
    rw [← beq_eq_false_iff_ne, huniform _ (uniform_beq ha), beq_eq_false_iff_ne]
    exact hc
  have hb₁ : b ≠ '>' := hne (by decide) (by rintro rfl; exact hend r hr)
  have hb₂ : b ≠ '/' := hne (by decide) (by rintro rfl; exact hslash r hr)
  rw [readAttributes, skipBlanks_eq h, ok_bind, hr, hb]
  simp only [hb₁, hb₂, if_false, false_and]

end

/-- The attributes of a tag are read alike, behind the ones that have been read. -/
theorem readAttributes_agrees {s t : Text} {i : Nat} (start : Nat) (h : Tail s i t)
    (attributes : List Attribute) :
    Agrees s (readAttributes s start attributes i)
      ((Markup.readAttributes start ⟨i, t⟩).map fun (as, closed, c) =>
        ((attributes ++ as, closed), c)) := by
  obtain ⟨hfirst, hle⟩ := h.suffix (List.dropWhile_suffix isTagBlank)
  have hlen := length_dropWhile_le isTagBlank t
  rw [Markup.readAttributes, h.skipBlanks_cursor]
  simp only
  split
  next ht =>
    rw [readAttributes_endless h ht]
    exact .refused _
  next u ht =>
    obtain ⟨hrun, hrest⟩ := readAttributes_open h ht
    rw [hfirst.moveTo_eq (ht ▸ List.suffix_cons '>' u), hrun]
    simpa [Except.map] using Agrees.ok (attributes, false) hrest
  next u ht =>
    obtain ⟨hrun, hrest⟩ := readAttributes_closed h ht
    rw [hfirst.moveTo_eq (ht ▸ ⟨['/', '>'], rfl⟩), hrun]
    simpa [Except.map] using Agrees.ok (attributes, true) hrest
  next u hu ht =>
    obtain ⟨hrun, hrest⟩ := readAttributes_pass h ht fun x hx => hu x hx
    have hshorter : u.length < t.length := by
      rw [ht] at hlen
      exact hlen
    rw [hfirst.moveTo_eq (ht ▸ List.suffix_cons '/' u), hrun]
    exact readAttributes_agrees start hrest attributes
  next =>
    rename_i hempty hend _ hslash
    have hread := readAttribute_agrees hfirst
    rw [readAttributes_step h hempty hend hslash]
    split
    next e he =>
      rw [he] at hread
      rw [hread.of_error]
      exact .refused e
    next a c ha =>
      rw [ha] at hread
      obtain ⟨hrun, hrest⟩ := hread.of_ok
      have hlater := hfirst.lt_of_length hrest (readAttribute_shorter ha)
      have hshorter : c.rest.length < t.length := Nat.lt_of_lt_of_le (readAttribute_shorter ha) hlen
      have hmoves : i < c.offset ∧ c.offset ≤ byteSize s :=
        ⟨Nat.lt_of_le_of_lt hle hlater, hrest.le⟩
      have hmore := readAttributes_agrees start hrest (attributes ++ [a])
      rw [hrun, ok_bind]
      simp only [onward_eq hmoves, ok_bind]
      cases hl : Markup.readAttributes start c <;> simpa [hl, Except.map] using hmore
  termination_by t.length

end MarkupHighlight.Bytewise
