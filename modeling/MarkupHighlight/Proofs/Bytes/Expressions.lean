import MarkupHighlight.Proofs.Bytes.Scanning
import MarkupHighlight.Proofs.Script.Substitutions

/-!
The form of an expression, read byte by byte. A template is scanned twice, for its end and for its
fragments; the second scan stops at every place the first one passed. `classify_eq` says that
reading the form of any text gives what is read from its characters, without a fault.
-/
namespace MarkupHighlight.Bytewise
open Script

/-- The fragments of the literal `s`, which ends at `stop`, from offset `i` on; the fragment being
read starts at `start`. -/
def fragmentsFrom (s : Text) (stop start i : Nat) : Run (List Fragment) :=
  if _h : i < stop then do
    let b ← byteAt s i
    if b = '\\' then fragmentsFrom s stop start (i + 2)
    else if b = '$' ∧ peek s (i + 1) = some '{' then
      let raw ← cut s start i
      let close ← braceFrom s 0 (i + 2)
      let j ← onward s i (close.elim stop (· + 1))
      let more ← fragmentsFrom s stop j j
      return .ofRaw raw :: more
    else fragmentsFrom s stop start (i + 1)
  else do
    let raw ← cut s (min start stop) stop
    return [.ofRaw raw]
  termination_by stop - i
  decreasing_by all_goals omega

/-- The fragments of a text that is a template as a whole. -/
def fragments (s : Text) : Run (List Fragment) := do
  let stop ← minus (byteSize s) 1
  fragmentsFrom s stop 1 1

/-- Reads the form of an expression. -/
def classify (s : Text) : Run Expression := do
  if (peek s 0).any isQuote then
    if (← stringEnd s 0) = some (byteSize s) then
      let stop ← minus (byteSize s) 1
      return .literal (unescape (← cut s 1 stop))
    else return .other s
  else if peek s 0 = some '\x60' then
    if (← templateFrom s 1) = some (byteSize s) then return .template (← fragments s)
    else return .other s
  else return .other s

/-! Fragments. -/

section
variable {s t : Text} {stop start i : Nat}

theorem fragmentsFrom_stop (h : stop ≤ i) : fragmentsFrom s stop start i =
    (cut s (min start stop) stop).map fun raw => [.ofRaw raw] := by
  rw [fragmentsFrom, dif_neg (Nat.not_lt.mpr h)]
  cases cut s (min start stop) stop <;> rfl

theorem fragmentsFrom_passes {b : Char} (hi : i < stop) (hb : peek s i = some b)
    (hpasses : Mode.template.passes b (peek s (i + 1)).toList = true) :
    fragmentsFrom s stop start i = fragmentsFrom s stop start (i + 1) := by
  simp only [Mode.passes, Bool.and_eq_true, Bool.not_eq_true', bne_iff_ne,
    Option.head?_toList] at hpasses
  obtain ⟨⟨-, hescape⟩, hdollar⟩ := hpasses
  have hopening : ¬ (b = '$' ∧ peek s (i + 1) = some '{') := by
    rintro ⟨rfl, hnext⟩
    simp [hnext] at hdollar
  rw [fragmentsFrom, dif_pos hi, byteAt, hb, ok_bind, if_neg hescape, if_neg hopening]

/-- The loop passes over a static part. -/
theorem fragmentsFrom_flat {w : Text} (hw : Flat .template w) (ht : t.head? ≠ some '{')
    (h : Tail s i (w ++ t)) (hstop : i + byteSize w ≤ stop) :
    fragmentsFrom s stop start i = fragmentsFrom s stop start (i + byteSize w) := by
  induction hw generalizing i with
  | nil => rfl
  | @pass c w hc _ ih =>
    rw [byteSize_cons] at hstop
    have hstep : fragmentsFrom s stop start i = _ := h.passes (by simp)
      (fun j b hj => fragmentsFrom_passes (by omega)) (Mode.passes_template_append hc ht)
    rw [hstep, ih h.next (by omega), byteSize_cons, Nat.add_assoc]
  | @escape c w _ ih =>
    have hescape : ('\\' : Char).utf8Size = 1 := rfl
    rw [byteSize_cons, byteSize_cons, hescape] at hstop
    have hpos := c.utf8Size_pos
    have hnext : Tail s (i + 1) (c :: (w ++ t)) := h.next_low (by decide)
    have hskip : fragmentsFrom s stop start (i + 1 + 1) = _ :=
      hnext.pass_rest fun _ j b hj hb hb' =>
        fragmentsFrom_passes (by omega) hb (passes_of_not_low (by simp) hb' _)
    rw [fragmentsFrom, dif_pos (by omega), h.byteAt_low (by decide), ok_bind, if_pos rfl, hskip,
      ih hnext.next (by omega), byteSize_cons, byteSize_cons, hescape]
    congr 1
    omega

/-- A substitution ends the fragment before it. -/
theorem fragmentsFrom_substitution {e raw : Text} (he : ClosedByBrace e) (hi : i < stop)
    (h : Tail s i ('$' :: '{' :: (e ++ '}' :: t))) (hraw : cut s start i = .ok raw) :
    fragmentsFrom s stop start i =
      (fragmentsFrom s stop (offsetOf s t) (offsetOf s t)).map (.ofRaw raw :: ·) := by
  have hbrace : Tail s (i + 1) ('{' :: (e ++ '}' :: t)) := h.next_low (by decide)
  have hinside : Tail s (i + 2) (e ++ '}' :: t) := hbrace.next_low (by decide)
  have hopen : peek s (i + 1) = some '{' := hbrace.peek_low (by decide)
  have hclose := braceFrom_eq hinside 0
  obtain ⟨-, hle⟩ := hinside.of_resume (he t)
  have hj : offsetOf s t - 1 + 1 = offsetOf s t := by omega
  have hlt : i < offsetOf s t ∧ offsetOf s t ≤ byteSize s := ⟨by omega, offsetOf_le s t⟩
  rw [← afterBrace, he, Option.map_some] at hclose
  rw [fragmentsFrom, dif_pos hi, h.byteAt_low (by decide), ok_bind, if_neg (by decide),
    if_pos ⟨rfl, hopen⟩, hraw, ok_bind, hclose, ok_bind]
  simp only [Option.elim_some, hj, onward_eq hlt, ok_bind]
  cases fragmentsFrom s stop (offsetOf s t) (offsetOf s t) <;> rfl

end

/-- The loop finds the static parts of a template. -/
theorem fragmentsFrom_templateBody {s raw : Text} {more : List (Text × Text)} {i : Nat}
    (hraw : ∀ r ∈ raw :: more.map (·.2), Flat .template r)
    (hclosed : ∀ e ∈ more.map (·.1), ClosedByBrace e)
    (h : Tail s i (templateBody raw more ++ ['\x60'])) {stop : Nat}
    (hstop : i + byteSize (templateBody raw more) = stop) :
    fragmentsFrom s stop i i = .ok ((raw :: more.map (·.2)).map .ofRaw) := by
  have hflat := hraw raw (List.mem_cons_self ..)
  induction more generalizing raw i with
  | nil =>
    rw [templateBody] at h hstop
    rw [fragmentsFrom_flat hflat (by simp) h (by omega), hstop, fragmentsFrom_stop (Nat.le_refl _),
      Nat.min_eq_left (by omega), h.cut_eq hstop.symm]
    rfl
  | cons p more ih =>
    obtain ⟨e, next⟩ := p
    obtain ⟨he, hmore⟩ := List.forall_mem_cons.mp hclosed
    have hnext := (List.forall_mem_cons.mp hraw).2
    have hbody : templateBody raw ((e, next) :: more) ++ ['\x60'] =
        raw ++ '$' :: '{' :: (e ++ '}' :: (templateBody next more ++ ['\x60'])) := by
      simp [templateBody]
    rw [hbody] at h
    have hdollar := h.append
    have hrest : Tail s (i + byteSize raw + 2 + byteSize e + 1)
        (templateBody next more ++ ['\x60']) :=
      ((hdollar.next_low (by decide)).next_low (by decide)).append.next_low (by decide)
    have hend : i + byteSize raw + 2 + byteSize e + 1 + byteSize (templateBody next more) =
        stop := by
      have hsize : ('$' : Char).utf8Size = 1 ∧ ('{' : Char).utf8Size = 1 ∧
          ('}' : Char).utf8Size = 1 := by decide
      simp only [templateBody, byteSize_append, byteSize_cons, hsize] at hstop
      omega
    rw [fragmentsFrom_flat hflat (by simp) h (by omega),
      fragmentsFrom_substitution he (by omega) hdollar (h.cut_eq rfl), hrest.offsetOf_eq,
      ih hnext hmore hrest hend (hnext next (List.mem_cons_self ..))]
    rfl

/-! Forms. -/

/-- A scan ends at the end of the text if it leaves nothing. -/
theorem offsetOf_eq_byteSize {s t : Text} {i : Nat} {stack : List Mode} (h : Tail s i t) :
    (resume stack t).map (offsetOf s) = some (byteSize s) ↔ resume stack t = some [] := by
  cases hr : resume stack t with
  | none => simp
  | some r =>
    have hsize := (h.of_resume hr).1.size
    simp only [Option.map_some, Option.some.injEq, ← byteSize_eq_zero]
    omega

theorem exists_of_afterQuoted {q : Char} {t : Text} (h : afterQuoted q t = some []) :
    ∃ w, t = w ++ [q] := by
  cases unwinds_of_resume h with
  | @close _ _ w _ _ _ _ hclosing hs =>
    cases hclosing
    cases hs
    exact ⟨w, rfl⟩

/-- The inside of a text between two one-byte characters. -/
theorem cut_inside {a b : Char} (ha : Low a) (hb : Low b) (w : Text) :
    minus (byteSize (a :: (w ++ [b]))) 1 = .ok (1 + byteSize w) ∧
      cut (a :: (w ++ [b])) 1 (1 + byteSize w) = .ok w := by
  have hsize : byteSize (a :: (w ++ [b])) = 1 + byteSize w + 1 := by
    simp only [byteSize_cons, byteSize_append, ha.utf8Size, hb.utf8Size, byteSize_nil]
    omega
  have hinside : Tail (a :: (w ++ [b])) 1 (w ++ [b]) := (tail_zero _).next_low ha
  refine ⟨?_, hinside.cut_eq rfl⟩
  rw [minus, hsize, if_pos (by omega), Nat.add_sub_cancel]

/-- The second scan of a template finds the fragments that the reader of characters finds. -/
theorem fragments_eq {t : Text} (h : afterTemplate t = some []) :
    fragments ('\x60' :: t) = .ok ((splitFragments [] t.dropLast).map .ofRaw) := by
  obtain ⟨raw, more, rfl, hraw, hclosed⟩ := exists_templateBody_of_afterTemplate h
  obtain ⟨hminus, -⟩ :=
    cut_inside (by decide : Low '\x60') (by decide : Low '\x60') (templateBody raw more)
  have hinside := (tail_zero ('\x60' :: (templateBody raw more ++ ['\x60']))).next_low (by decide)
  rw [fragments, hminus, ok_bind, fragmentsFrom_templateBody hraw hclosed hinside rfl,
    List.dropLast_concat, splitFragments_templateBody hraw hclosed]
  rfl

section
variable {c : Char} {t : Text}

/-- A text that starts with a quote is a literal if the string ends where the text does. -/
theorem classify_quoted (hquote : isQuote c = true) :
    classify (c :: t) = .ok (Expression.classify (c :: t)) := by
  have h := tail_zero (c :: t)
  have hc := low_of_isQuote hquote
  have hwhole : (afterQuoted c t).map (offsetOf (c :: t)) = some (byteSize (c :: t)) ↔
      afterQuoted c t = some [] := offsetOf_eq_byteSize (h.next_low hc)
  rw [classify, h.peek_low hc, Option.any_some, if_pos hquote, stringEnd_eq hc h, ok_bind]
  by_cases hend : afterQuoted c t = some []
  · obtain ⟨w, rfl⟩ := exists_of_afterQuoted hend
    obtain ⟨hminus, hcut⟩ := cut_inside hc hc w
    rw [if_pos (hwhole.mpr hend), hminus, ok_bind, hcut]
    simp [Expression.classify, hquote, hend]
  · have htick : c ≠ '\x60' := by
      rintro rfl
      cases hquote
    rw [if_neg (mt hwhole.mp hend)]
    simp [Expression.classify, hend, htick]

theorem classify_unquoted (hquote : isQuote c = false) : classify (c :: t) =
    if peek (c :: t) 0 = some '\x60' then do
      if (← templateFrom (c :: t) 1) = some (byteSize (c :: t)) then
        return .template (← fragments (c :: t))
      else return .other (c :: t)
    else return .other (c :: t) := by
  obtain ⟨b, hb, huniform⟩ := (tail_zero (c :: t)).peek_cons
  have hany : ¬ (peek (c :: t) 0).any isQuote = true := by
    rw [hb, Option.any_some, huniform _ uniform_isQuote, hquote]
    exact Bool.false_ne_true
  rw [classify, if_neg hany]

/-- A text that starts with a backtick is a template if the template ends where the text does. -/
theorem classify_backtick : classify ('\x60' :: t) = .ok (Expression.classify ('\x60' :: t)) := by
  have h := tail_zero ('\x60' :: t)
  have hinside : Tail ('\x60' :: t) 1 t := h.next_low (by decide)
  have hwhole : (afterTemplate t).map (offsetOf ('\x60' :: t)) = some (byteSize ('\x60' :: t)) ↔
      afterTemplate t = some [] := offsetOf_eq_byteSize hinside
  have hquote : isQuote '\x60' = false := rfl
  rw [classify_unquoted hquote, if_pos (h.peek_low (by decide)), templateFrom_eq hinside, ok_bind]
  by_cases hend : afterTemplate t = some []
  · rw [if_pos (hwhole.mpr hend), fragments_eq hend]
    simp [Expression.classify, hquote, hend]
  · rw [if_neg (mt hwhole.mp hend)]
    simp [Expression.classify, hquote, hend]

end

theorem classify_eq (s : Text) : classify s = .ok (Expression.classify s) := by
  match s with
  | [] => rfl
  | c :: t =>
    by_cases hquote : isQuote c = true
    · exact classify_quoted hquote
    by_cases htick : c = '\x60'
    · exact htick ▸ classify_backtick
    · have hfirst := (tail_zero (c :: t)).peek_eq_some_iff (by decide : Low '\x60')
      rw [classify_unquoted (by simpa using hquote), if_neg (by simpa [hfirst] using htick)]
      simp [Expression.classify, hquote, htick]

end MarkupHighlight.Bytewise
