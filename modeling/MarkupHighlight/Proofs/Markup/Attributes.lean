import MarkupHighlight.Proofs.Script.Locality
import MarkupHighlight.Proofs.Text.Cutting
import MarkupHighlight.Proofs.Markup.Shift
import Mathlib.Data.List.TakeWhile

/-!
The attributes of a tag are read alike wherever the tag stands and whatever follows it. An
attribute alone may depend on what follows, but not on what follows the next attribute's first
character or the tag's `>`; so the statements on single attributes name an anchored text `w` up to
which what follows is fixed.
-/
namespace MarkupHighlight.Markup
open Script

@[simp] theorem Cursor.moveTo_append (n : Nat) (u t : Text) :
    (⟨n, u ++ t⟩ : Cursor).moveTo t = ⟨n + byteSize u, t⟩ := by
  simp [Cursor.moveTo]

@[simp] theorem Cursor.moveTo_cons (n : Nat) (d : Char) (t : Text) :
    (⟨n, d :: t⟩ : Cursor).moveTo t = ⟨n + d.utf8Size, t⟩ := by
  simpa using Cursor.moveTo_append n [d] t

@[simp] theorem enclosed_append (u t : Text) : enclosed (u ++ t) t = u.dropLast := by
  simp [enclosed]

/-- Text with a character in it that is neither blank nor a slash, before which every name or value
ends. -/
def Anchored (w : Text) : Prop := ∃ d ∈ w, isTagBlank d = false ∧ d ≠ '/'

theorem anchored_of_tagEnd {w : Text} (hw : '>' ∈ w) : Anchored w :=
  ⟨'>', hw, by decide, by decide⟩

theorem Anchored.ne_nil {w : Text} (hw : Anchored w) : w ≠ [] := by
  obtain ⟨d, hd, -⟩ := hw
  exact List.ne_nil_of_mem hd

theorem Anchored.ne_slash {w : Text} (hw : Anchored w) : w ≠ ['/'] := by
  rintro rfl
  obtain ⟨d, hd, -, hne⟩ := hw
  exact hne (List.mem_singleton.mp hd)

/-- Anchored text goes on with the same character whatever stands behind it. -/
theorem Anchored.exists_cons {u w : Text} (hw : Anchored w) : ∃ d x, u ++ w = d :: x :=
  List.exists_cons_of_ne_nil (List.append_ne_nil_of_right_ne_nil u hw.ne_nil)

theorem Anchored.append {w : Text} (hw : Anchored w) (u : Text) : Anchored (u ++ w) := by
  obtain ⟨d, hd, hd'⟩ := hw
  exact ⟨d, List.mem_append_right u hd, hd'⟩

theorem dropWhile_blank_append {w : Text} (hw : Anchored w) (t : Text) :
    ∃ d x, w.dropWhile isTagBlank = d :: x ∧
      (w ++ t).dropWhile isTagBlank = d :: (x ++ t) := by
  have hne : w.dropWhile isTagBlank ≠ [] := by
    rw [Ne, List.dropWhile_eq_nil_iff]
    obtain ⟨d, hd, hblank, -⟩ := hw
    intro h
    simp [h d hd] at hblank
  obtain ⟨d, x, hx⟩ := List.exists_cons_of_ne_nil hne
  refine ⟨d, x, hx, ?_⟩
  rw [List.dropWhile_append, hx]
  rfl

theorem afterRun_local {ends : Char → Bool} {s w t : Text} (h : afterRun ends s = w ++ t)
    (hw : Anchored w) : ∃ u, s = u ++ (w ++ t) ∧ ∀ t', afterRun ends (u ++ (w ++ t')) = w ++ t' := by
  fun_induction afterRun ends s with
  | case1 =>
    obtain ⟨rfl, -⟩ := List.append_eq_nil_iff.mp h.symm
    exact absurd rfl hw.ne_nil
  | case2 s =>
    refine ⟨[], h, fun t' => ?_⟩
    obtain _ | ⟨a, _ | ⟨b, w⟩⟩ := w
    · exact absurd rfl hw.ne_nil
    · obtain ⟨rfl, -⟩ := List.cons.inj h
      exact absurd rfl hw.ne_slash
    · obtain ⟨ha, h⟩ := List.cons.inj h
      obtain ⟨rfl, -⟩ := List.cons.inj h
      simp [← ha, afterRun]
  | case3 c s hs hc =>
    refine ⟨[], h, fun t' => ?_⟩
    cases w with
    | nil => exact absurd rfl hw.ne_nil
    | cons a w =>
      obtain ⟨rfl, -⟩ := List.cons.inj h
      rw [List.nil_append, List.cons_append, afterRun.eq_def]
      split <;> simp_all
  | case4 c s hs hc ih =>
    obtain ⟨u, rfl, hu⟩ := ih h
    refine ⟨c :: u, rfl, fun t' => ?_⟩
    obtain ⟨d, x, hx⟩ := hw.exists_cons (u := u)
    have hx' (y : Text) : u ++ (w ++ y) = d :: (x ++ y) := by
      rw [← List.append_assoc, hx, List.cons_append]
    have hstep : ∀ y, c = '/' → u ++ (w ++ t') = '>' :: y → False := by
      intro y h1 h2
      rw [hx'] at h2
      obtain ⟨rfl, -⟩ := List.cons.inj h2
      exact hs (x ++ t) h1 (hx' t)
    rw [List.cons_append, afterRun.eq_3 ends c _ hstep, if_neg hc, hu]

/-! Quoted values. -/

/-- A character of a quoted value that is neither its end nor the start of an expression. -/
def isValueChar (q d : Char) : Bool := d != q && d != '{'

theorem readChunks_quote {q : Char} {w : Text} (hw : ∀ c ∈ w, isValueChar q c = true) (m n : Nat)
    (t : Text) :
    readChunks q m ⟨n, w ++ q :: t⟩ = .ok (textChunk w, ⟨n + byteSize (w ++ [q]), t⟩) := by
  have hq : isValueChar q q = false := by simp [isValueChar]
  have hd := dropWhile_run hw hq t
  have ht := takeWhile_run hw hq t
  unfold isValueChar at hd ht
  rw [readChunks]
  split
  next hnil => simp [hd] at hnil
  next d s hcons =>
    obtain ⟨rfl, rfl⟩ := List.cons.inj (hd.symm.trans hcons)
    simp only [if_pos, ht]
    rw [← List.singleton_append, ← List.append_assoc, Cursor.moveTo_append]

theorem readChunks_brace {q : Char} {w v t : Text} {m n : Nat} (hq : q ≠ '{')
    (hw : ∀ c ∈ w, isValueChar q c = true) (hv : afterBrace (v ++ t) = some t) :
    readChunks q m ⟨n, w ++ '{' :: (v ++ t)⟩ =
      (readChunks q m ⟨n + byteSize (w ++ '{' :: v), t⟩).map fun (more, c) =>
        (textChunk w ++ .expression (.classify (trim v.dropLast)) :: more, c) := by
  have hb : isValueChar q '{' = false := by simp [isValueChar]
  have hd := dropWhile_run hw hb (v ++ t)
  have ht := takeWhile_run hw hb (v ++ t)
  unfold isValueChar at hd ht
  have hc : (((⟨n, w ++ '{' :: (v ++ t)⟩ : Cursor).moveTo ('{' :: (v ++ t))).moveTo t) =
      ⟨n + byteSize (w ++ '{' :: v), t⟩ := by
    rw [Cursor.moveTo_append, ← List.cons_append, Cursor.moveTo_append, byteSize_append,
      Nat.add_assoc]
  rw [readChunks]
  split
  next hnil => simp [hd] at hnil
  next d s hcons =>
    obtain ⟨rfl, rfl⟩ := List.cons.inj (hd.symm.trans hcons)
    simp only [if_neg (Ne.symm hq), ht]
    split
    next hnone => simp [hv] at hnone
    next r hr =>
      obtain rfl : t = r := by simpa [hv] using hr
      rw [hc, enclosed_append]
      cases readChunks q m ⟨n + byteSize (w ++ '{' :: v), t⟩ <;> rfl

theorem readChunks_local {q : Char} {m : Nat} {c c' : Cursor} {l : List Chunk} (hq : q ≠ '{')
    (h : readChunks q m c = .ok (l, c')) :
    ∃ u, c.rest = u ++ c'.rest ∧
      ∀ m n t, readChunks q m ⟨n, u ++ t⟩ = .ok (l, ⟨n + byteSize u, t⟩) := by
  fun_induction readChunks q m c generalizing l with
  | case1 | case3 | case4 => simp at h
  | case2 c raw s =>
    rename_i hs
    obtain ⟨w, hc, hw, -, ht⟩ := cut_run hs
    obtain ⟨rfl, rfl⟩ := Prod.mk.inj (Except.ok.inj h)
    refine ⟨w ++ [q], by simpa using hc, fun m n t => ?_⟩
    rw [List.append_assoc, List.singleton_append, readChunks_quote hw, ← ht]
  | case5 c raw d s hs hd brace r hr more c₂ hmore =>
    rename_i ih
    obtain ⟨w, hc, hw, hstop, ht⟩ := cut_run hs
    obtain ⟨rfl, rfl⟩ := Prod.mk.inj (Except.ok.inj h)
    obtain ⟨v, rfl, hv⟩ := afterBrace_local hr
    obtain ⟨u, hu, hread⟩ := ih hmore
    rw [Cursor.rest_moveTo] at hu
    obtain rfl : d = '{' := by simpa [hd] using hstop
    refine ⟨w ++ '{' :: (v ++ u), by simp [hc, hu], fun m n t => ?_⟩
    have hassoc : w ++ '{' :: (v ++ u) ++ t = w ++ '{' :: (v ++ (u ++ t)) := by simp
    rw [hassoc, readChunks_brace hq hw (hv _), hread, enclosed_append, ← ht]
    simp [raw, Except.map, Nat.add_assoc]

/-! Values and single attributes, up to the anchor in `w`. -/

theorem skipBlanks_run {b t : Text} {d : Char} {n : Nat} (hb : ∀ c ∈ b, isTagBlank c = true)
    (hd : isTagBlank d = false) :
    (⟨n, b ++ d :: t⟩ : Cursor).skipBlanks = ⟨n + byteSize b, d :: t⟩ := by
  rw [Cursor.skipBlanks, dropWhile_run hb hd, Cursor.moveTo_append]

theorem exists_skipBlanks {c : Cursor} {d : Char} {s : Text} (hs : c.skipBlanks.rest = d :: s) :
    ∃ w, (∀ e ∈ w, isTagBlank e = true) ∧ c.rest = w ++ d :: s ∧
      c.skipBlanks = ⟨c.offset + byteSize w, d :: s⟩ := by
  obtain ⟨w, hc, hw, hd, -⟩ := cut_run hs
  obtain ⟨n, r⟩ := c
  obtain rfl : r = w ++ d :: s := hc
  exact ⟨w, hw, rfl, skipBlanks_run hw hd⟩

theorem skipBlanks_append {b r : Text} (hb : ∀ c ∈ b, isTagBlank c = true)
    (hr : ∀ d ∈ r.head?, isTagBlank d = false) (n : Nat) :
    (⟨n, b ++ r⟩ : Cursor).skipBlanks = ⟨n + byteSize b, r⟩ := by
  cases r with
  | nil =>
    have hdrop : (b ++ []).dropWhile isTagBlank = [] := by
      rwa [List.append_nil, List.dropWhile_eq_nil_iff]
    rw [Cursor.skipBlanks, hdrop, Cursor.moveTo_append]
  | cons d r => exact skipBlanks_run hb (hr d rfl)

theorem readValue_brace {v t : Text} (hv : afterBrace (v ++ t) = some t) (m n : Nat) :
    readValue m ⟨n, '{' :: (v ++ t)⟩ =
      .ok ([.expression (.classify (trim v.dropLast))], ⟨n + byteSize ('{' :: v), t⟩) := by
  simp only [readValue, hv, enclosed_append]
  rw [← List.cons_append, Cursor.moveTo_append]

theorem readValue_quoted {q : Char} (hq : isQuote q = true) (m n : Nat) (s : Text) :
    readValue m ⟨n, q :: s⟩ =
      (readChunks q n ⟨n + q.utf8Size, s⟩).map fun (chunks, c) =>
        (if chunks.isEmpty then [.text []] else chunks, c) := by
  have hne : q ≠ '{' := by
    rintro rfl
    simp [isQuote] at hq
  unfold readValue
  split
  next heq => cases heq
  next heq => exact absurd (List.cons.inj heq).1 hne
  next heq =>
    obtain ⟨rfl, rfl⟩ := List.cons.inj heq
    rw [if_pos hq, Cursor.moveTo_cons]

theorem readValue_bare {u r : Text} {d : Char} {x : Text} (hx : u ++ r = d :: x)
    (hq : isQuote d = false) (hd : d ≠ '{') (hr : afterRun endsBareValue (u ++ r) = r) (m n : Nat) :
    readValue m ⟨n, u ++ r⟩ = .ok ([.text u], ⟨n + byteSize u, r⟩) := by
  unfold readValue
  split
  next heq => cases hx.symm.trans heq
  next heq => exact absurd (List.cons.inj (hx.symm.trans heq)).1 hd
  next heq =>
    obtain ⟨rfl, rfl⟩ := List.cons.inj (hx.symm.trans heq)
    rw [if_neg (by simp [hq]), ← hx]
    simp only [hr, before_append, Cursor.moveTo_append]

theorem readValue_local {m p : Nat} {c : Cursor} {l : List Chunk} {w t : Text}
    (h : readValue m c = .ok (l, ⟨p, w ++ t⟩)) (hw : Anchored w) :
    ∃ u, c.rest = u ++ (w ++ t) ∧
      ∀ m n t', readValue m ⟨n, u ++ (w ++ t')⟩ = .ok (l, ⟨n + byteSize u, w ++ t'⟩) := by
  unfold readValue at h
  split at h
  next => simp at h
  next s hs =>
    split at h
    next => simp at h
    next r hr =>
      obtain ⟨rfl, hc⟩ := Prod.mk.inj (Except.ok.inj h)
      obtain ⟨v, rfl, hv⟩ := afterBrace_local hr
      obtain rfl : r = w ++ t := congrArg Cursor.rest hc
      refine ⟨'{' :: v, hs, fun m n t' => ?_⟩
      rw [List.cons_append, readValue_brace (hv _), enclosed_append]
  next d s hbrace hs =>
    split at h
    next hq =>
      have hne : d ≠ '{' := by
        rintro rfl
        simp [isQuote] at hq
      cases hr : readChunks d c.offset (c.moveTo s) with
      | error e => simp [hr, Except.map] at h
      | ok v =>
        obtain ⟨chunks, c'⟩ := v
        simp only [hr, Except.map, Except.ok.injEq, Prod.mk.injEq] at h
        obtain ⟨rfl, rfl⟩ := h
        obtain ⟨u, hu, hread⟩ := readChunks_local hne hr
        rw [Cursor.rest_moveTo] at hu
        refine ⟨d :: u, by rw [hs, hu]; rfl, fun m n t' => ?_⟩
        rw [List.cons_append, readValue_quoted hq, hread]
        simp [Except.map, Nat.add_assoc]
    next hq =>
      obtain ⟨rfl, hc⟩ := Prod.mk.inj (Except.ok.inj h)
      have hrun := congrArg Cursor.rest hc
      rw [Cursor.rest_moveTo] at hrun
      obtain ⟨u, hu, hread⟩ := afterRun_local hrun hw
      obtain ⟨d', x, hx⟩ := hw.exists_cons (u := u)
      have hx' (y : Text) : u ++ (w ++ y) = d' :: (x ++ y) := by
        rw [← List.append_assoc, hx, List.cons_append]
      obtain ⟨rfl, -⟩ := List.cons.inj (hu.trans (hx' t))
      refine ⟨u, hs.trans hu, fun m n t' => ?_⟩
      rw [readValue_bare (hx' t') (by simpa using hq) hbrace (hread t'),
        hrun, hu, before_append]

/-! A whole attribute. -/

theorem readAttribute_brace {v t : Text} (hv : afterBrace (v ++ t) = some t) (n : Nat) :
    readAttribute ⟨n, '{' :: (v ++ t)⟩ =
      .ok (⟨trim v.dropLast, ⟨n, n + byteSize ('{' :: v)⟩,
        some [.expression (.classify (trim v.dropLast))]⟩, ⟨n + byteSize ('{' :: v), t⟩) := by
  simp only [readAttribute, hv, enclosed_append]
  rw [← List.cons_append, Cursor.moveTo_append]

theorem readAttribute_present {name r : Text} (hne : name ≠ []) (hbrace : ∀ x, name ≠ '{' :: x)
    (hr : afterRun endsAttributeName (name ++ r) = r)
    (hno : ∀ x, r.dropWhile isTagBlank ≠ '=' :: x) (n : Nat) :
    readAttribute ⟨n, name ++ r⟩ =
      .ok (⟨name, ⟨n, n + byteSize name⟩, none⟩, ⟨n + byteSize name, r⟩) := by
  unfold readAttribute
  split
  next s heq =>
    cases name with
    | nil => exact absurd rfl hne
    | cons d name => exact absurd (by rw [(List.cons.inj heq).1]) (hbrace name)
  next =>
    simp only [hr, before_append, Cursor.moveTo_append]
    rw [if_neg (by simpa using hne)]

theorem readAttribute_valued (b b' s : Text) {name : Text} (hne : name ≠ [])
    (hbrace : ∀ x, name ≠ '{' :: x)
    (hr : afterRun endsAttributeName (name ++ (b ++ '=' :: (b' ++ s))) = b ++ '=' :: (b' ++ s))
    (hb : ∀ c ∈ b, isTagBlank c = true) (hb' : ∀ c ∈ b', isTagBlank c = true)
    (hs : ∀ d ∈ s.head?, isTagBlank d = false) (n : Nat) :
    readAttribute ⟨n, name ++ (b ++ '=' :: (b' ++ s))⟩ =
      (readValue n ⟨n + byteSize (name ++ (b ++ '=' :: b')), s⟩).map fun (chunks, c) =>
        (⟨name, ⟨n, c.offset⟩, some chunks⟩, c) := by
  have hdrop := dropWhile_run hb (d := '=') (by decide) (b' ++ s)
  have hc : ((⟨n + byteSize name, b ++ '=' :: (b' ++ s)⟩ : Cursor).moveTo (b' ++ s)).skipBlanks =
      ⟨n + byteSize (name ++ (b ++ '=' :: b')), s⟩ := by
    rw [← List.singleton_append, ← List.append_assoc, Cursor.moveTo_append,
      skipBlanks_append hb' hs]
    simp [Nat.add_assoc]
  unfold readAttribute
  split
  next heq =>
    cases name with
    | nil => exact absurd rfl hne
    | cons e name => exact absurd (by rw [(List.cons.inj heq).1]) (hbrace name)
  next =>
    simp only [hr, before_append, Cursor.moveTo_append]
    rw [if_neg (by simpa using hne)]
    split
    next t heq =>
      obtain rfl : b' ++ s = t := (List.cons.inj (hdrop.symm.trans heq)).2
      rw [hc]
    next hno => exact absurd hdrop (hno _)

section
variable {p : Nat} {c : Cursor} {a : Attribute} {w t : Text}

/-- The name of an attribute ends where it did, whatever follows the anchor. -/
theorem attributeName_local (hbrace : ∀ s, c.rest ≠ '{' :: s)
    (hne : before c.rest (afterRun endsAttributeName c.rest) ≠ [])
    (hrun : afterRun endsAttributeName c.rest = w ++ t) (hw : Anchored w) :
    ∃ u, u ≠ [] ∧ (∀ x, u ≠ '{' :: x) ∧ c.rest = u ++ (w ++ t) ∧
      ∀ t', afterRun endsAttributeName (u ++ (w ++ t')) = w ++ t' := by
  obtain ⟨u, hu, hread⟩ := afterRun_local hrun hw
  rw [hrun, hu, before_append] at hne
  refine ⟨u, hne, ?_, hu, hread⟩
  rintro x rfl
  exact hbrace _ hu

theorem readAttribute_valued_local (hbrace : ∀ s, c.rest ≠ '{' :: s)
    (hne : before c.rest (afterRun endsAttributeName c.rest) ≠ []) {r : Text}
    (hr : (afterRun endsAttributeName c.rest).dropWhile isTagBlank = '=' :: r) {l : List Chunk}
    (hvalue : readValue c.offset
      ((c.moveTo (afterRun endsAttributeName c.rest)).moveTo r).skipBlanks = .ok (l, ⟨p, w ++ t⟩))
    (hw : Anchored w) :
    ∃ (u : Text) (a₀ : Attribute), u ≠ [] ∧ c.rest = u ++ (w ++ t) ∧ ∀ n t',
      readAttribute ⟨n, u ++ (w ++ t')⟩ = .ok (a₀.shift n, ⟨n + byteSize u, w ++ t'⟩) := by
  obtain ⟨v, hv, hread⟩ := readValue_local hvalue hw
  obtain ⟨b, hb, hblank, -, -⟩ := cut_run hr
  obtain ⟨d, x, hx⟩ := hw.exists_cons (u := v)
  have hx' (y : Text) : v ++ (w ++ y) = d :: (x ++ y) := by
    rw [← List.append_assoc, hx, List.cons_append]
  have hdrop : r.dropWhile isTagBlank = d :: (x ++ t) := hv.trans (hx' t)
  obtain ⟨b', hb', hblank', hd, -⟩ := cut_run hdrop
  have hrun : afterRun endsAttributeName c.rest = b ++ '=' :: (b' ++ (v ++ w)) ++ t := by
    rw [hb, hb', ← hx' t]
    simp
  have hanchor : Anchored (b ++ '=' :: (b' ++ (v ++ w))) := by
    simpa using hw.append (b ++ '=' :: (b' ++ v))
  obtain ⟨u, hne', hopen, hu, hname⟩ := attributeName_local hbrace hne hrun hanchor
  refine ⟨u ++ (b ++ '=' :: (b' ++ v)), ⟨u, ⟨0, byteSize (u ++ (b ++ '=' :: (b' ++ v)))⟩, some l⟩,
    by simp [hne'], by simpa using hu, fun n t' => ?_⟩
  have hassoc : u ++ (b ++ '=' :: (b' ++ v)) ++ (w ++ t') =
      u ++ (b ++ '=' :: (b' ++ (v ++ (w ++ t')))) := by simp
  have hname' : afterRun endsAttributeName (u ++ (b ++ '=' :: (b' ++ (v ++ (w ++ t'))))) =
      b ++ '=' :: (b' ++ (v ++ (w ++ t'))) := by simpa using hname t'
  rw [hassoc, readAttribute_valued b b' _ hne' hopen hname' hblank hblank' ?_, hread]
  · simp [Except.map, Attribute.shift, Span.shift, Nat.add_assoc]
  · rw [hx' t']
    exact fun c hc => Option.some.inj hc ▸ hd

theorem readAttribute_present_local (hbrace : ∀ s, c.rest ≠ '{' :: s)
    (hne : before c.rest (afterRun endsAttributeName c.rest) ≠ [])
    (hno : ∀ r, (afterRun endsAttributeName c.rest).dropWhile isTagBlank ≠ '=' :: r)
    (hrun : afterRun endsAttributeName c.rest = w ++ t) (hw : Anchored w) :
    ∃ (u : Text) (a₀ : Attribute), u ≠ [] ∧ c.rest = u ++ (w ++ t) ∧ ∀ n t',
      readAttribute ⟨n, u ++ (w ++ t')⟩ = .ok (a₀.shift n, ⟨n + byteSize u, w ++ t'⟩) := by
  obtain ⟨u, hne', hopen, hu, hname⟩ := attributeName_local hbrace hne hrun hw
  obtain ⟨d, x, hx, hdrop⟩ := dropWhile_blank_append hw t
  refine ⟨u, ⟨u, ⟨0, byteSize u⟩, none⟩, hne', hu, fun n t' => ?_⟩
  refine readAttribute_present hne' hopen (hname t') (fun y hy => ?_) n
  obtain ⟨e, z, he, hdrop'⟩ := dropWhile_blank_append hw t'
  obtain ⟨rfl, -⟩ := List.cons.inj (hx.symm.trans he)
  obtain ⟨rfl, -⟩ := List.cons.inj (hdrop'.symm.trans hy)
  exact hno _ (by rw [hrun, hdrop])

theorem readAttribute_local (h : readAttribute c = .ok (a, ⟨p, w ++ t⟩)) (hw : Anchored w) :
    ∃ (u : Text) (a₀ : Attribute), u ≠ [] ∧ c.rest = u ++ (w ++ t) ∧ ∀ n t',
      readAttribute ⟨n, u ++ (w ++ t')⟩ = .ok (a₀.shift n, ⟨n + byteSize u, w ++ t'⟩) := by
  unfold readAttribute at h
  split at h
  next s hs =>
    split at h
    next => simp at h
    next r hr =>
      obtain ⟨-, hc⟩ := Prod.mk.inj (Except.ok.inj h)
      obtain ⟨v, rfl, hv⟩ := afterBrace_local hr
      obtain rfl : r = w ++ t := congrArg Cursor.rest hc
      refine ⟨'{' :: v, ⟨trim v.dropLast, ⟨0, byteSize ('{' :: v)⟩,
        some [.expression (.classify (trim v.dropLast))]⟩, List.cons_ne_nil _ _, hs, fun n t' => ?_⟩
      rw [List.cons_append, readAttribute_brace (hv _)]
      rfl
  next hbrace =>
    dsimp only at h
    split at h
    next => simp at h
    next hne =>
      rw [List.isEmpty_iff] at hne
      split at h
      next r hr =>
        cases hvalue : readValue c.offset
            ((c.moveTo (afterRun endsAttributeName c.rest)).moveTo r).skipBlanks with
        | error e => simp [hvalue, Except.map] at h
        | ok v =>
          obtain ⟨l, c'⟩ := v
          simp only [hvalue, Except.map, Except.ok.injEq, Prod.mk.injEq] at h
          obtain ⟨-, rfl⟩ := h
          exact readAttribute_valued_local hbrace hne hr hvalue hw
      next hno =>
        obtain ⟨-, hc⟩ := Prod.mk.inj (Except.ok.inj h)
        exact readAttribute_present_local hbrace hne hno (congrArg Cursor.rest hc) hw

end

/-! All attributes of a tag. -/

section
variable {b t : Text} (hb : ∀ c ∈ b, isTagBlank c = true) (m n : Nat)
include hb

theorem readAttributes_tagEnd :
    readAttributes m ⟨n, b ++ '>' :: t⟩ = .ok ([], false, ⟨n + byteSize (b ++ ['>']), t⟩) := by
  have hd := dropWhile_run hb (d := '>') (by decide) t
  rw [readAttributes, skipBlanks_run hb (by decide)]
  split <;> rename_i heq <;> simp_all [Nat.add_assoc]

theorem readAttributes_selfClosing :
    readAttributes m ⟨n, b ++ '/' :: '>' :: t⟩ =
      .ok ([], true, ⟨n + byteSize (b ++ ['/', '>']), t⟩) := by
  have hd := dropWhile_run hb (d := '/') (by decide) ('>' :: t)
  have hc := Cursor.moveTo_append (n + byteSize b) ['/', '>'] t
  rw [readAttributes, skipBlanks_run hb (by decide)]
  split <;> rename_i heq <;> simp_all [Nat.add_assoc]

/-- A slash that does not end the tag is skipped. -/
theorem readAttributes_slash (ht : ∀ x, t ≠ '>' :: x) :
    readAttributes m ⟨n, b ++ '/' :: t⟩ = readAttributes m ⟨n + byteSize (b ++ ['/']), t⟩ := by
  have hd := dropWhile_run hb (d := '/') (by decide) t
  rw [readAttributes, skipBlanks_run hb (by decide)]
  split <;> rename_i heq <;> simp_all [Nat.add_assoc]
  exact absurd hd.symm (ht _)

theorem readAttributes_attribute {d : Char} {a : Attribute} {c : Cursor}
    (hd : isTagBlank d = false) (hend : d ≠ '>') (hslash : d ≠ '/')
    (ha : readAttribute ⟨n + byteSize b, d :: t⟩ = .ok (a, c)) :
    readAttributes m ⟨n, b ++ d :: t⟩ =
      (readAttributes m c).map fun (as, r) => (a :: as, r) := by
  have hdrop := dropWhile_run hb hd t
  rw [readAttributes, skipBlanks_run hb hd]
  split <;> rename_i heq <;> simp_all
  split <;> simp_all

end

/-- The text of an attribute in front of `rest`, which is read alike wherever it stands and whatever
follows `rest`. The attribute's span counts from the start of its text. -/
structure ReadsAttribute (v rest : Text) (a : Attribute) : Prop where
  head : ∃ d x, v = d :: x ∧ isTagBlank d = false ∧ d ≠ '>' ∧ d ≠ '/'
  reads : ∀ n t, readAttribute ⟨n, v ++ (rest ++ t)⟩ =
    .ok (a.shift n, ⟨n + byteSize v, rest ++ t⟩)

/-- The text behind a tag's name and the attributes read from it, step by step. Their spans count
from the start of the text. -/
inductive ReadsTag : Text → List Attribute → Bool → Prop
  | tagEnd {b : Text} (hb : ∀ c ∈ b, isTagBlank c = true) : ReadsTag (b ++ ['>']) [] false
  | selfClosing {b : Text} (hb : ∀ c ∈ b, isTagBlank c = true) : ReadsTag (b ++ ['/', '>']) [] true
  | slash {b rest : Text} {as : List Attribute} {closed : Bool}
      (hb : ∀ c ∈ b, isTagBlank c = true) (hrest : ∀ x, rest ≠ '>' :: x)
      (h : ReadsTag rest as closed) :
      ReadsTag (b ++ '/' :: rest) (as.map (.shift (byteSize (b ++ ['/'])))) closed
  | next {b v rest : Text} {a : Attribute} {as : List Attribute} {closed : Bool}
      (hb : ∀ c ∈ b, isTagBlank c = true) (ha : ReadsAttribute v rest a)
      (h : ReadsTag rest as closed) :
      ReadsTag (b ++ (v ++ rest))
        (a.shift (byteSize b) :: as.map (.shift (byteSize (b ++ v)))) closed

theorem ReadsAttribute.ne_nil {v rest : Text} {a : Attribute} (h : ReadsAttribute v rest a) :
    v ≠ [] := by
  obtain ⟨d, x, rfl, -⟩ := h.head
  exact List.cons_ne_nil d x

/-- An attribute does not depend on what stands behind an anchored text. -/
theorem ReadsAttribute.of_append {v w s : Text} {a : Attribute} (h : ReadsAttribute v (w ++ s) a)
    (hw : Anchored w) : ReadsAttribute v w a := by
  have hread := h.reads 0 []
  rw [List.append_nil] at hread
  obtain ⟨v', a', -, hv, hlocal⟩ := readAttribute_local hread hw
  obtain rfl : v = v' := List.append_cancel_right hv
  obtain ⟨ha, -⟩ := Prod.mk.inj (Except.ok.inj (hread.symm.trans (hlocal 0 s)))
  rw [Attribute.shift_zero, Attribute.shift_zero] at ha
  subst ha
  exact ⟨h.head, hlocal⟩

section
variable {u : Text} {as : List Attribute} {closed : Bool}

theorem ReadsTag.mem_tagEnd (h : ReadsTag u as closed) : '>' ∈ u := by
  induction h with
  | tagEnd | selfClosing => simp
  | slash _ _ _ ih | next _ _ _ ih => simp [ih]

theorem ReadsTag.reads (h : ReadsTag u as closed) (m n : Nat) (t : Text) :
    readAttributes m ⟨n, u ++ t⟩ = .ok (as.map (.shift n), closed, ⟨n + byteSize u, t⟩) := by
  induction h generalizing n with
  | tagEnd hb =>
    rw [List.append_assoc, List.singleton_append, readAttributes_tagEnd hb]
    rfl
  | selfClosing hb =>
    rw [List.append_assoc, List.cons_append, List.singleton_append, readAttributes_selfClosing hb]
    rfl
  | @slash b rest as closed hb hrest h ih =>
    have hnot : ∀ x, rest ++ t ≠ '>' :: x := by
      intro x hx
      obtain ⟨d, y, rfl⟩ := List.exists_cons_of_ne_nil (List.ne_nil_of_mem h.mem_tagEnd)
      exact hrest y (by rw [(List.cons.inj hx).1])
    rw [List.append_assoc, List.cons_append, readAttributes_slash hb m n hnot, ih]
    simp [Nat.add_assoc]
  | @next b v rest a as closed hb ha h ih =>
    obtain ⟨d, x, rfl, hd, hend, hslash⟩ := ha.head
    have hread := ha.reads (n + byteSize b) t
    rw [List.cons_append] at hread
    rw [List.append_assoc, List.append_assoc, List.cons_append,
      readAttributes_attribute hb m n hd hend hslash hread, ih]
    simp [Except.map, Nat.add_assoc]

/-- Whatever is read as the attributes of a tag is read step by step. -/
theorem exists_readsTag {m : Nat} {c c' : Cursor} (h : readAttributes m c = .ok (as, closed, c')) :
    ∃ u as₀, c.rest = u ++ c'.rest ∧ ReadsTag u as₀ closed := by
  fun_induction readAttributes m c generalizing as with
  | case1 | case5 => cases h
  | case2 c c₁ s =>
    rename_i hs
    obtain ⟨b, hc, hb, -, -⟩ := cut_run hs
    simp only [Except.ok.injEq, Prod.mk.injEq] at h
    obtain ⟨-, rfl, rfl⟩ := h
    exact ⟨b ++ ['>'], [], by simpa using hc, .tagEnd hb⟩
  | case3 c c₁ s =>
    rename_i hs
    obtain ⟨b, hc, hb, -, -⟩ := cut_run hs
    simp only [Except.ok.injEq, Prod.mk.injEq] at h
    obtain ⟨-, rfl, rfl⟩ := h
    exact ⟨b ++ ['/', '>'], [], by simpa using hc, .selfClosing hb⟩
  | case4 c c₁ s hend hs =>
    rename_i ih
    obtain ⟨b, hc, hb, -, -⟩ := cut_run hs
    obtain ⟨u, as₀, hu, htag⟩ := ih h
    rw [Cursor.rest_moveTo] at hu
    have hne : ∀ x, u ≠ '>' :: x := by
      rintro x rfl
      exact hend _ hu
    exact ⟨b ++ '/' :: u, _, by simp [hc, hu], .slash hb hne htag⟩
  | case6 c c₁ a c₂ ha =>
    rename_i hnil hend hself hslash ih
    cases hr : readAttributes m c₂ with
    | error e => simp [hr, Except.map] at h
    | ok r =>
      obtain ⟨as', closed', c''⟩ := r
      simp only [hr, Except.map, Except.ok.injEq, Prod.mk.injEq] at h
      obtain ⟨-, rfl, rfl⟩ := h
      obtain ⟨rest, as₀, hrest, htag⟩ := ih hr
      obtain ⟨p, s⟩ := c₂
      obtain rfl : s = rest ++ c''.rest := hrest
      obtain ⟨v, a₀, hne, hv, hread⟩ := readAttribute_local ha (anchored_of_tagEnd htag.mem_tagEnd)
      obtain ⟨d, x, rfl⟩ := List.exists_cons_of_ne_nil hne
      have hdrop : c.rest.dropWhile isTagBlank = d :: (x ++ (rest ++ c''.rest)) := hv
      obtain ⟨b, hc, hb, hd, -⟩ := cut_run hdrop
      have hd₁ : d ≠ '>' := fun he => hend _ (he ▸ hdrop)
      have hd₂ : d ≠ '/' := fun he => hslash _ (he ▸ hdrop)
      exact ⟨b ++ (d :: x ++ rest), _, by simpa using hc,
        .next hb ⟨⟨d, x, rfl, hd, hd₁, hd₂⟩, hread⟩ htag⟩

theorem ReadsTag.of_reads (h : ∀ m n t, readAttributes m ⟨n, u ++ t⟩ =
      .ok (as.map (.shift n), closed, ⟨n + byteSize u, t⟩)) : ReadsTag u as closed := by
  obtain ⟨v, as₀, hv, htag⟩ := exists_readsTag (h 0 0 [])
  obtain rfl : u = v := by simpa using hv
  have hread := (h 0 0 []).symm.trans (htag.reads 0 0 [])
  have hzero : Attribute.shift 0 = id := funext Attribute.shift_zero
  obtain rfl : as = as₀ := by simpa [hzero] using hread
  exact htag

end

end MarkupHighlight.Markup
