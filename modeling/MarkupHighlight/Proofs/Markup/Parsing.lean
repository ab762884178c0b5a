import MarkupHighlight.Markup.Document
import MarkupHighlight.Proofs.Markup.Forest

/-!
The parser against forests. A text is a document exactly if it is the written form of a complete
forest (`parse_eq_ok_iff`), and its nodes can then be read off the forest. What is done to a
document can so be done to its forest.
-/
namespace MarkupHighlight.Markup

/-! The outline of a document, token after token. -/

/-- Builds on an outline with all tokens from a place on. -/
def Outline.run (o : Outline) (c : Cursor) : Except Error Outline := do
  let o' ← (readTokens c).tokens.foldlM Outline.step o
  match (readTokens c).failure with
  | some e => .error e
  | none => .ok o'

theorem parse_eq_run (s : Text) :
    parse s = (Outline.run {} ⟨0, s⟩).bind (·.finish (byteSize s)) := by
  simp only [parse, Outline.run]
  cases (readTokens ⟨0, s⟩).tokens.foldlM Outline.step {} with
  | error e => rfl
  | ok o => cases (readTokens ⟨0, s⟩).failure <;> rfl

theorem Outline.run_nil (o : Outline) (n : Nat) : o.run ⟨n, []⟩ = .ok o := by
  simp [Outline.run, readTokens]

theorem Outline.run_token {o : Outline} {c c' : Cursor} {t : Token} (hc : c.rest ≠ [])
    (h : readToken c = .ok (t, c')) : o.run c = (o.step t).bind (·.run c') := by
  have hread : readTokens c = ⟨t :: (readTokens c').tokens, (readTokens c').failure⟩ := by
    rw [readTokens, dif_neg hc]
    split
    next e he => simp [h] at he
    next t' c'' he =>
      obtain ⟨rfl, rfl⟩ := Prod.mk.inj (Except.ok.inj (h.symm.trans he))
      rfl
  simp only [Outline.run, hread, List.foldlM_cons]
  cases o.step t <;> rfl

theorem Outline.run_failure {o : Outline} {c : Cursor} {e : Error} (hc : c.rest ≠ [])
    (h : readToken c = .error e) : o.run c = .error e := by
  have hread : readTokens c = ⟨[], some e⟩ := by
    rw [readTokens, dif_neg hc]
    split
    next e' he =>
      obtain rfl := Except.error.inj (h.symm.trans he)
      rfl
    next he => cases h.symm.trans he
  simp only [Outline.run, hread]
  rfl

/-- What reading a forest from byte `n` on makes of an outline. -/
def Outline.absorb (o : Outline) (n : Nat) : Forest → Outline
  | .nil => o
  | .plain s rest => (o.add (.text ⟨n, n + byteSize s⟩)).absorb (n + byteSize s) rest
  | .leaf s v rest => (o.add (v.shift n)).absorb (n + byteSize s) rest
  | .closed opening name attributes children closing rest =>
      let stop := n + byteSize (opening ++ (children.written ++ closing))
      (o.add (.element name ⟨n, stop⟩ (attributes.map (.shift n))
        (children.nodesAt (n + byteSize opening)))).absorb stop rest
  | .hanging opening name attributes children =>
      ({ o with opened := ⟨name, n, attributes.map (.shift n), []⟩ :: o.opened } : Outline).absorb
        (n + byteSize opening) children

theorem OpenElement.foldl_add (e : OpenElement) (vs : List Node) :
    vs.foldl .add e = { e with children := vs.reverse ++ e.children } := by
  induction vs generalizing e with
  | nil => rfl
  | cons v vs ih => simp [ih, OpenElement.add]

theorem Outline.nodes_absorb {o : Outline} (ho : o.opened ≠ []) (n : Nat) (f : Forest) :
    (o.absorb n f).nodes = o.nodes := by
  induction f generalizing o n with
  | nil => rfl
  | plain s rest ih
  | leaf s v rest ih
  | closed opening name attributes children closing rest _ ih =>
    obtain ⟨e, es, he⟩ := List.exists_cons_of_ne_nil ho
    rw [absorb, ih (by simp [Outline.add, he])]
    simp [Outline.add, he]
  | hanging opening name attributes children ih =>
    rw [absorb, ih (List.cons_ne_nil _ _)]

/-- A closing tag behind a forest in which nothing of its name hangs closes the same element as it
would behind the forest's nodes. -/
theorem closeThrough_absorb {f : Forest} {name : Text} (hname : name ∉ f.unclosed) {o : Outline}
    {e : OpenElement} {es : List OpenElement} (ho : o.opened = e :: es) (n stop : Nat) :
    closeThrough name ⟨n + byteSize f.written, stop⟩ [] (o.absorb n f).opened =
      closeThrough name ⟨n + byteSize f.written, stop⟩ (f.nodesAt n) (e :: es) := by
  induction f generalizing o n e es with
  | nil => simp only [Outline.absorb, ho, Forest.nodesAt]
  | plain s rest ih =>
    have hadd : (o.add (.text ⟨n, n + byteSize s⟩)).opened =
      e.add (.text ⟨n, n + byteSize s⟩) :: es := by simp [Outline.add, ho]
    rw [Outline.absorb, Forest.written, byteSize_append, ← Nat.add_assoc, ih hname hadd]
    rfl
  | leaf s v rest ih =>
    have hadd : (o.add (v.shift n)).opened = e.add (v.shift n) :: es := by simp [Outline.add, ho]
    rw [Outline.absorb, Forest.written, byteSize_append, ← Nat.add_assoc, ih hname hadd]
    rfl
  | closed opening name' attributes children closing rest _ ih =>
    have hsize : byteSize (Forest.closed opening name' attributes children closing rest).written =
        byteSize (opening ++ (children.written ++ closing)) + byteSize rest.written := by
      simp only [Forest.written, byteSize_append, Nat.add_assoc]
    rw [Outline.absorb, hsize, ← Nat.add_assoc, ih hname (by rw [Outline.add, ho])]
    rfl
  | hanging opening name' attributes children ih =>
    obtain ⟨hne, hchildren⟩ : name ≠ name' ∧ name ∉ children.unclosed := by
      simpa [Forest.unclosed] using hname
    rw [Outline.absorb, Forest.written, byteSize_append, ← Nat.add_assoc, ih hchildren rfl,
      closeThrough]
    simp only [OpenElement.foldl_add, List.append_nil]
    rw [if_neg (Ne.symm hne), ho]
    simp only [OpenElement.close, List.reverse_reverse, Forest.nodesAt, byteSize_append,
      Nat.add_assoc]

/-- The closing tag of an element is read right behind its children. -/
theorem Outline.step_closing {name : Text} {children : Forest} (hname : name ∉ children.unclosed)
    (o : Outline) (start n stop : Nat) (attributes : List Attribute) :
    (({ o with opened := ⟨name, start, attributes, []⟩ :: o.opened } : Outline).absorb n
        children).step (.closeTag name ⟨n + byteSize children.written, stop⟩) =
      .ok (o.add (.element name ⟨start, stop⟩ attributes (children.nodesAt n))) := by
  rw [step, closeThrough_absorb hname rfl, closeThrough]
  simp only [OpenElement.foldl_add, List.append_nil, if_true, OpenElement.close,
    List.reverse_reverse]
  rw [nodes_absorb (List.cons_ne_nil _ _)]

/-- Reading a sound forest adds it to the outline, whatever settled text follows. -/
theorem Outline.run_forest {f : Forest} (hf : f.Sound) (o : Outline) (n : Nat) {t : Text}
    (ht : Settled t) :
    o.run ⟨n, f.written ++ t⟩ = (o.absorb n f).run ⟨n + byteSize f.written, t⟩ := by
  induction hf generalizing o n t with
  | nil => rfl
  | @plain s rest hne hs hrest rest_sound ih =>
    have hread := readToken_plain hne hs (rest_sound.settled hrest ht) n
    rw [Forest.written, List.append_assoc, run_token (by simp [hne]) hread]
    simp only [step, Except.bind, absorb, ih _ _ ht, byteSize_append, Nat.add_assoc]
  | @leaf s v rest hs rest_sound ih =>
    have hread := hs.reads n (rest.written ++ t)
    rw [Forest.written, List.append_assoc, run_token (by simp [hs.ne_nil]) hread]
    simp only [step, Token.shift, Except.bind, absorb, ih _ _ ht, byteSize_append, Nat.add_assoc]
  | @closed opening name closing attributes children rest hopening hchildren hname hclosing hrest
      ih ih_rest =>
    have hread := hopening.reads n (children.written ++ (closing ++ (rest.written ++ t)))
    have hread' := hclosing.reads (n + byteSize opening + byteSize children.written)
      (rest.written ++ t)
    simp only [Forest.written, List.append_assoc]
    rw [run_token (by simp [hopening.ne_nil]) hread]
    simp only [step, Token.shift, Except.bind]
    rw [ih _ _ (hclosing.settled _), run_token (by simp [hclosing.ne_nil]) hread']
    simp only [Token.shift, Span.shift, Nat.add_zero]
    rw [step_closing hname]
    simp only [Except.bind, ih_rest _ _ ht, absorb, byteSize_append, Nat.add_assoc]
  | @hanging opening name attributes children hopening hchildren ih =>
    have hread := hopening.reads n (children.written ++ t)
    rw [Forest.written, List.append_assoc, run_token (by simp [hopening.ne_nil]) hread]
    simp only [step, Token.shift, Except.bind, absorb, Nat.add_zero]
    rw [ih _ _ ht, byteSize_append, Nat.add_assoc]

/-- The open elements behind a forest: those that hang in it, then those around it. -/
theorem Outline.names_absorb (o : Outline) (n : Nat) (f : Forest) :
    (o.absorb n f).opened.map (·.name) = f.unclosed.reverse ++ o.opened.map (·.name) := by
  induction f generalizing o n with
  | nil => rfl
  | plain s rest ih
  | leaf s v rest ih
  | closed opening name attributes children closing rest _ ih =>
    rw [absorb, ih]
    cases ho : o.opened <;> simp [Outline.add, ho, OpenElement.add, Forest.unclosed]
  | hanging opening name attributes children ih =>
    rw [absorb, ih]
    simp [Forest.unclosed]

theorem Outline.absorb_top {f : Forest} (hf : f.unclosed = []) {o : Outline} (ho : o.opened = [])
    (n : Nat) : o.absorb n f = { o with nodes := (f.nodesAt n).reverse ++ o.nodes } := by
  induction f generalizing o n with
  | nil => rfl
  | plain s rest ih
  | leaf s v rest ih
  | closed opening name attributes children closing rest _ ih =>
    rw [absorb, ih hf (by simp [Outline.add, ho])]
    simp [Outline.add, ho, Forest.nodesAt]
  | hanging => cases hf

theorem parse_written {f : Forest} (hf : f.Complete) :
    parse f.written = .ok ⟨byteSize f.written, f.nodesAt 0⟩ := by
  have hrun := Outline.run_forest hf.sound {} 0 (.inl rfl : Settled [])
  rw [List.append_nil, Outline.run_nil, Outline.absorb_top hf.unclosed rfl] at hrun
  rw [parse_eq_run, hrun]
  simp [Except.bind, Outline.finish]

/-! A text of which all tokens can be read is a forest, up to closing tags that close nothing. -/

/-- A closing tag that closes nothing in the forest before it, and the forest behind it. -/
structure Stray where
  closing : Text
  name : Text
  after : Forest

def strayText : List Stray → Text
  | [] => []
  | q :: qs => q.closing ++ (q.after.written ++ strayText qs)

inductive Layered : Forest → List Stray → Prop
  | last {f : Forest} (hf : f.Sound) : Layered f []
  | stray {f : Forest} {q : Stray} {qs : List Stray} (hf : f.Sound) (hname : q.name ∉ f.unclosed)
      (hclosing : IsLexeme q.closing (.closeTag q.name ⟨0, byteSize q.closing⟩))
      (hafter : Layered q.after qs) : Layered f (q :: qs)

theorem Layered.sound {f : Forest} {qs : List Stray} (h : Layered f qs) : f.Sound := by
  cases h <;> assumption

theorem Layered.settled {f : Forest} {qs : List Stray} (h : Layered f qs) {t : Text}
    (ht : Settled t) : Settled (strayText qs ++ t) := by
  cases h with
  | last => exact ht
  | stray _ _ hclosing =>
    rw [strayText, List.append_assoc]
    exact hclosing.settled _

/-- Exchanges the front forest for one with no more elements left open. -/
theorem Layered.replace {f g : Forest} {qs : List Stray} (h : Layered f qs) (hg : g.Sound)
    (hsub : g.unclosed ⊆ f.unclosed) : Layered g qs := by
  cases h with
  | last => exact .last hg
  | stray hf hname hclosing hafter =>
    exact .stray hg (fun hmem => hname (hsub hmem)) hclosing hafter

/-- An opening tag before a layered text closes with the first stray tag, if that has its name, and
is left hanging otherwise. -/
theorem Layered.open {f : Forest} {qs : List Stray} (h : Layered f qs) {opening name : Text}
    {attributes : List Attribute} (hopening : IsLexeme opening (.openTag name 0 attributes)) :
    ∃ g rs, Layered g rs ∧
      opening ++ (f.written ++ strayText qs) = g.written ++ strayText rs := by
  cases h with
  | last hf =>
    exact ⟨.hanging opening name attributes f, [], .last (.hanging hopening hf), by
      simp [Forest.written]⟩
  | @stray _ q qs hf hname hclosing hafter =>
    by_cases heq : q.name = name
    · rw [heq] at hname hclosing
      refine ⟨.closed opening name attributes f q.closing q.after, qs,
        hafter.replace (.closed hopening hf hname hclosing hafter.sound) (List.Subset.refl _), ?_⟩
      simp [Forest.written, strayText]
    · refine ⟨.hanging opening name attributes f, q :: qs,
        .stray (.hanging hopening hf) ?_ hclosing hafter, by simp [Forest.written]⟩
      simp [Forest.unclosed, heq, hname]

section
variable {c c' : Cursor} {t : Token}

/-- Where no construct starts a text is read. -/
theorem exists_readToken_text (hc : c.rest ≠ []) (hstart : ¬ startsConstruct c.rest = true) :
    ∃ u r, u ≠ [] ∧ c.rest = u ++ r ∧ isPlain u = true ∧ Settled r ∧
      readToken c = .ok (.node (.text ⟨c.offset, c.offset + byteSize u⟩),
        ⟨c.offset + byteSize u, r⟩) := by
  obtain ⟨u, hu, hplain, ht⟩ := afterText_cut c.rest
  have hne : u ≠ [] := by
    rintro rfl
    rcases ht with ht | ht
    · exact hc (hu.trans ht)
    · exact hstart (hu ▸ ht)
  have hread := readToken_plain hne hplain ht c.offset
  rw [← hu] at hread
  exact ⟨u, _, hne, hu, hplain, ht, hread⟩

/-- A token in front of a layered text, up to a settled rest. -/
theorem Layered.token {f : Forest} {qs : List Stray} (hf : Layered f qs) (hc : c.rest ≠ [])
    (hread : readToken c = .ok (t, c')) {r : Text} (hr : Settled r)
    (hrest : c'.rest = f.written ++ (strayText qs ++ r)) :
    ∃ g rs, Layered g rs ∧ c.rest = g.written ++ (strayText rs ++ r) := by
  by_cases hstart : startsConstruct c.rest = true
  · obtain ⟨u, t₀, hu, ht₀⟩ := readToken_local hstart hread
    rw [hu, hrest]
    cases t₀ with
    | node v =>
      exact ⟨.leaf u v f, qs, hf.replace (.leaf ht₀ hf.sound) (List.Subset.refl _), by
        simp [Forest.written]⟩
    | openTag name start attributes =>
      obtain rfl : start = 0 := ht₀.covers
      obtain ⟨g, rs, hg, hwritten⟩ := hf.open ht₀
      refine ⟨g, rs, hg, ?_⟩
      rw [← List.append_assoc g.written, ← hwritten]
      simp
    | closeTag name span =>
      obtain rfl : span = ⟨0, byteSize u⟩ := ht₀.covers
      exact ⟨.nil, ⟨u, name, f⟩ :: qs, .stray .nil (List.not_mem_nil) ht₀ hf, by
        simp [Forest.written, strayText]⟩
  · obtain ⟨u, r', hne, hu, hplain, ht, htext⟩ := exists_readToken_text hc hstart
    obtain ⟨-, rfl⟩ := Prod.mk.inj (Except.ok.inj (hread.symm.trans htext))
    obtain rfl : r' = f.written ++ (strayText qs ++ r) := hrest
    have hplain' := hf.sound.startsPlain (hf.settled hr) ht
    refine ⟨.plain u f, qs, hf.replace (.plain hne hplain hplain' hf.sound)
      (List.Subset.refl _), ?_⟩
    rw [Forest.written, List.append_assoc]
    exact hu

/-- Reading goes on in the same text. -/
theorem end_of_readToken (hc : c.rest ≠ []) (hread : readToken c = .ok (t, c')) :
    c'.offset + byteSize c'.rest = c.offset + byteSize c.rest := by
  by_cases hstart : startsConstruct c.rest = true
  · obtain ⟨u, t₀, hu, ht₀⟩ := readToken_local hstart hread
    have hlexeme := ht₀.reads c.offset c'.rest
    rw [← hu] at hlexeme
    obtain ⟨-, hc'⟩ := Prod.mk.inj (Except.ok.inj (hread.symm.trans hlexeme))
    rw [hc', hu, byteSize_append, Nat.add_assoc]
  · obtain ⟨u, r, -, hu, -, -, htext⟩ := exists_readToken_text hc hstart
    obtain ⟨-, rfl⟩ := Prod.mk.inj (Except.ok.inj (hread.symm.trans htext))
    rw [hu, byteSize_append, Nat.add_assoc]

theorem startsConstruct_of_error {e : Error} (h : readToken c = .error e) :
    startsConstruct c.rest = true := by
  by_contra hstart
  by_cases hc : c.rest = []
  · have hread : readToken c = .ok (.node (.text ⟨c.offset, c.offset⟩), c) := by
      rw [readToken, hc]
    cases h.symm.trans hread
  · obtain ⟨u, r, -, -, -, -, htext⟩ := exists_readToken_text hc hstart
    cases h.symm.trans htext

end

/-- Every text is layered up to where it ends or where no token can be read. -/
theorem exists_layered_upTo (c : Cursor) :
    ∃ f qs t, Layered f qs ∧ c.rest = f.written ++ (strayText qs ++ t) ∧
      (((readTokens c).failure = none ∧ t = []) ∨
        startsConstruct t = true ∧ ∃ e, (readTokens c).failure = some e ∧
          readToken ⟨c.offset + byteSize (f.written ++ strayText qs), t⟩ = .error e) := by
  fun_induction readTokens c with
  | case1 c hc => exact ⟨.nil, [], [], .last .nil, hc, .inl ⟨rfl, rfl⟩⟩
  | case2 c hc e hread =>
    exact ⟨.nil, [], c.rest, .last .nil, rfl, .inr ⟨startsConstruct_of_error hread, e, rfl, hread⟩⟩
  | case3 c hc t c' hread more =>
    rename_i ih
    obtain ⟨f, qs, r, hf, hrest, hend⟩ := ih
    have hr : Settled r := by
      rcases hend with ⟨-, rfl⟩ | ⟨hstart, -⟩
      · exact .inl rfl
      · exact .inr hstart
    obtain ⟨g, rs, hg, hwritten⟩ := hf.token hc hread hr hrest
    have hsize := end_of_readToken hc hread
    rw [hrest, hwritten] at hsize
    have hoffset : c'.offset + byteSize (f.written ++ strayText qs) =
        c.offset + byteSize (g.written ++ strayText rs) := by
      simp only [byteSize_append] at hsize ⊢
      omega
    rw [hoffset] at hend
    exact ⟨g, rs, r, hg, hwritten, hend⟩

theorem exists_layered {c : Cursor} (h : (readTokens c).failure = none) :
    ∃ f qs, Layered f qs ∧ c.rest = f.written ++ strayText qs := by
  obtain ⟨f, qs, t, hf, hrest, ⟨-, rfl⟩ | ⟨-, e, he, -⟩⟩ := exists_layered_upTo c
  · exact ⟨f, qs, hf, by rw [hrest, List.append_nil]⟩
  · cases he.symm.trans h

theorem closeThrough_eq_none {name : Text} {tag : Span} {es : List OpenElement} (inner : List Node)
    (h : name ∉ es.map (·.name)) : closeThrough name tag inner es = none := by
  induction es generalizing inner with
  | nil => rfl
  | cons e es ih =>
    simp only [List.map_cons, List.mem_cons, not_or] at h
    rw [closeThrough, OpenElement.foldl_add]
    simp only
    rw [if_neg (Ne.symm h.1), ih _ h.2]

/-- A closing tag that finds no element of its name fails, whatever follows it. -/
theorem Outline.run_stray {f : Forest} (hf : f.Sound) {closing name : Text}
    (hname : name ∉ f.unclosed)
    (hclosing : IsLexeme closing (.closeTag name ⟨0, byteSize closing⟩)) (t : Text) :
    Outline.run {} ⟨0, f.written ++ (closing ++ t)⟩ =
      .error (.unexpectedClosingTag name (byteSize f.written)) := by
  have hnames := Outline.names_absorb {} 0 f
  rw [List.map_nil, List.append_nil] at hnames
  have hnone : (Outline.absorb {} 0 f).step
      ((Token.closeTag name ⟨0, byteSize closing⟩).shift (0 + byteSize f.written)) =
      .error (.unexpectedClosingTag name (0 + byteSize f.written)) := by
    rw [Token.shift, Outline.step, closeThrough_eq_none]
    · rfl
    · rw [hnames]
      simpa using hname
  rw [Outline.run_forest hf {} 0 (hclosing.settled t),
    Outline.run_token (by simp [hclosing.ne_nil]) (hclosing.reads _ _), hnone, Nat.zero_add]
  rfl

theorem exists_complete {s : Text} {d : Document} (h : parse s = .ok d) :
    ∃ f : Forest, f.Complete ∧ f.written = s := by
  rw [parse_eq_run] at h
  cases hrun : Outline.run {} ⟨0, s⟩ with
  | error e => simp [hrun, Except.bind] at h
  | ok o =>
    have hread : (readTokens ⟨0, s⟩).failure = none := by
      unfold Outline.run at hrun
      cases hfail : (readTokens ⟨0, s⟩).failure with
      | none => rfl
      | some e =>
        rw [hfail] at hrun
        cases hfold : (readTokens ⟨0, s⟩).tokens.foldlM Outline.step {} <;>
          simp only [hfold] at hrun <;> cases hrun
    obtain ⟨f, qs, hf, rfl⟩ := exists_layered hread
    rw [hrun, Except.bind] at h
    cases hf with
    | last hf =>
      refine ⟨f, ⟨hf, ?_⟩, by simp [strayText]⟩
      have hnames := Outline.names_absorb {} 0 f
      rw [List.map_nil, List.append_nil] at hnames
      rw [strayText, Outline.run_forest hf {} 0 (.inl rfl), Outline.run_nil] at hrun
      obtain rfl := Except.ok.inj hrun
      unfold Outline.finish at h
      split at h
      next hopened => simpa [hopened] using hnames.symm
      next => cases h
    | stray hf hname hclosing hafter =>
      rw [strayText, Outline.run_stray hf hname hclosing] at hrun
      cases hrun

/-- The documents are the written forms of the complete forests. -/
theorem parse_eq_ok_iff {s : Text} {d : Document} :
    parse s = .ok d ↔
      ∃ f : Forest, f.Complete ∧ f.written = s ∧ d = ⟨byteSize s, f.nodesAt 0⟩ := by
  constructor
  · intro h
    obtain ⟨f, hf, rfl⟩ := exists_complete h
    rw [parse_written hf] at h
    exact ⟨f, hf, rfl, (Except.ok.inj h).symm⟩
  · rintro ⟨f, hf, rfl, rfl⟩
    exact parse_written hf

end MarkupHighlight.Markup
