import MarkupHighlight.Proofs.Markup.Parsing
import MarkupHighlight.Proofs.Markup.TagLayout

/-!
Where the nodes of a document stand: `placed_of_parse` says that siblings follow one another without
a gap, and what an element has before, between and behind them.
-/
namespace MarkupHighlight.Markup

/-- The nodes stand one behind the other from byte `m` to byte `n`, and none is empty. -/
def Tiles (m n : Nat) : List Node → Prop
  | [] => m = n
  | v :: vs => v.span.start = m ∧ m < v.span.stop ∧ Tiles v.span.stop n vs

/-- The span is that of an opening tag with the given name and attributes. -/
structure IsOpenTag (s : Text) (span : Span) (name : Text) (attributes : List Attribute)
    (closed : Bool) : Prop where
  text : ∃ body, slice? s span = some ('<' :: (name ++ body)) ∧
    AttributesIn (span.start + byteSize ('<' :: name)) body attributes closed
  isCut : ∀ a ∈ attributes, IsCut s a.span
  inside : ∀ a ∈ attributes, span.start < a.span.start ∧ a.span.stop < span.stop
  disjoint : attributes.Pairwise fun a b => a.span.stop ≤ b.span.start

/-- The span is that of a closing tag for an element of the given name. The letter case of the name
matters unless the element's content is raw text. -/
def IsCloseTag (s : Text) (span : Span) (name : Text) : Prop :=
  ∃ name' blanks, slice? s span = some ('<' :: '/' :: name' ++ (blanks ++ ['>'])) ∧
    (∀ c ∈ blanks, isTagBlank c = true) ∧
    (name' = name ∨ isRawText name = true ∧ lowerAscii name' = lowerAscii name)

/-- How a node stands in `s`, inside elements whose closing tags start at the bytes `ends`. An
element is closed in its own opening tag or by it, by a closing tag of its own, or by the closing
tag of an element around it. -/
inductive Node.Placed (s : Text) : List Nat → Node → Prop
  | leaf {ends : List Nat} {v : Node} (hkind : v.kind ≠ .element) (hspan : IsCut s v.span) :
      Placed s ends v
  | empty {ends : List Nat} {name : Text} {span : Span} {attributes : List Attribute}
      {closed : Bool} (hspan : IsCut s span) (hopen : IsOpenTag s span name attributes closed)
      (hempty : (closed || isVoid name) = true) : Placed s ends (.element name span attributes [])
  | closed {ends : List Nat} {name : Text} {start m n stop : Nat} {attributes : List Attribute}
      {children : List Node} (hspan : IsCut s ⟨start, stop⟩)
      (hopen : IsOpenTag s ⟨start, m⟩ name attributes false) (hvoid : isVoid name = false)
      (htiles : Tiles m n children)
      (hchildren : ∀ v ∈ children, Placed s (n :: ends) v) (hclose : IsCloseTag s ⟨n, stop⟩ name) :
      Placed s ends (.element name ⟨start, stop⟩ attributes children)
  | implicit {ends : List Nat} {name : Text} {start m stop : Nat} {attributes : List Attribute}
      {children : List Node} (hspan : IsCut s ⟨start, stop⟩)
      (hopen : IsOpenTag s ⟨start, m⟩ name attributes false) (hvoid : isVoid name = false)
      (htiles : Tiles m stop children)
      (hchildren : ∀ v ∈ children, Placed s ends v) (hend : stop ∈ ends) :
      Placed s ends (.element name ⟨start, stop⟩ attributes children)

/-! The parts of a text. -/

section
variable {a u : Text} (b : Text)

theorem isCut_middle (hu : u ≠ []) : IsCut (a ++ (u ++ b)) ⟨byteSize a, byteSize a + byteSize u⟩ :=
  ⟨a, u, b, rfl, hu, by rw [byteSize_append]⟩

theorem slice?_middle :
    slice? (a ++ (u ++ b)) ⟨byteSize a, byteSize a + byteSize u⟩ = some u :=
  slice?_eq_some_iff.mpr ⟨a, b, rfl, by rw [byteSize_append]⟩

theorem isOpenTag_middle {name body : Text} {as : List Attribute} {closed : Bool}
    (h : AttributesIn (byteSize a + byteSize ('<' :: name)) body as closed) :
    IsOpenTag (a ++ ('<' :: (name ++ body) ++ b))
      ⟨byteSize a, byteSize a + byteSize ('<' :: (name ++ body))⟩ name as closed where
  text := ⟨body, slice?_middle b, h⟩
  isCut := by
    intro x hx
    have := h.isCut (x := a ++ '<' :: name) (byteSize_append ..) b hx
    simpa using this
  inside := by
    intro x hx
    have hbounds := h.bounds hx
    have hpos := '<'.utf8Size_pos
    simp only [byteSize_cons, byteSize_append] at hbounds ⊢
    omega
  disjoint := h.disjoint

theorem isCloseTag_middle {name name' blanks : Text} (hblanks : ∀ c ∈ blanks, isTagBlank c = true)
    (hname : name' = name ∨ isRawText name = true ∧ lowerAscii name' = lowerAscii name) :
    IsCloseTag (a ++ ('<' :: '/' :: name' ++ (blanks ++ ['>']) ++ b))
      ⟨byteSize a, byteSize a + byteSize ('<' :: '/' :: name' ++ (blanks ++ ['>']))⟩ name :=
  ⟨name', blanks, slice?_middle b, hblanks, hname⟩

theorem rawContent_placed (ends : List Nat) :
    Tiles (byteSize a) (byteSize a + byteSize u) (rawContent (byteSize a) u) ∧
      ∀ v ∈ rawContent (byteSize a) u, v.Placed (a ++ (u ++ b)) ends := by
  unfold rawContent
  by_cases hu : u = []
  · subst hu
    exact ⟨rfl, nofun⟩
  · have hpos := byteSize_pos hu
    rw [if_neg (by simpa using hu)]
    constructor
    · exact ⟨rfl, Nat.lt_add_of_pos_right hpos, rfl⟩
    · intro v hv
      rw [List.mem_singleton.mp hv]
      exact .leaf (by simp [Node.kind]) (isCut_middle b hu)

end

/-! The nodes of a forest. -/

section
variable {u : Text} (a b : Text)

/-- A node that is read as one token. -/
theorem IsLexeme.placed {v : Node} (h : IsLexeme u (.node v)) (ends : List Nat) :
    (v.shift (byteSize a)).Placed (a ++ (u ++ b)) ends := by
  have hcut := isCut_middle (a := a) b h.ne_nil
  have hlayout := h.laidOut (byteSize a)
  rw [Token.shift] at hlayout
  generalize v.shift (byteSize a) = w at hlayout
  cases hlayout with
  | leaf hkind hspan => exact .leaf hkind (hspan ▸ hcut)
  | empty hname hbody hempty => exact .empty hcut (isOpenTag_middle b hbody) hempty
  | @rawText name body content name' blanks as hname hbody hvoid hraw hname' hblanks =>
    have hopen (t : Text) := isOpenTag_middle t hbody
    have hclose (c : Text) := isCloseTag_middle (a := c) b hblanks (.inr ⟨hraw, hname'⟩)
    generalize '<' :: (name ++ body) = opening at hopen hcut ⊢
    generalize '<' :: '/' :: name' ++ (blanks ++ ['>']) = closing at hclose hcut ⊢
    obtain ⟨htiles, hchildren⟩ := rawContent_placed (a := a ++ opening) (u := content)
      (closing ++ b) ((byteSize a + byteSize opening + byteSize content) :: ends)
    have hclose' := hclose (a ++ (opening ++ content))
    simp only [byteSize_append, List.append_assoc, Nat.add_assoc] at *
    exact .closed hcut (hopen _) hvoid htiles hchildren hclose'

theorem IsLexeme.isOpenTag {name : Text} {attributes : List Attribute}
    (h : IsLexeme u (.openTag name 0 attributes)) :
    IsOpenTag (a ++ (u ++ b)) ⟨byteSize a, byteSize a + byteSize u⟩ name
      (attributes.map (.shift (byteSize a))) false ∧ isVoid name = false := by
  have hlayout := h.laidOut (byteSize a)
  rw [Token.shift, Nat.add_zero] at hlayout
  cases hlayout with
  | openTag hname hbody hvoid => exact ⟨isOpenTag_middle b hbody, hvoid⟩

theorem IsLexeme.isCloseTag {name : Text} (h : IsLexeme u (.closeTag name ⟨0, byteSize u⟩)) :
    IsCloseTag (a ++ (u ++ b)) ⟨byteSize a, byteSize a + byteSize u⟩ name := by
  have hlayout := h.laidOut (byteSize a)
  rw [Token.shift, Span.shift, Nat.add_zero] at hlayout
  generalize hspan : (⟨byteSize a, byteSize a + byteSize u⟩ : Span) = span at hlayout
  cases hlayout with
  | closeTag hblanks => exact isCloseTag_middle b hblanks (.inl rfl)

end

/-- A node over `u` in front of the siblings that stand behind `u`. -/
theorem placed_cons {s u : Text} {m n : Nat} {v : Node} {vs : List Node} {ends : List Nat}
    (hu : u ≠ []) (hspan : v.span = ⟨m, m + byteSize u⟩) (hv : v.Placed s ends)
    (hvs : Tiles (m + byteSize u) n vs ∧ ∀ w ∈ vs, w.Placed s ends) :
    Tiles m n (v :: vs) ∧ ∀ w ∈ v :: vs, w.Placed s ends := by
  rw [Tiles, hspan]
  exact ⟨⟨rfl, Nat.lt_add_of_pos_right (byteSize_pos hu), hvs.1⟩,
    List.forall_mem_cons.mpr ⟨hv, hvs.2⟩⟩

namespace Forest

/-- A forest whose last element hangs is closed by the closing tag that starts where it ends. -/
theorem Sound.placed {f : Forest} (hf : f.Sound) {s a b : Text} (ends : List Nat)
    (hs : s = a ++ (f.written ++ b))
    (hends : f.unclosed ≠ [] → byteSize a + byteSize f.written ∈ ends) :
    Tiles (byteSize a) (byteSize a + byteSize f.written) (f.nodesAt (byteSize a)) ∧
      ∀ v ∈ f.nodesAt (byteSize a), v.Placed s ends := by
  induction hf generalizing a b ends with
  | nil => exact ⟨rfl, nofun⟩
  | @plain u rest hne _ _ _ ih =>
    have hcut := isCut_middle (a := a) (rest.written ++ b) hne
    have hrest := ih (a := a ++ u) (b := b) ends (by simp [hs, written])
      (by simpa [written, unclosed, Nat.add_assoc] using hends)
    rw [byteSize_append] at hrest
    rw [nodesAt, written, byteSize_append, ← Nat.add_assoc]
    refine placed_cons hne rfl ?_ hrest
    rw [hs, written, List.append_assoc]
    exact .leaf (by simp [Node.kind]) hcut
  | @leaf u v rest hu _ ih =>
    have hleaf := hu.placed a (rest.written ++ b) ends
    have hspan : (v.shift (byteSize a)).span = ⟨byteSize a, byteSize a + byteSize u⟩ := by
      rw [Node.span_shift, hu.covers.1]
      rfl
    have hrest := ih (a := a ++ u) (b := b) ends (by simp [hs, written])
      (by simpa [written, unclosed, Nat.add_assoc] using hends)
    rw [byteSize_append] at hrest
    rw [nodesAt, written, byteSize_append, ← Nat.add_assoc]
    refine placed_cons hu.ne_nil hspan ?_ hrest
    rw [hs, written, List.append_assoc]
    exact hleaf
  | @closed opening name closing attributes children rest hopening _ hname hclosing _ ih ih_rest =>
    have hne : opening ++ (children.written ++ closing) ≠ [] := by
      simp [hopening.ne_nil]
    have hcut := isCut_middle (a := a) (rest.written ++ b) hne
    obtain ⟨hopen, hvoid⟩ :=
      hopening.isOpenTag a (children.written ++ (closing ++ (rest.written ++ b)))
    have hclose := hclosing.isCloseTag (a ++ (opening ++ children.written)) (rest.written ++ b)
    have hs' : s = a ++ (opening ++ (children.written ++ (closing ++ (rest.written ++ b)))) := by
      simp [hs, written]
    -- the children may end at the closing tag, and at any that closes an element around it
    obtain ⟨htiles, hchildren⟩ := ih (a := a ++ opening) (b := closing ++ (rest.written ++ b))
      ((byteSize (a ++ opening) + byteSize children.written) :: ends) (by simp [hs'])
      (fun _ => List.mem_cons_self ..)
    have hrest := ih_rest (a := a ++ (opening ++ (children.written ++ closing)))
      (b := b) ends (by simp [hs'])
      (by simpa [written, unclosed, Nat.add_assoc] using hends)
    rw [nodesAt, written]
    refine placed_cons hne rfl ?_ ?_
    · simp only [byteSize_append, List.append_assoc, Nat.add_assoc] at *
      rw [← hs'] at hcut hopen hclose
      exact .closed hcut hopen hvoid htiles hchildren hclose
    · simpa only [byteSize_append, List.append_assoc, Nat.add_assoc] using hrest
  | @hanging opening name attributes children hopening _ ih =>
    have hne : opening ++ children.written ≠ [] := by
      simp [hopening.ne_nil]
    have hcut := isCut_middle (a := a) b hne
    have hstop := hends (List.cons_ne_nil name children.unclosed)
    rw [written] at hs hstop
    obtain ⟨hopen, hvoid⟩ := hopening.isOpenTag a (children.written ++ b)
    obtain ⟨htiles, hchildren⟩ := ih (a := a ++ opening) (b := b) ends (by simp [hs])
      (fun _ => by simpa [Nat.add_assoc] using hstop)
    rw [nodesAt, written]
    refine placed_cons hne rfl ?_ ⟨rfl, List.forall_mem_nil _⟩
    simp only [byteSize_append, List.append_assoc, Nat.add_assoc] at *
    rw [← hs] at hcut hopen
    exact .implicit hcut hopen hvoid htiles hchildren hstop

end Forest

/-! The order in which a walk meets the nodes. -/

/-- The nodes start one after the other, from byte `m` on and before byte `n`. -/
structure StartsIn (m n : Nat) (vs : List Node) : Prop where
  bounds : ∀ v ∈ vs, m ≤ v.span.start ∧ v.span.start < n
  increasing : vs.Pairwise fun v w => v.span.start < w.span.start

theorem start_lt_stop_of_slice? {s u : Text} {span : Span} (h : slice? s span = some u)
    (hu : u ≠ []) : span.start < span.stop := by
  obtain ⟨a, b, rfl, rfl⟩ := slice?_eq_some_iff.mp h
  have := byteSize_pos hu
  simp only [byteSize_append]
  omega

theorem IsOpenTag.start_lt_stop {s name : Text} {span : Span} {attributes : List Attribute}
    {closed : Bool} (h : IsOpenTag s span name attributes closed) : span.start < span.stop := by
  obtain ⟨body, htext, -⟩ := h.text
  exact start_lt_stop_of_slice? htext (List.cons_ne_nil _ _)

theorem IsCloseTag.start_lt_stop {s name : Text} {span : Span} (h : IsCloseTag s span name) :
    span.start < span.stop := by
  obtain ⟨name', blanks, htext, -⟩ := h
  exact start_lt_stop_of_slice? htext (by simp)

/-- Of nodes that stand one behind the other, all that is below one starts before the next one. -/
theorem Tiles.startsIn {m n : Nat} {vs : List Node} (h : Tiles m n vs)
    (hvs : ∀ v ∈ vs, StartsIn v.span.start v.span.stop v.preorder) :
    m ≤ n ∧ StartsIn m n (preorderAll vs) := by
  induction vs generalizing m with
  | nil =>
    obtain rfl : m = n := h
    exact ⟨Nat.le_refl m, nofun, .nil⟩
  | cons v vs ih =>
    obtain ⟨rfl, hlt, htiles⟩ := h
    obtain ⟨hle, hrest⟩ := ih htiles fun w hw => hvs w (List.mem_cons_of_mem _ hw)
    have hv := hvs v (List.mem_cons_self ..)
    refine ⟨by omega, ?_, ?_⟩
    · intro w hw
      rw [preorderAll, List.mem_append] at hw
      rcases hw with hw | hw
      · have := hv.bounds w hw
        omega
      · have := hrest.bounds w hw
        omega
    · refine List.pairwise_append.mpr ⟨hv.increasing, hrest.increasing, ?_⟩
      intro w hw w' hw'
      have := hv.bounds w hw
      have := hrest.bounds w' hw'
      omega

theorem startsIn_element {name : Text} {start m n stop : Nat} {attributes : List Attribute}
    {children : List Node} (hm : start < m) (hn : m ≤ n ∧ StartsIn m n (preorderAll children))
    (hstop : n ≤ stop) :
    StartsIn start stop (Node.element name ⟨start, stop⟩ attributes children).preorder := by
  obtain ⟨hle, hchildren⟩ := hn
  rw [Node.preorder]
  constructor
  · intro v hv
    rcases List.mem_cons.mp hv with rfl | hv
    · simp only [Node.span_element]
      omega
    · have := hchildren.bounds v hv
      omega
  · refine .cons (fun v hv => ?_) hchildren.increasing
    have := (hchildren.bounds v hv).1
    simp only [Node.span_element]
    omega

theorem Node.Placed.startsIn {s : Text} {ends : List Nat} {v : Node} (h : v.Placed s ends) :
    StartsIn v.span.start v.span.stop v.preorder := by
  induction h with
  | @leaf ends v hkind hspan =>
    have hlt := hspan.start_lt_stop
    cases v with
    | element => exact absurd rfl hkind
    | interpolation => exact ⟨nofun, .nil⟩
    | _ => exact ⟨List.forall_mem_singleton.mpr ⟨Nat.le_refl _, hlt⟩, List.pairwise_singleton _ _⟩
  | @empty _ _ span _ _ _ hopen =>
    exact startsIn_element hopen.start_lt_stop ⟨Nat.le_refl _, nofun, .nil⟩ (Nat.le_refl span.stop)
  | closed _ hopen _ htiles _ hclose ih =>
    exact startsIn_element hopen.start_lt_stop (htiles.startsIn ih)
      (Nat.le_of_lt hclose.start_lt_stop)
  | implicit _ hopen _ htiles _ _ ih =>
    exact startsIn_element hopen.start_lt_stop (htiles.startsIn ih) (Nat.le_refl _)

/-- The nodes of a document: its children and those of every element leave no gap, every node and
every attribute is a part of the text that is not empty, and a walk meets the nodes in the order in
which they start. -/
theorem placed_of_parse {s : Text} {d : Document} (h : parse s = .ok d) :
    d.size = byteSize s ∧ Tiles 0 (byteSize s) d.children ∧
      (∀ v ∈ d.children, v.Placed s []) ∧
      d.stops.tail.Pairwise fun v w => v.span.start < w.span.start := by
  obtain ⟨f, hf, rfl, rfl⟩ := parse_eq_ok_iff.mp h
  obtain ⟨htiles, hplaced⟩ := hf.sound.placed (a := []) (b := []) []
    (List.append_nil f.written).symm (fun hne => absurd hf.unclosed hne)
  rw [byteSize_nil, Nat.zero_add] at htiles
  refine ⟨rfl, htiles, hplaced, ?_⟩
  have hstarts := (htiles.startsIn fun v hv => (hplaced v hv).startsIn).2
  exact List.pairwise_map.mpr hstarts.increasing

/-- The list item is closed by the closing tag of its list. -/
theorem placed_of_parse_list :
    ∃ d, parse "<ul><li>é</ul>".toList = .ok d ∧
      d.stops.map (·.span) = [⟨0, 15⟩, ⟨0, 15⟩, ⟨4, 10⟩, ⟨8, 10⟩] ∧ Tiles 0 15 d.children ∧
      ∀ v ∈ d.children, v.Placed "<ul><li>é</ul>".toList [] := by
  have hul : IsPlainName "ul".toList :=
    ⟨List.all_eq_true.mp (by decide), ⟨'u', _, rfl, by decide⟩, by decide, by decide⟩
  have hli : IsPlainName "li".toList :=
    ⟨List.all_eq_true.mp (by decide), ⟨'l', _, rfl, by decide⟩, by decide, by decide⟩
  have htext : (Forest.plain "é".toList .nil).Sound := .plain (by decide) (by decide) rfl .nil
  have hitem := Forest.Sound.hanging (isLexeme_bareTag hli) htext
  have hlist := Forest.Sound.closed (isLexeme_bareTag hul) hitem (by decide)
    (isLexeme_bareCloseTag hul) .nil
  have hparse := parse_written ⟨hlist, rfl⟩
  obtain ⟨-, htiles, hplaced, -⟩ := placed_of_parse hparse
  exact ⟨_, hparse, rfl, htiles, hplaced⟩

end MarkupHighlight.Markup
