import MarkupHighlight.Proofs.Markup.Parsing

/-!
Elements nest: of two elements of a document either one is inside the other or their spans do not
overlap.
-/
namespace MarkupHighlight.Markup

/-- An element among some nodes or below them. -/
def IsElementOf (w : Node) (vs : List Node) : Prop := w ∈ preorderAll vs ∧ w.kind = .element

theorem isElementOf_cons {v w : Node} {vs : List Node} :
    IsElementOf w (v :: vs) ↔
      (w = v ∧ w.kind = .element) ∨ IsElementOf w v.children ∨ IsElementOf w vs := by
  cases v with
  | element name span attributes children =>
    simp only [IsElementOf, preorderAll, Node.preorder, Node.children, List.mem_append,
      List.mem_cons, or_and_right, or_assoc]
  | interpolation =>
    simp only [IsElementOf, preorderAll, Node.preorder, Node.children, List.nil_append,
      List.not_mem_nil, false_or, false_and]
    constructor
    · exact .inr
    · rintro (⟨rfl, hkind⟩ | h)
      · cases hkind
      · exact h
  | _ =>
    simp only [IsElementOf, preorderAll, Node.preorder, Node.children, List.mem_append,
      List.mem_cons, List.not_mem_nil, or_false, false_or, false_and]
    constructor
    · rintro ⟨rfl | h, hkind⟩
      · exact .inl ⟨rfl, hkind⟩
      · exact .inr ⟨h, hkind⟩
    · rintro (⟨rfl, hkind⟩ | h)
      · cases hkind
      · exact ⟨.inr h.1, h.2⟩

theorem not_isElementOf_texts {w : Node} {vs : List Node} (h : ∀ v ∈ vs, v.kind = .text) :
    ¬ IsElementOf w vs := by
  induction vs with
  | nil => rintro ⟨hw, -⟩; cases hw
  | cons v vs ih =>
    rw [isElementOf_cons]
    have hv := h v (List.mem_cons_self ..)
    have hchildren : v.children = [] := by
      cases v with
      | text => rfl
      | _ => cases hv
    rintro (⟨rfl, hkind⟩ | hw | hw)
    · rw [hv] at hkind
      cases hkind
    · rw [hchildren] at hw
      cases hw.1
    · exact ih (fun v hv => h v (List.mem_cons_of_mem _ hv)) hw

mutual

theorem Node.mem_preorder_of_children {v w : Node} :
    (u : Node) → v ∈ u.preorder → w ∈ preorderAll v.children → w ∈ u.preorder
  | .element name span attributes children => fun hv hw => by
      rw [Node.preorder, List.mem_cons] at hv ⊢
      rcases hv with rfl | hv
      · exact .inr hw
      · exact .inr (mem_preorderAll_of_children children hv hw)
  | .text _ | .comment _ | .tag _ _ => fun hv hw => by
      obtain rfl := List.mem_singleton.mp hv
      cases hw
  | .interpolation _ _ => fun hv _ => by cases hv

/-- What is inside an element among some nodes is itself among or below these nodes. -/
theorem mem_preorderAll_of_children {v w : Node} :
    (vs : List Node) → v ∈ preorderAll vs → w ∈ preorderAll v.children → w ∈ preorderAll vs
  | [] => fun hv _ => by cases hv
  | u :: vs => fun hv hw => by
      rw [preorderAll, List.mem_append] at hv ⊢
      rcases hv with hv | hv
      · exact .inl (Node.mem_preorder_of_children u hv hw)
      · exact .inr (mem_preorderAll_of_children vs hv hw)

end

/-! The elements of a forest. -/

theorem IsElementOf.of_plain {w : Node} {n : Nat} {s : Text} {rest : Forest}
    (h : IsElementOf w ((Forest.plain s rest).nodesAt n)) :
    IsElementOf w (rest.nodesAt (n + byteSize s)) := by
  rw [Forest.nodesAt, isElementOf_cons] at h
  rcases h with ⟨rfl, hkind⟩ | h | h
  · cases hkind
  · cases h.1
  · exact h

theorem Node.IsLeaf.shift {v : Node} (hv : v.IsLeaf) (n : Nat) : (v.shift n).IsLeaf := by
  cases v with
  | element name span attributes children =>
    intro w hw
    rw [Node.shift, Node.children, shiftAll_eq_map] at hw
    obtain ⟨u, hu, rfl⟩ := List.mem_map.mp hw
    have hkind := hv u hu
    cases u with
    | text => rfl
    | _ => cases hkind
  | _ => exact Node.isLeaf_of_children rfl

theorem IsElementOf.of_leaf {w v : Node} {n : Nat} {s : Text} (hv : v.IsLeaf) {rest : Forest}
    (h : IsElementOf w ((Forest.leaf s v rest).nodesAt n)) :
    w = v.shift n ∨ IsElementOf w (rest.nodesAt (n + byteSize s)) := by
  rw [Forest.nodesAt, isElementOf_cons] at h
  rcases h with ⟨h, -⟩ | h | h
  · exact .inl h
  · exact absurd h (not_isElementOf_texts (hv.shift n))
  · exact .inr h

/-- An element takes at least one byte of the text in which it stands. -/
theorem span_of_isElementOf {f : Forest} (hf : f.Sound) {n : Nat} {v : Node}
    (hv : IsElementOf v (f.nodesAt n)) :
    n ≤ v.span.start ∧ v.span.start < v.span.stop ∧
      v.span.stop ≤ n + byteSize f.written := by
  induction hf generalizing n with
  | nil => cases hv.1
  | plain _ _ _ _ ih =>
    have := ih hv.of_plain
    simp only [Forest.written, byteSize_append]
    omega
  | leaf hs _ ih =>
    have hpos := byteSize_pos hs.ne_nil
    simp only [Forest.written, byteSize_append]
    rcases hv.of_leaf hs.covers.2 with rfl | hv
    · rw [Node.span_shift, hs.covers.1]
      simp only [Span.shift]
      omega
    · have := ih hv
      omega
  | closed hopening _ _ _ _ ih ih_rest =>
    have hpos := byteSize_pos hopening.ne_nil
    rw [Forest.nodesAt, isElementOf_cons] at hv
    simp only [Forest.written, byteSize_append] at ih ih_rest hv ⊢
    rcases hv with ⟨rfl, -⟩ | hv | hv
    · simp only [Node.span_element]
      omega
    · have := ih hv
      omega
    · have := ih_rest hv
      omega
  | hanging hopening _ ih =>
    have hpos := byteSize_pos hopening.ne_nil
    rw [Forest.nodesAt, isElementOf_cons] at hv
    simp only [Forest.written, byteSize_append] at ih hv ⊢
    rcases hv with ⟨rfl, -⟩ | hv | hv
    · simp only [Node.span_element]
      omega
    · have := ih hv
      omega
    · cases hv.1

/-- An element inside another one starts behind it and ends no later. -/
theorem span_inside {f : Forest} (hf : f.Sound) {n : Nat} {v w : Node}
    (hv : IsElementOf v (f.nodesAt n)) (hw : IsElementOf w v.children) :
    v.span.start < w.span.start ∧ w.span.stop ≤ v.span.stop := by
  induction hf generalizing n with
  | nil => cases hv.1
  | plain _ _ _ _ ih => exact ih hv.of_plain
  | @leaf _ _ _ hs _ ih =>
    rcases hv.of_leaf hs.covers.2 with rfl | hv
    · exact absurd hw (not_isElementOf_texts (hs.covers.2.shift n))
    · exact ih hv
  | closed hopening hchildren _ _ _ ih ih_rest =>
    have hpos := byteSize_pos hopening.ne_nil
    rw [Forest.nodesAt, isElementOf_cons] at hv
    rcases hv with ⟨rfl, -⟩ | hv | hv
    · have := span_of_isElementOf hchildren hw
      simp only [Node.span_element, byteSize_append]
      omega
    · exact ih hv
    · exact ih_rest hv
  | hanging hopening hchildren ih =>
    have hpos := byteSize_pos hopening.ne_nil
    rw [Forest.nodesAt, isElementOf_cons] at hv
    rcases hv with ⟨rfl, -⟩ | hv | hv
    · have := span_of_isElementOf hchildren hw
      simp only [Node.span_element, byteSize_append]
      omega
    · exact ih hv
    · cases hv.1

/-- An element that starts within the span of another one is inside it. -/
theorem isElementOf_of_span {f : Forest} (hf : f.Sound) {n : Nat} {v w : Node}
    (hv : IsElementOf v (f.nodesAt n)) (hw : IsElementOf w (f.nodesAt n))
    (hstart : v.span.start < w.span.start) (hstop : w.span.start < v.span.stop) :
    IsElementOf w v.children := by
  induction hf generalizing n with
  | nil => cases hv.1
  | plain _ _ _ _ ih => exact ih hv.of_plain hw.of_plain
  | leaf hs hrest ih =>
    rcases hv.of_leaf hs.covers.2 with rfl | hv <;> rcases hw.of_leaf hs.covers.2 with rfl | hw
    · omega
    · have := span_of_isElementOf hrest hw
      rw [Node.span_shift, hs.covers.1] at hstop
      simp only [Span.shift] at hstop
      omega
    · have := span_of_isElementOf hrest hv
      rw [Node.span_shift, hs.covers.1] at hstart
      simp only [Span.shift] at hstart
      omega
    · exact ih hv hw
  | closed hopening hchildren _ _ hrest ih ih_rest =>
    rw [Forest.nodesAt, isElementOf_cons] at hv hw
    simp only [byteSize_append] at hv hw
    rcases hv with ⟨rfl, -⟩ | hv | hv <;> rcases hw with ⟨rfl, -⟩ | hw | hw
    · omega
    · exact hw
    · have := span_of_isElementOf hrest hw
      simp only [Node.span_element] at hstop
      omega
    · have := span_of_isElementOf hchildren hv
      simp only [Node.span_element] at hstart
      omega
    · exact ih hv hw
    · have := span_of_isElementOf hchildren hv
      have := span_of_isElementOf hrest hw
      omega
    · have := span_of_isElementOf hrest hv
      simp only [Node.span_element] at hstart
      omega
    · have := span_of_isElementOf hrest hv
      have := span_of_isElementOf hchildren hw
      omega
    · exact ih_rest hv hw
  | hanging hopening hchildren ih =>
    rw [Forest.nodesAt, isElementOf_cons] at hv hw
    rcases hv with ⟨rfl, -⟩ | hv | hv
    · rcases hw with ⟨rfl, -⟩ | hw | hw
      · omega
      · exact hw
      · cases hw.1
    · rcases hw with ⟨rfl, -⟩ | hw | hw
      · have := span_of_isElementOf hchildren hv
        simp only [Node.span_element] at hstart
        omega
      · exact ih hv hw
      · cases hw.1
    · cases hv.1

end MarkupHighlight.Markup
