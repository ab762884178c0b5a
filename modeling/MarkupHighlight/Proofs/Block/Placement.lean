import MarkupHighlight.Proofs.Block.Verdict
import MarkupHighlight.Proofs.Markup.Parsing

/-!
Where the annotated code blocks of a document stand: each is a part of the text, and they come in
the order in which they start.
-/
namespace MarkupHighlight
open Markup

theorem IsCut.shift {s : Text} {span : Span} (h : IsCut s span) (u t : Text) :
    IsCut (u ++ (s ++ t)) (span.shift (byteSize u)) := by
  obtain ⟨a, m, b, rfl, hm, rfl⟩ := h
  exact ⟨u ++ a, m, b ++ t, by simp, hm, by simp [Span.shift]⟩

theorem isCut_front {s : Text} (hs : s ≠ []) (t : Text) : IsCut (s ++ t) ⟨0, byteSize s⟩ :=
  ⟨[], s, t, rfl, hs, by simp⟩

variable (supported : SupportedLanguages)

namespace Markup

/-- The annotated code blocks of a forest that is written from byte `n` on. -/
def Forest.blocksAt (n : Nat) (f : Forest) : List Block := blocksOf supported (f.nodesAt n)

theorem Forest.blocksAt_add (m n : Nat) (f : Forest) :
    f.blocksAt supported (m + n) = (f.blocksAt supported n).map (.shift m) := by
  rw [blocksAt, nodesAt_add, blocksOf_shiftAll]
  rfl

theorem Forest.blocksAt_eq_shift (n : Nat) (f : Forest) :
    f.blocksAt supported n = (f.blocksAt supported 0).map (.shift n) :=
  f.blocksAt_add supported n 0

/-- The verdict on an element with the given children itself. -/
def ownVerdict? (name : Text) (attributes : List Attribute) (children : Forest) :
    Option Verdict :=
  (Node.element name ⟨0, 0⟩ attributes (children.nodesAt 0)).verdict? supported

theorem block?_element (m n : Nat) (span : Span) (name : Text) (attributes : List Attribute)
    (children : Forest) :
    (Node.element name span (attributes.map (.shift m)) (children.nodesAt n)).block? supported =
      (ownVerdict? supported name attributes children).map (⟨span, ·⟩) := by
  have hnodes := children.nodesAt_add n 0
  rw [Nat.add_zero] at hnodes
  simp only [Node.block?, ownVerdict?, Node.verdict?, Node.declared, Node.code?, Node.children,
    ofAttributes_map_shift, hnodes, payload?_shiftAll, Node.span]

theorem blocksOf_texts {vs : List Node} (h : ∀ v ∈ vs, v.kind = .text) :
    blocksOf supported vs = [] := by
  induction vs with
  | nil => rfl
  | cons v vs ih =>
    rw [blocksOf_cons, ih fun w hw => h w (List.mem_cons_of_mem _ hw)]
    have hv := h v (List.mem_cons_self ..)
    cases v with
    | text => rfl
    | _ => cases hv

namespace Forest

@[simp] theorem blocksAt_nil (n : Nat) : Forest.nil.blocksAt supported n = [] := rfl

theorem blocksAt_plain (s : Text) (rest : Forest) :
    (plain s rest).blocksAt supported 0 =
      (rest.blocksAt supported 0).map (.shift (byteSize s)) := by
  rw [← blocksAt_eq_shift, blocksAt, nodesAt, blocksOf_cons, Nat.zero_add]
  rfl

theorem blocksAt_leaf {s : Text} {v : Node} (hv : v.IsLeaf) (rest : Forest) :
    (leaf s v rest).blocksAt supported 0 =
      (v.block? supported).toList ++ (rest.blocksAt supported 0).map (.shift (byteSize s)) := by
  rw [← blocksAt_eq_shift, blocksAt, nodesAt, blocksOf_cons, Nat.zero_add, Node.shift_zero,
    blocksOf_texts supported hv]
  rfl

theorem blocksAt_closed (opening name : Text) (attributes : List Attribute)
    (children : Forest) (closing : Text) (rest : Forest) :
    (closed opening name attributes children closing rest).blocksAt supported 0 =
      ((ownVerdict? supported name attributes children).map
          (⟨⟨0, byteSize (opening ++ (children.written ++ closing))⟩, ·⟩)).toList ++
        ((children.blocksAt supported 0).map (.shift (byteSize opening)) ++
          (rest.blocksAt supported 0).map
            (.shift (byteSize (opening ++ (children.written ++ closing))))) := by
  rw [← blocksAt_eq_shift, ← blocksAt_eq_shift, blocksAt, nodesAt, blocksOf_cons, block?_element]
  simp only [Nat.zero_add, Node.children]
  rfl

theorem blocksAt_hanging (opening name : Text) (attributes : List Attribute)
    (children : Forest) :
    (hanging opening name attributes children).blocksAt supported 0 =
      ((ownVerdict? supported name attributes children).map
          (⟨⟨0, byteSize (opening ++ children.written)⟩, ·⟩)).toList ++
        (children.blocksAt supported 0).map (.shift (byteSize opening)) := by
  rw [← blocksAt_eq_shift, blocksAt, nodesAt, blocksOf_cons, block?_element]
  simp only [Nat.zero_add, Node.children]
  rw [blocksOf_nil, List.append_nil]
  rfl

end Forest

end Markup

theorem IsCut.stop_le {s : Text} {span : Span} (h : IsCut s span) : span.stop ≤ byteSize s := by
  obtain ⟨a, m, b, rfl, -, rfl⟩ := h
  simp only [byteSize_append]
  omega

theorem span_of_block? {v : Node} {b : Block} (h : v.block? supported = some b) :
    b.span = v.span := by
  obtain ⟨verdict, -, rfl⟩ := Option.map_eq_some_iff.mp h
  rfl

/-- Every block is a part of the text. -/
theorem isCut_of_mem_blocksAt {f : Forest} (hf : f.Sound) :
    ∀ b ∈ f.blocksAt supported 0, IsCut f.written b.span := by
  induction hf with
  | nil => simp
  | @plain s rest hne _ _ _ ih =>
    intro b hb
    rw [Forest.blocksAt_plain] at hb
    obtain ⟨c, hc, rfl⟩ := List.mem_map.mp hb
    simpa [Forest.written] using (ih c hc).shift s []
  | @leaf s v rest hs _ ih =>
    intro b hb
    rw [Forest.blocksAt_leaf supported hs.covers.2] at hb
    rcases List.mem_append.mp hb with hb | hb
    · rw [span_of_block? supported (Option.mem_toList.mp hb), hs.covers.1]
      exact isCut_front hs.ne_nil rest.written
    · obtain ⟨c, hc, rfl⟩ := List.mem_map.mp hb
      simpa [Forest.written] using (ih c hc).shift s []
  | @closed opening name closing attributes children rest hopening _ _ _ _ ih ih_rest =>
    intro b hb
    rw [Forest.blocksAt_closed] at hb
    rcases List.mem_append.mp hb with hb | hb
    · obtain ⟨verdict, -, rfl⟩ := Option.map_eq_some_iff.mp (Option.mem_toList.mp hb)
      simpa [Forest.written] using isCut_front (s := opening ++ (children.written ++ closing))
        (by simp [hopening.ne_nil]) rest.written
    rcases List.mem_append.mp hb with hb | hb
    · obtain ⟨c, hc, rfl⟩ := List.mem_map.mp hb
      exact (ih c hc).shift opening _
    · obtain ⟨c, hc, rfl⟩ := List.mem_map.mp hb
      simpa [Forest.written] using
        (ih_rest c hc).shift (opening ++ (children.written ++ closing)) []
  | @hanging opening name attributes children hopening _ ih =>
    intro b hb
    rw [Forest.blocksAt_hanging] at hb
    rcases List.mem_append.mp hb with hb | hb
    · obtain ⟨verdict, -, rfl⟩ := Option.map_eq_some_iff.mp (Option.mem_toList.mp hb)
      simpa [Forest.written] using isCut_front (s := opening ++ children.written)
        (by simp [hopening.ne_nil]) []
    · obtain ⟨c, hc, rfl⟩ := List.mem_map.mp hb
      simpa [Forest.written] using (ih c hc).shift opening []

theorem pairwise_start_shift {bs : List Block} (n : Nat)
    (h : bs.Pairwise fun a b => a.span.start < b.span.start) :
    (bs.map (Block.shift n)).Pairwise fun a b => a.span.start < b.span.start :=
  List.pairwise_map.mpr (h.imp fun hab => Nat.add_lt_add_left hab n)

/-- The blocks come in the order in which they start. -/
theorem ordered_blocksAt {f : Forest} (hf : f.Sound) :
    (f.blocksAt supported 0).Pairwise fun a b => a.span.start < b.span.start := by
  induction hf with
  | nil => exact .nil
  | plain _ _ _ _ ih =>
    rw [Forest.blocksAt_plain]
    exact pairwise_start_shift _ ih
  | @leaf s v rest hs hrest ih =>
    rw [Forest.blocksAt_leaf supported hs.covers.2]
    refine List.pairwise_append.mpr ⟨?_, pairwise_start_shift _ ih, fun a ha b hb => ?_⟩
    · cases v.block? supported <;> simp
    · rw [span_of_block? supported (Option.mem_toList.mp ha), hs.covers.1]
      obtain ⟨c, hc, rfl⟩ := List.mem_map.mp hb
      have := byteSize_pos hs.ne_nil
      simp only [Block.shift, Span.shift]
      omega
  | @closed opening name closing attributes children rest hopening hchildren _ _ _ ih ih_rest =>
    rw [Forest.blocksAt_closed]
    have hpos := byteSize_pos hopening.ne_nil
    refine List.pairwise_append.mpr ⟨?_, List.pairwise_append.mpr
      ⟨pairwise_start_shift _ ih, pairwise_start_shift _ ih_rest, fun a ha b hb => ?_⟩,
      fun a ha b hb => ?_⟩
    · cases ownVerdict? supported name attributes children <;> simp
    · obtain ⟨c, hc, rfl⟩ := List.mem_map.mp ha
      obtain ⟨e, he, rfl⟩ := List.mem_map.mp hb
      have hcut := isCut_of_mem_blocksAt supported hchildren c hc
      have := hcut.start_lt_stop
      have := hcut.stop_le
      simp only [Block.shift, Span.shift, byteSize_append]
      omega
    · obtain ⟨verdict, -, rfl⟩ := Option.map_eq_some_iff.mp (Option.mem_toList.mp ha)
      rcases List.mem_append.mp hb with hb | hb
      all_goals
        obtain ⟨b, hb, rfl⟩ := List.mem_map.mp hb
        simp only [Block.shift, Span.shift, byteSize_append]
        omega
  | @hanging opening name attributes children hopening _ ih =>
    rw [Forest.blocksAt_hanging]
    have hpos := byteSize_pos hopening.ne_nil
    refine List.pairwise_append.mpr ⟨?_, pairwise_start_shift _ ih, fun a ha b hb => ?_⟩
    · cases ownVerdict? supported name attributes children <;> simp
    · obtain ⟨verdict, -, rfl⟩ := Option.map_eq_some_iff.mp (Option.mem_toList.mp ha)
      obtain ⟨b, hb, rfl⟩ := List.mem_map.mp hb
      simp only [Block.shift, Span.shift]
      omega

/-! The same for the document that a text is read as. -/

theorem isCut_of_parse {source : Text} {d : Document} (h : parse source = .ok d) :
    ∀ b ∈ blocksOf supported d.children, IsCut source b.span := by
  obtain ⟨f, hf, rfl, rfl⟩ := parse_eq_ok_iff.mp h
  exact isCut_of_mem_blocksAt supported hf.sound

theorem ordered_of_parse {source : Text} {d : Document} (h : parse source = .ok d) :
    (blocksOf supported d.children).Pairwise fun a b => a.span.start < b.span.start := by
  obtain ⟨f, hf, rfl, rfl⟩ := parse_eq_ok_iff.mp h
  exact ordered_blocksAt supported hf.sound

end MarkupHighlight
