import MarkupHighlight.Proofs.Block.Relabelling
import MarkupHighlight.Proofs.Block.Rewriting
import MarkupHighlight.Proofs.Markup.Nesting
import MarkupHighlight.Proofs.Markup.Respelling

/-!
The language of one code block written in another way. The document has the same blocks as before,
those behind the attribute moved by what its text has grown, and the block itself asks for the
language that is written now.
-/
namespace MarkupHighlight
open Markup

/-! What the attribute asks for. -/

/-- The texts of an attribute that asks for a language. -/
inductive WritesLanguage : String → Text → Prop
  | auto : WritesLanguage autoName languageAttribute.toList
  | named {language : String} {k : Text} (hne : language.toList ≠ [])
      (hk : WritesAttribute languageAttribute.toList k (some language.toList)) :
      WritesLanguage language k

theorem isPlainKey_languageAttribute : IsPlainKey languageAttribute.toList :=
  ⟨by decide, List.all_eq_true.mp (by decide)⟩

section
variable {supported : SupportedLanguages} {attributes : List Attribute} {a : Attribute}
  (ha : findAttribute? languageAttribute.toList attributes = some a)
include ha

theorem of?_named {language : String} (hlanguage : supported.contains language = true)
    (hne : language.toList ≠ []) (hvalue : a.value = some [.text language.toList])
    (code : Option Payload) :
    Verdict.of? (.ofAttributes supported attributes) code =
      some (.labelled language code) := by
  have hdeclared : Annotation.ofAttributes supported attributes = .explicit language := by
    have hempty : language.toList.isEmpty = false := by simpa using hne
    rw [ Annotation.ofAttributes, ha]
    simp [hvalue, hempty, hlanguage]
  rw [hdeclared]
  cases code <;> rfl

theorem of?_auto (hvalue : a.value = none) (code : Option Payload) :
    Verdict.of? (.ofAttributes supported attributes) code =
      some (.labelled autoName code) := by
  have hdeclared : Annotation.ofAttributes supported attributes = .auto := by
    rw [ Annotation.ofAttributes, ha]
    simp [hvalue]
  rw [hdeclared]
  cases code <;> rfl

end

/-- However the language is written, the attribute has a value that asks for it. -/
theorem WritesLanguage.exists_value {supported : SupportedLanguages} {language : String}
    {k : Text} (h : WritesLanguage language k) (hlanguage : supported.contains language = true) :
    ∃ value, WritesAttribute languageAttribute.toList k value ∧
      ∀ attributes a, findAttribute? languageAttribute.toList attributes = some a →
        a.value = value.map (fun v => [.text v]) → ∀ code,
        Verdict.of? (.ofAttributes supported attributes) code =
          some (.labelled language code) := by
  cases h with
  | auto => exact ⟨none, .present, fun attributes a ha hvalue code => of?_auto ha hvalue code⟩
  | named hne hk =>
    exact ⟨_, hk, fun attributes a ha hvalue code => of?_named ha hlanguage hne hvalue code⟩

/-! A forest with one tag written in another way. -/

theorem ownVerdict?_congr {supported : SupportedLanguages} {name : Text}
    {attributes : List Attribute} {f f' : Forest}
    (h : firstInterpolation? (f'.nodesAt 0) = firstInterpolation? (f.nodesAt 0)) :
    ownVerdict? supported name attributes f' = ownVerdict? supported name attributes f := by
  simp only [ownVerdict?, Node.verdict?, Node.declared, Node.code?, Node.children, payload?, h]

namespace Markup.Forest

/-- The forest `f` has `k` between `x` and `y` for an attribute of the element at `s`, and `f'` is
the forest with `k'` in its place. -/
structure Respelled (supported : SupportedLanguages) (x k k' y : Text) (s : Span)
    (w w' : Verdict) (f f' : Forest) : Prop where
  sound : f'.Sound
  unclosed : f'.unclosed = f.unclosed
  startsPlain : f'.startsPlain = f.startsPlain
  before : f.written = x ++ (k ++ y)
  written : f'.written = x ++ (k' ++ y)
  interpolation : firstInterpolation? (f'.nodesAt 0) = firstInterpolation? (f.nodesAt 0)
  blocks : Relabelled (byteSize x) (byteSize k) (byteSize k') s w w' (f.blocksAt supported 0)
    (f'.blocksAt supported 0)

theorem firstInterpolation?_nodesAt (f : Forest) (n : Nat) :
    firstInterpolation? (f.nodesAt n) = firstInterpolation? (f.nodesAt 0) := by
  have hshift := f.nodesAt_add n 0
  rw [Nat.add_zero] at hshift
  rw [hshift, firstInterpolation?_shiftAll]

theorem firstInterpolation?_cons_congr {f f' : Forest} {v v' : Node}
    (hv : firstInterpolation? [v'] = firstInterpolation? [v])
    (h : firstInterpolation? (f'.nodesAt 0) = firstInterpolation? (f.nodesAt 0)) (m n : Nat) :
    firstInterpolation? (v' :: f'.nodesAt m) = firstInterpolation? (v :: f.nodesAt n) := by
  calc firstInterpolation? (v' :: f'.nodesAt m)
      = (firstInterpolation? [v']).or (firstInterpolation? (f'.nodesAt m)) :=
        firstInterpolation?_cons v' _
    _ = (firstInterpolation? [v]).or (firstInterpolation? (f.nodesAt n)) := by
        rw [hv, firstInterpolation?_nodesAt f' m, h, firstInterpolation?_nodesAt f n]
    _ = firstInterpolation? (v :: f.nodesAt n) := (firstInterpolation?_cons v _).symm

variable {supported : SupportedLanguages} {x k k' y : Text} {s : Span} {w w' : Verdict}
  {f f' : Forest}

namespace Respelled

theorem plain (h : f.Respelled supported x k k' y s w w' f') {u : Text} (hne : u ≠ [])
    (hu : isPlain u = true) (hf : f.startsPlain = false) :
    (Forest.plain u f).Respelled supported (u ++ x) k k' y (s.shift (byteSize u)) w w'
      (.plain u f') where
  sound := .plain hne hu (h.startsPlain.trans hf) h.sound
  unclosed := h.unclosed
  startsPlain := rfl
  before := by rw [Forest.written, h.before, List.append_assoc]
  written := by rw [Forest.written, h.written, List.append_assoc]
  interpolation := firstInterpolation?_cons_congr rfl h.interpolation _ _
  blocks := by
    rw [blocksAt_plain, blocksAt_plain, byteSize_append]
    exact h.blocks.shift (byteSize u)

theorem leaf (h : f.Respelled supported x k k' y s w w' f') (hk : k ≠ []) {u : Text} {v : Node}
    (hu : IsLexeme u (.node v)) :
    (Forest.leaf u v f).Respelled supported (u ++ x) k k' y (s.shift (byteSize u)) w w'
      (.leaf u v f') where
  sound := .leaf hu h.sound
  unclosed := h.unclosed
  startsPlain := rfl
  before := by rw [Forest.written, h.before, List.append_assoc]
  written := by rw [Forest.written, h.written, List.append_assoc]
  interpolation := firstInterpolation?_cons_congr rfl h.interpolation _ _
  blocks := by
    rw [blocksAt_leaf supported hu.covers.2, blocksAt_leaf supported hu.covers.2, byteSize_append]
    refine (h.blocks.shift (byteSize u)).before (byteSize_pos hk) ?_
    intro b hb
    rw [span_of_block? supported (Option.mem_toList.mp hb), hu.covers.1]
    exact ⟨Nat.zero_le _, Nat.le_add_right _ _⟩

/-- The attribute is behind a closed element. -/
theorem behind (h : f.Respelled supported x k k' y s w w' f') (hk : k ≠ [])
    {opening name closing : Text} {attributes : List Attribute} {children : Forest}
    (hopening : IsLexeme opening (.openTag name 0 attributes)) (hchildren : children.Sound)
    (hname : name ∉ children.unclosed)
    (hclosing : IsLexeme closing (.closeTag name ⟨0, byteSize closing⟩)) :
    (Forest.closed opening name attributes children closing f).Respelled supported
      (opening ++ (children.written ++ closing) ++ x) k k' y
      (s.shift (byteSize (opening ++ (children.written ++ closing)))) w w'
      (.closed opening name attributes children closing f') where
  sound := .closed hopening hchildren hname hclosing h.sound
  unclosed := h.unclosed
  startsPlain := rfl
  before := by simp [Forest.written, h.before]
  written := by simp [Forest.written, h.written]
  interpolation := firstInterpolation?_cons_congr rfl h.interpolation _ _
  blocks := by
    rw [blocksAt_closed, blocksAt_closed, byteSize_append (_ ++ _) x]
    generalize hsize : byteSize (opening ++ (children.written ++ closing)) = size
    rw [← List.append_assoc, ← List.append_assoc]
    refine (h.blocks.shift size).before (byteSize_pos hk) (List.forall_mem_append.mpr ⟨?_, ?_⟩)
    · intro b hb
      obtain ⟨verdict, -, rfl⟩ := Option.map_eq_some_iff.mp (Option.mem_toList.mp hb)
      exact ⟨Nat.zero_le _, Nat.le_add_right _ _⟩
    · intro b hb
      obtain ⟨c, hc, rfl⟩ := List.mem_map.mp hb
      have hcut := isCut_of_mem_blocksAt supported hchildren c hc
      have := hcut.start_lt_stop
      have := hcut.stop_le
      simp only [byteSize_append] at hsize
      simp only [Block.span_shift, Span.shift]
      omega

/-- The attribute is inside a closed element. -/
theorem closed (h : f.Respelled supported x k k' y s w w' f') (hk : k ≠ [])
    {opening name closing : Text} {attributes : List Attribute} {rest : Forest}
    (hopening : IsLexeme opening (.openTag name 0 attributes)) (hname : name ∉ f.unclosed)
    (hclosing : IsLexeme closing (.closeTag name ⟨0, byteSize closing⟩)) (hrest : rest.Sound) :
    (Forest.closed opening name attributes f closing rest).Respelled supported (opening ++ x) k k'
      (y ++ (closing ++ rest.written)) (s.shift (byteSize opening)) w w'
      (.closed opening name attributes f' closing rest) where
  sound := .closed hopening h.sound (h.unclosed ▸ hname) hclosing hrest
  unclosed := rfl
  startsPlain := rfl
  before := by simp [Forest.written, h.before]
  written := by simp [Forest.written, h.written]
  interpolation := firstInterpolation?_cons_congr rfl rfl _ _
  blocks := by
    have hsize : byteSize (opening ++ (f.written ++ closing)) =
        byteSize opening + byteSize x + byteSize k + byteSize (y ++ closing) := by
      simp only [h.before, byteSize_append]
      omega
    have hsize' : byteSize (opening ++ (f'.written ++ closing)) =
        byteSize opening + byteSize x + byteSize k' + byteSize (y ++ closing) := by
      simp only [h.written, byteSize_append]
      omega
    rw [blocksAt_closed, blocksAt_closed, hsize, hsize', ownVerdict?_congr h.interpolation,
      byteSize_append opening]
    exact ((h.blocks.shift _).behind _ _).around (byteSize_pos hk) _ _

/-- The attribute is inside an element without a closing tag. -/
theorem hanging (h : f.Respelled supported x k k' y s w w' f') (hk : k ≠ [])
    {opening name : Text} {attributes : List Attribute}
    (hopening : IsLexeme opening (.openTag name 0 attributes)) :
    (Forest.hanging opening name attributes f).Respelled supported (opening ++ x) k k' y
      (s.shift (byteSize opening)) w w' (.hanging opening name attributes f') where
  sound := .hanging hopening h.sound
  unclosed := by rw [Forest.unclosed, h.unclosed, Forest.unclosed]
  startsPlain := rfl
  before := by simp [Forest.written, h.before]
  written := by simp [Forest.written, h.written]
  interpolation := rfl
  blocks := by
    have hsize : byteSize (opening ++ f.written) =
        byteSize opening + byteSize x + byteSize k + byteSize y := by
      simp only [h.before, byteSize_append]
      omega
    have hsize' : byteSize (opening ++ f'.written) =
        byteSize opening + byteSize x + byteSize k' + byteSize y := by
      simp only [h.written, byteSize_append]
      omega
    rw [blocksAt_hanging, blocksAt_hanging, hsize, hsize', ownVerdict?_congr h.interpolation,
      byteSize_append opening]
    exact (h.blocks.shift _).around (byteSize_pos hk) _ _

end Respelled

/-! The element of which the attribute is one. -/

theorem byteSize_cut (x z u : Text) :
    byteSize (x ++ (z ++ u)) = byteSize x + byteSize z + byteSize u := by
  simp only [byteSize_append, Nat.add_assoc]

theorem byteSize_cut_append (x z u t : Text) :
    byteSize (x ++ (z ++ u) ++ t) = byteSize x + byteSize z + byteSize (u ++ t) := by
  simp only [byteSize_append, Nat.add_assoc]

section
variable (hk : k ≠ []) {u name closing : Text} {attributes attributes' : List Attribute}
  {children rest : Forest}
include hk

theorem respelled_leaf {v v' : Node} (hu : IsLexeme (x ++ (k ++ u)) (.node v))
    (hu' : IsLexeme (x ++ (k' ++ u)) (.node v')) (hv : v.kind = .element) (hv' : v'.kind = .element)
    (hrest : rest.Sound) (hw : v.verdict? supported = some w)
    (hw' : v'.verdict? supported = some w') :
    (Forest.leaf (x ++ (k ++ u)) v rest).Respelled supported x k k' (u ++ rest.written) v.span w w'
      (.leaf (x ++ (k' ++ u)) v' rest) where
  sound := .leaf hu' hrest
  unclosed := rfl
  startsPlain := rfl
  before := by simp [Forest.written]
  written := by simp [Forest.written]
  interpolation := by
    refine firstInterpolation?_cons_congr ?_ rfl _ _
    cases v with
    | element =>
      cases v' with
      | element => rfl
      | _ => cases hv'
    | _ => cases hv
  blocks := by
    rw [blocksAt_leaf supported hu.covers.2, blocksAt_leaf supported hu'.covers.2, Node.block?, hw,
      Node.block?, hw', hu.covers.1, hu'.covers.1, byteSize_cut, byteSize_cut]
    exact (Relabelled.own (byteSize_pos hk) _ w w').behind _ _

theorem respelled_closed
    (hopening : IsLexeme (x ++ (k' ++ u)) (.openTag name 0 attributes'))
    (hchildren : children.Sound) (hname : name ∉ children.unclosed)
    (hclosing : IsLexeme closing (.closeTag name ⟨0, byteSize closing⟩)) (hrest : rest.Sound)
    (hw : ownVerdict? supported name attributes children = some w)
    (hw' : ownVerdict? supported name attributes' children = some w') :
    (Forest.closed (x ++ (k ++ u)) name attributes children closing rest).Respelled supported
      x k k' (u ++ (children.written ++ (closing ++ rest.written)))
      ⟨0, byteSize (x ++ (k ++ u) ++ (children.written ++ closing))⟩ w w'
      (.closed (x ++ (k' ++ u)) name attributes' children closing rest) where
  sound := .closed hopening hchildren hname hclosing hrest
  unclosed := rfl
  startsPlain := rfl
  before := by simp [Forest.written]
  written := by simp [Forest.written]
  interpolation := firstInterpolation?_cons_congr rfl rfl _ _
  blocks := by
    rw [blocksAt_closed, blocksAt_closed, hw, hw', byteSize_cut x k u, byteSize_cut x k' u,
      byteSize_cut_append x k, byteSize_cut_append x k', ← List.append_assoc, ← List.append_assoc]
    exact ((Relabelled.own (byteSize_pos hk) _ w w').behind _ _).behind _ _

theorem respelled_hanging
    (hopening : IsLexeme (x ++ (k' ++ u)) (.openTag name 0 attributes'))
    (hchildren : children.Sound)
    (hw : ownVerdict? supported name attributes children = some w)
    (hw' : ownVerdict? supported name attributes' children = some w') :
    (Forest.hanging (x ++ (k ++ u)) name attributes children).Respelled supported x k k'
      (u ++ children.written) ⟨0, byteSize (x ++ (k ++ u) ++ children.written)⟩ w w'
      (.hanging (x ++ (k' ++ u)) name attributes' children) where
  sound := .hanging hopening hchildren
  unclosed := rfl
  startsPlain := rfl
  before := by simp [Forest.written]
  written := by simp [Forest.written]
  interpolation := rfl
  blocks := by
    rw [blocksAt_hanging, blocksAt_hanging, hw, hw', byteSize_cut x k u, byteSize_cut x k' u,
      byteSize_cut_append x k, byteSize_cut_append x k']
    exact (Relabelled.own (byteSize_pos hk) _ w w').behind _ _

end

/-- The attributes of an element stand in the text that the element stands in. -/
theorem attribute_inside {g : Forest} (hg : g.Sound) {n : Nat} {name : Text} {span : Span}
    {attributes : List Attribute} {children : List Node}
    (hv : IsElementOf (.element name span attributes children) (g.nodesAt n)) {a : Attribute}
    (ha : a ∈ attributes) :
    n < a.span.start ∧ a.span.stop < n + byteSize g.written := by
  induction hg generalizing n with
  | nil => cases hv.1
  | plain _ _ _ _ ih =>
    have := ih hv.of_plain
    simp only [Forest.written, byteSize_append]
    omega
  | @leaf u v rest hu _ ih =>
    simp only [Forest.written, byteSize_append]
    rcases hv.of_leaf hu.covers.2 with hv | hv
    · have hlayout := hu.laidOut n
      rw [Token.shift, ← hv] at hlayout
      have := hlayout.attribute_inside rfl ha
      omega
    · have := ih hv
      omega
  | closed hopening _ _ _ _ ih ih_rest =>
    rw [Forest.nodesAt, isElementOf_cons] at hv
    simp only [Forest.written, byteSize_append] at hv ⊢
    rcases hv with ⟨hv, -⟩ | hv | hv
    · injection hv with _ _ hattributes
      have := (hopening.laidOut n).attribute_inside rfl (hattributes ▸ ha)
      omega
    · have := ih hv
      omega
    · have := ih_rest hv
      omega
  | hanging hopening _ ih =>
    rw [Forest.nodesAt, isElementOf_cons] at hv
    simp only [Forest.written, byteSize_append] at hv ⊢
    rcases hv with ⟨hv, -⟩ | hv | hv
    · injection hv with _ _ hattributes
      have := (hopening.laidOut n).attribute_inside rfl (hattributes ▸ ha)
      omega
    · have := ih hv
      omega
    · cases hv.1

end Markup.Forest

/-! The language of a code block. -/

/-- The node is a code block, and its language is written at the given span. -/
def Markup.Node.HasLanguageAt (span : Span) (v : Node) : Prop :=
  ∃ span' attributes children a, v = .element codeBlockTag.toList span' attributes children ∧
    findAttribute? languageAttribute.toList attributes = some a ∧ a.span = span

theorem of_hasLanguageAt {name : Text} {span : Span} {attributes : List Attribute}
    {children : List Node} {n m size : Nat}
    (h : (Node.element name span (attributes.map (.shift n)) children).HasLanguageAt
      ⟨n + m, n + (m + size)⟩) :
    name = codeBlockTag.toList ∧ ∃ a, findAttribute? languageAttribute.toList attributes = some a ∧
      a.span = ⟨m, m + size⟩ := by
  obtain ⟨span', attributes', children', a, hv, ha, hspan⟩ := h
  injection hv with hname _ hattributes _
  rw [← hattributes, findAttribute?_map_shift] at ha
  obtain ⟨b, hb, rfl⟩ := Option.map_eq_some_iff.mp ha
  obtain ⟨hstart, hstop⟩ := Span.mk.inj hspan
  refine ⟨hname, b, hb, ?_⟩
  obtain ⟨key, ⟨start, stop⟩, value⟩ := b
  simp only at hstart hstop
  rw [Nat.add_left_cancel hstart, Nat.add_left_cancel hstop]

/-- A language that is written in a part of a document. -/
theorem exists_descend {g : Forest} (hg : g.Sound) {n : Nat} {v : Node} {u r x k y : Text}
    (hv : IsElementOf v (g.nodesAt (n + byteSize u)))
    (hlanguage : v.HasLanguageAt ⟨n + byteSize x, n + (byteSize x + byteSize k)⟩)
    (hcut : u ++ (g.written ++ r) = x ++ (k ++ y)) (hy : EndsWord y) :
    ∃ x' y', x = u ++ x' ∧ y = y' ++ r ∧ g.written = x' ++ (k ++ y') ∧ EndsWord y' ∧
      v.HasLanguageAt ⟨n + byteSize u + byteSize x', n + byteSize u + (byteSize x' + byteSize k)⟩ :=
    by
  obtain ⟨span, attributes, children, a, rfl, ha, hspan⟩ := hlanguage
  have hinside := Forest.attribute_inside hg hv (List.mem_of_find?_eq_some ha)
  rw [hspan] at hinside
  simp only at hinside
  obtain ⟨x, rfl, hg'⟩ := exists_of_append_eq hcut (by omega)
  rw [byteSize_append] at hinside hspan
  rw [← List.append_assoc] at hg'
  obtain ⟨y', hy', rfl⟩ := exists_of_append_eq hg'.symm (by rw [byteSize_append]; omega)
  have hne : y' ≠ [] := by
    rintro rfl
    rw [hy', List.append_nil, byteSize_append] at hinside
    omega
  refine ⟨x, y', rfl, rfl, by rw [hy', List.append_assoc], hy.of_append hne,
    span, attributes, children, a, rfl, ha, ?_⟩
  rw [hspan]
  simp only [Nat.add_assoc]

/-- `k` asks for one language in double quotes, and `k'` asks for another one in any way. -/
structure IsRespelling (supported : SupportedLanguages) (old new : String) (k k' : Text) :
    Prop where
  old_ne_nil : old.toList ≠ []
  old_chars : ∀ c ∈ old.toList, isValueChar '\x22' c = true
  old_supported : supported.contains old = true
  new_supported : supported.contains new = true
  text : k = quotedAttribute languageAttribute.toList old.toList
  writes : WritesLanguage new k'

section
variable {supported : SupportedLanguages} {old new : String} {k k' : Text}
  (h : IsRespelling supported old new k k')
include h

theorem IsRespelling.ne_nil : k ≠ [] := by
  rw [h.text]
  exact List.append_ne_nil_of_right_ne_nil _ (List.cons_ne_nil _ _)

theorem IsRespelling.exists_lexeme {u r x y : Text} {t : Token} {attributes : List Attribute}
    {a : Attribute} (hu : IsLexeme u t)
    (ht : t.element? = some (codeBlockTag.toList, attributes))
    (ha : findAttribute? languageAttribute.toList attributes = some a)
    (hspan : a.span = ⟨byteSize x, byteSize x + byteSize k⟩) (hcut : u ++ r = x ++ (k ++ y))
    (hy : EndsWord y) :
    ∃ s attributes', u = x ++ (k ++ s) ∧ y = s ++ r ∧
      IsLexeme (x ++ (k' ++ s)) (t.retagged (byteSize (x ++ (k' ++ s))) attributes') ∧
      ∀ code,
        Verdict.of? (.ofAttributes supported attributes) code =
            some (.labelled old code) ∧
          Verdict.of? (.ofAttributes supported attributes') code =
            some (.labelled new code) := by
  obtain ⟨value', hk', hverdict⟩ := h.writes.exists_value h.new_supported
  obtain ⟨hvalue, s, attributes', a', rfl, rfl, hlexeme, ha', hvalue'⟩ :=
    hu.respelled ht (by decide) isPlainKey_languageAttribute h.old_chars h.text hk' ha hspan hcut hy
  refine ⟨s, attributes', rfl, rfl, hlexeme, fun code => ⟨?_, ?_⟩⟩
  · exact of?_named ha h.old_supported h.old_ne_nil hvalue code
  · exact hverdict attributes' a' ha' hvalue' code

end

theorem verdict?_codeBlock (supported : SupportedLanguages) (span : Span)
    (attributes : List Attribute) (children : List Node) :
    (Node.element codeBlockTag.toList span attributes children).verdict? supported =
      Verdict.of? (.ofAttributes supported attributes)
        ((payload? children).filter (!·.isEmpty)) := by
  rw [Node.verdict?, Node.declared, if_pos rfl]
  rfl

/-- Every language in the forest that is written as `k` can be written as `k'`. -/
def Respellable (supported : SupportedLanguages) (old new : String) (k k' : Text) (f : Forest) :
    Prop :=
  ∀ (n : Nat) (v : Node) (x y : Text), IsElementOf v (f.nodesAt n) →
    v.HasLanguageAt ⟨n + byteSize x, n + (byteSize x + byteSize k)⟩ →
    f.written = x ++ (k ++ y) → EndsWord y →
    ∃ f' s code, v.span = s.shift n ∧
      f.Respelled supported x k k' y s (.labelled old code) (.labelled new code) f'

namespace Respellable
variable {supported : SupportedLanguages} {old new : String} {k k' : Text}

/-- The language is written in a part of the forest. -/
theorem descend {g : Forest} (h : Respellable supported old new k k' g) (hg : g.Sound) {n : Nat}
    {v : Node} {u r x y : Text} (hv : IsElementOf v (g.nodesAt (n + byteSize u)))
    (hlanguage : v.HasLanguageAt ⟨n + byteSize x, n + (byteSize x + byteSize k)⟩)
    (hcut : u ++ (g.written ++ r) = x ++ (k ++ y)) (hy : EndsWord y) :
    ∃ x' y' g' s code, x = u ++ x' ∧ y = y' ++ r ∧ v.span = (s.shift (byteSize u)).shift n ∧
      g.Respelled supported x' k k' y' s (.labelled old code) (.labelled new code) g' := by
  obtain ⟨x', y', rfl, rfl, hwritten, hy', hlanguage'⟩ := exists_descend hg hv hlanguage hcut hy
  obtain ⟨g', s, code, hspan, hall⟩ := h _ v x' y' hv hlanguage' hwritten hy'
  exact ⟨x', y', g', s, code, rfl, rfl, by rw [hspan, Span.shift_shift], hall⟩

theorem nil : Respellable supported old new k k' .nil := by
  intro n v x y hv
  cases hv.1

theorem plain {f : Forest} (h : Respellable supported old new k k' f) (hf : f.Sound) {u : Text}
    (hne : u ≠ []) (hu : isPlain u = true) (hstart : f.startsPlain = false) :
    Respellable supported old new k k' (.plain u f) := by
  intro n v x y hv hlanguage hwritten hy
  obtain ⟨x, y, f', s, code, rfl, rfl, hspan, hall⟩ := h.descend (r := []) hf hv.of_plain hlanguage
    (by rw [List.append_nil]; exact hwritten) hy
  rw [List.append_nil]
  exact ⟨_, _, code, hspan, hall.plain hne hu hstart⟩

section
variable (hrespelling : IsRespelling supported old new k k')
include hrespelling

theorem leaf {f : Forest} (h : Respellable supported old new k k' f) (hf : f.Sound) {u : Text}
    {w : Node} (hu : IsLexeme u (.node w)) : Respellable supported old new k k' (.leaf u w f) := by
  intro n v x y hv hlanguage hwritten hy
  rcases hv.of_leaf hu.covers.2 with rfl | hv
  · cases w with
    | element name span attributes children =>
      obtain ⟨rfl, a, ha, hspan⟩ := of_hasLanguageAt hlanguage
      obtain ⟨s, attributes', rfl, rfl, hlexeme, hverdict⟩ :=
        hrespelling.exists_lexeme hu rfl ha hspan hwritten hy
      obtain ⟨hw, hw'⟩ := hverdict ((payload? children).filter (!·.isEmpty))
      rw [← verdict?_codeBlock] at hw hw'
      exact ⟨_, _, _, Node.span_shift n _, Forest.respelled_leaf hrespelling.ne_nil hu hlexeme rfl
        rfl hf hw hw'⟩
    | _ =>
      obtain ⟨_, _, _, _, hv, -⟩ := hlanguage
      cases hv
  · obtain ⟨x, y, f', s, code, rfl, rfl, hspan, hall⟩ := h.descend (r := []) hf hv hlanguage
      (by rw [List.append_nil]; exact hwritten) hy
    rw [List.append_nil]
    exact ⟨_, _, code, hspan, hall.leaf hrespelling.ne_nil hu⟩

theorem closed {f rest : Forest} (h : Respellable supported old new k k' f) (hf : f.Sound)
    (h_rest : Respellable supported old new k k' rest) (hrest : rest.Sound)
    {opening name closing : Text} {attributes : List Attribute}
    (hopening : IsLexeme opening (.openTag name 0 attributes)) (hname : name ∉ f.unclosed)
    (hclosing : IsLexeme closing (.closeTag name ⟨0, byteSize closing⟩)) :
    Respellable supported old new k k' (.closed opening name attributes f closing rest) := by
  intro n v x y hv hlanguage hwritten hy
  rw [Forest.nodesAt, isElementOf_cons] at hv
  rw [Forest.written] at hwritten
  rcases hv with ⟨rfl, -⟩ | hv | hv
  · obtain ⟨rfl, a, ha, hspan⟩ := of_hasLanguageAt hlanguage
    obtain ⟨s, attributes', rfl, rfl, hlexeme, hverdict⟩ :=
      hrespelling.exists_lexeme hopening rfl ha hspan hwritten hy
    obtain ⟨hw, hw'⟩ := hverdict ((payload? (f.nodesAt 0)).filter (!·.isEmpty))
    rw [← verdict?_codeBlock supported ⟨0, 0⟩] at hw hw'
    exact ⟨_, _, _, rfl, Forest.respelled_closed hrespelling.ne_nil hlexeme hf hname hclosing hrest
      hw hw'⟩
  · obtain ⟨x, y, f', s, code, rfl, rfl, hspan, hall⟩ := h.descend hf hv hlanguage hwritten hy
    exact ⟨_, _, code, hspan, hall.closed hrespelling.ne_nil hopening hname hclosing hrest⟩
  · obtain ⟨x, y, f', s, code, rfl, rfl, hspan, hall⟩ := h_rest.descend (r := []) hrest hv hlanguage
      (by rw [List.append_nil]; simpa using hwritten) hy
    rw [List.append_nil]
    exact ⟨_, _, code, hspan, hall.behind hrespelling.ne_nil hopening hf hname hclosing⟩

theorem hanging {f : Forest} (h : Respellable supported old new k k' f) (hf : f.Sound)
    {opening name : Text} {attributes : List Attribute}
    (hopening : IsLexeme opening (.openTag name 0 attributes)) :
    Respellable supported old new k k' (.hanging opening name attributes f) := by
  intro n v x y hv hlanguage hwritten hy
  rw [Forest.nodesAt, isElementOf_cons] at hv
  rw [Forest.written] at hwritten
  rcases hv with ⟨rfl, -⟩ | hv | hv
  · obtain ⟨rfl, a, ha, hspan⟩ := of_hasLanguageAt hlanguage
    obtain ⟨s, attributes', rfl, rfl, hlexeme, hverdict⟩ :=
      hrespelling.exists_lexeme hopening rfl ha hspan hwritten hy
    obtain ⟨hw, hw'⟩ := hverdict ((payload? (f.nodesAt 0)).filter (!·.isEmpty))
    rw [← verdict?_codeBlock supported ⟨0, 0⟩] at hw hw'
    exact ⟨_, _, _, rfl, Forest.respelled_hanging hrespelling.ne_nil hlexeme hf hw hw'⟩
  · obtain ⟨x, y, f', s, code, rfl, rfl, hspan, hall⟩ := h.descend (r := []) hf hv hlanguage
      (by rw [List.append_nil]; exact hwritten) hy
    rw [List.append_nil]
    exact ⟨_, _, code, hspan, hall.hanging hrespelling.ne_nil hopening⟩
  · cases hv.1

end

end Respellable

/-- In every document the language of a code block can be written in another way. -/
theorem IsRespelling.respellable {supported : SupportedLanguages} {old new : String}
    {k k' : Text} (h : IsRespelling supported old new k k') {f : Forest} (hf : f.Sound) :
    Respellable supported old new k k' f := by
  induction hf with
  | nil => exact .nil
  | plain hne hu hstart hrest ih => exact ih.plain hrest hne hu hstart
  | leaf hu hrest ih => exact ih.leaf h hrest hu
  | closed hopening hchildren hname hclosing hrest ih ih_rest =>
    exact ih.closed h hchildren ih_rest hrest hopening hname hclosing
  | hanging hopening hchildren ih => exact ih.hanging h hchildren hopening

end MarkupHighlight
