import MarkupHighlight.Proofs.Block.Placement
import MarkupHighlight.Proofs.Block.Wrapped

/-!
Replacing blocks in a forest. The forest with its blocks replaced is written as the text with the
blocks' spans overwritten, it is again sound, and the blocks left in it are blocks that were not
to be replaced.
-/
namespace MarkupHighlight
open Markup

/-- The edits that replace each block of which the verdict has highlighted code. -/
def replacements (html? : Verdict → Option Text) (bs : List Block) : List Edit :=
  bs.filterMap fun b => (html? b.verdict).map fun html => ⟨b.span, wrap html⟩

variable (supported : SupportedLanguages) (html? : Verdict → Option Text)

theorem replacements_append (bs cs : List Block) :
    replacements html? (bs ++ cs) = replacements html? bs ++ replacements html? cs :=
  List.filterMap_append ..

theorem replacements_shift (n : Nat) (bs : List Block) :
    replacements html? (bs.map (.shift n)) = (replacements html? bs).map (.shift n) := by
  simp only [replacements, List.filterMap_map, List.map_filterMap, Option.map_map]
  rfl

theorem replacements_own (verdict? : Option Verdict) (span : Span) :
    replacements html? (verdict?.map (⟨span, ·⟩)).toList =
      ((verdict?.bind html?).map fun html => ⟨span, wrap html⟩).toList := by
  cases verdict? with
  | none => rfl
  | some verdict => cases h : html? verdict <;> simp [replacements, h]

/-- Replaces every element whose verdict has highlighted code. -/
def Markup.Forest.rewrite : Forest → Forest
  | .nil => .nil
  | .plain s rest => .plain s rest.rewrite
  | .leaf s v rest => .leaf s v rest.rewrite
  | .closed opening name attributes children closing rest =>
      match (ownVerdict? supported name attributes children).bind html? with
      | some html => wrappedForest html rest.rewrite
      | none => .closed opening name attributes children.rewrite closing rest.rewrite
  | .hanging opening name attributes children =>
      match (ownVerdict? supported name attributes children).bind html? with
      | some html => wrappedForest html .nil
      | none => .hanging opening name attributes children.rewrite

/-! The rewritten forest is sound. -/

theorem unclosed_rewrite (f : Forest) :
    (f.rewrite supported html?).unclosed ⊆ f.unclosed := by
  induction f with
  | nil => exact List.Subset.refl _
  | plain s rest ih => exact ih
  | leaf s v rest ih => exact ih
  | closed opening name attributes children closing rest _ ih =>
    unfold Forest.rewrite
    split <;> exact ih
  | hanging opening name attributes children ih =>
    unfold Forest.rewrite
    split
    next => exact List.nil_subset _
    next => exact List.cons_subset_cons _ ih

theorem startsPlain_rewrite (f : Forest) :
    (f.rewrite supported html?).startsPlain = f.startsPlain := by
  cases f with
  | closed | hanging =>
    unfold Forest.rewrite
    split <;> rfl
  | _ => rfl

theorem sound_rewrite {f : Forest} (hf : f.Sound) : (f.rewrite supported html?).Sound := by
  induction hf with
  | nil => exact .nil
  | plain hne hs hrest _ ih =>
    exact .plain hne hs ((startsPlain_rewrite supported html? _).trans hrest) ih
  | leaf hs _ ih => exact .leaf hs ih
  | closed hopening _ hname hclosing _ ih ih_rest =>
    unfold Forest.rewrite
    split
    next html _ => exact sound_wrappedForest html ih_rest
    next =>
      exact .closed hopening ih (fun h => hname (unclosed_rewrite supported html? _ h)) hclosing
        ih_rest
  | hanging hopening _ ih =>
    unfold Forest.rewrite
    split
    next html _ => exact sound_wrappedForest html .nil
    next => exact .hanging hopening ih

theorem complete_rewrite {f : Forest} (hf : f.Complete) :
    (f.rewrite supported html?).Complete where
  sound := sound_rewrite supported html? hf.sound
  unclosed := by
    have h := unclosed_rewrite supported html? f
    rw [hf.unclosed] at h
    exact List.subset_nil.mp h

theorem written_rewrite_ne_nil {f : Forest} (hf : f.Sound) (h : f.written ≠ []) :
    (f.rewrite supported html?).written ≠ [] := by
  cases hf with
  | nil => exact h
  | plain hne => simp [Forest.rewrite, Forest.written, hne]
  | leaf hs => simp [Forest.rewrite, Forest.written, hs.ne_nil]
  | closed hopening | hanging hopening =>
    unfold Forest.rewrite
    split
    next html _ => simp [written_wrappedForest, wrap_ne_nil html]
    next => simp [Forest.written, hopening.ne_nil]

/-! How the rewritten forest is written. -/

theorem disjoint_of_shift {n : Nat} {es : List Edit}
    (h : (es.map (Edit.shift n)).Pairwise fun a b => a.span.stop ≤ b.span.start) :
    es.Pairwise fun a b => a.span.stop ≤ b.span.start :=
  (List.pairwise_map.mp h).imp fun hab => Nat.le_of_add_le_add_left hab

theorem code?_leaf {v : Node} (hv : v.IsLeaf) : v.code? = none := by
  have hfirst : firstInterpolation? v.children = none := by
    rw [firstInterpolation?, List.findSome?_eq_none_iff]
    intro w hw
    have hkind := hv w hw
    cases w with
    | text => rfl
    | _ => cases hkind
  rw [Node.code?, payload?, hfirst]
  rfl

/-- A leaf holds no code, so it is never replaced. -/
theorem verdict?_leaf {v : Node} (hv : v.IsLeaf) {verdict : Verdict}
    (h : v.verdict? supported = some verdict) : verdict = .noCode := by
  rw [Node.verdict?, code?_leaf hv] at h
  cases hdeclared : v.declared supported <;> rw [hdeclared] at h <;> cases h <;> rfl

theorem isCut_replacements {f : Forest} (hf : f.Sound) :
    ∀ e ∈ replacements html? (f.blocksAt supported 0), IsCut f.written e.span := by
  intro e he
  obtain ⟨b, hb, he⟩ := List.mem_filterMap.mp he
  obtain ⟨html, -, rfl⟩ := Option.map_eq_some_iff.mp he
  exact isCut_of_mem_blocksAt supported hf b hb

/-- Nothing is replaced inside a replaced element, whose edit reaches from byte 0 to `stop`. -/
theorem replacements_inside {children : Forest} (hchildren : children.Sound) (n stop : Nat)
    (hstop : n + byteSize children.written ≤ stop)
    (h : ∀ e ∈ (replacements html? (children.blocksAt supported 0)).map (Edit.shift n),
      stop ≤ e.span.start) :
    replacements html? (children.blocksAt supported 0) = [] := by
  rw [List.eq_nil_iff_forall_not_mem]
  intro e he
  have hcut := isCut_replacements supported html? hchildren e he
  have hlt := hcut.start_lt_stop
  have hle := hcut.stop_le
  have hge := h _ (List.mem_map_of_mem he)
  simp only [Edit.shift, Span.shift] at hge
  omega

section
variable {html?} (hnone : html? .noCode = none)
include hnone

theorem replacements_leaf {v : Node} (hv : v.IsLeaf) :
    replacements html? (v.block? supported).toList = [] := by
  cases hverdict : v.verdict? supported with
  | none => simp [Node.block?, hverdict, replacements]
  | some verdict =>
    obtain rfl := verdict?_leaf supported hv hverdict
    simp [Node.block?, hverdict, replacements, hnone]

theorem overwrites_rewrite {f : Forest} (hf : f.Sound)
    (hdisjoint : (replacements html? (f.blocksAt supported 0)).Pairwise
      fun a b => a.span.stop ≤ b.span.start) :
    Overwrites 0 f.written (replacements html? (f.blocksAt supported 0))
      (f.rewrite supported html?).written := by
  induction hf with
  | nil => exact .done 0 []
  | @plain s rest _ _ _ _ ih =>
    rw [Forest.blocksAt_plain, replacements_shift] at hdisjoint ⊢
    exact (ih (disjoint_of_shift hdisjoint)).behind s
  | @leaf s v rest hs _ ih =>
    rw [Forest.blocksAt_leaf supported hs.covers.2, replacements_append,
      replacements_leaf supported hnone hs.covers.2, List.nil_append, replacements_shift]
      at hdisjoint ⊢
    exact (ih (disjoint_of_shift hdisjoint)).behind s
  | @closed opening name closing attributes children rest hopening hchildren _ _ _ ih ih_rest =>
    rw [Forest.blocksAt_closed, replacements_append, replacements_own, replacements_append,
      replacements_shift, replacements_shift] at hdisjoint ⊢
    obtain ⟨-, hinner, houter⟩ := List.pairwise_append.mp hdisjoint
    obtain ⟨hdisjoint_children, hdisjoint_rest, -⟩ := List.pairwise_append.mp hinner
    have hrest := ih_rest (disjoint_of_shift hdisjoint_rest)
    unfold Forest.rewrite
    split
    next html hhtml =>
      rw [hhtml] at houter ⊢
      have hnil := replacements_inside supported html? hchildren (byteSize opening)
        (byteSize (opening ++ (children.written ++ closing)))
        (by simp only [byteSize_append]; omega)
        fun e he => houter _ (List.mem_singleton_self _) e (List.mem_append_left _ he)
      have hall := hrest.replace (opening ++ (children.written ++ closing)) (wrap html)
      rw [hnil, written_wrappedForest]
      simpa [Forest.written] using hall
    next hhtml =>
      have hchildren := (ih (disjoint_of_shift hdisjoint_children)).behind opening
      have hall := (hchildren.concat (.done 0 closing)).concat hrest
      rw [hhtml]
      simpa [Forest.written] using hall
  | @hanging opening name attributes children hopening hchildren ih =>
    rw [Forest.blocksAt_hanging, replacements_append, replacements_own, replacements_shift]
      at hdisjoint ⊢
    obtain ⟨-, hinner, houter⟩ := List.pairwise_append.mp hdisjoint
    unfold Forest.rewrite
    split
    next html hhtml =>
      rw [hhtml] at houter ⊢
      have hnil := replacements_inside supported html? hchildren (byteSize opening)
        (byteSize (opening ++ children.written))
        (by simp only [byteSize_append]; omega) (houter _ (List.mem_singleton_self _))
      have hall := (Overwrites.done 0 []).replace (opening ++ children.written) (wrap html)
      rw [hnil, written_wrappedForest]
      simpa [Forest.written] using hall
    next hhtml =>
      have hall := (ih (disjoint_of_shift hinner)).behind opening
      rw [hhtml]
      simpa [Forest.written] using hall

end

/-! What is left to replace in a rewritten forest. -/

theorem firstInterpolation?_cons (v : Node) (vs : List Node) :
    firstInterpolation? (v :: vs) =
      (firstInterpolation? [v]).or (firstInterpolation? vs) := by
  simp only [firstInterpolation?, List.findSome?_cons, List.findSome?_nil]
  cases v <;> rfl

/-- Replacing elements among some siblings does not change which interpolation is the first. -/
theorem firstInterpolation?_rewrite (f : Forest) (m n : Nat) :
    firstInterpolation? ((f.rewrite supported html?).nodesAt m) =
      firstInterpolation? (f.nodesAt n) := by
  induction f generalizing m n with
  | nil => rfl
  | plain s rest ih =>
    rw [Forest.rewrite, Forest.nodesAt, Forest.nodesAt, firstInterpolation?_cons,
      firstInterpolation?_cons (.text _), ih _ (n + byteSize s)]
    rfl
  | leaf s v rest ih =>
    have hv (k : Nat) : firstInterpolation? [v.shift k] = firstInterpolation? [v] :=
      firstInterpolation?_shiftAll k [v]
    rw [Forest.rewrite, Forest.nodesAt, Forest.nodesAt, firstInterpolation?_cons,
      firstInterpolation?_cons (v.shift n), ih _ (n + byteSize s), hv, hv]
  | closed opening name attributes children closing rest _ ih =>
    unfold Forest.rewrite
    split
    all_goals
      simp only [wrappedForest, Forest.nodesAt]
      rw [firstInterpolation?_cons, firstInterpolation?_cons (.element name _ _ _)]
      exact congrArg _ (ih _ _)
  | hanging opening name attributes children ih =>
    unfold Forest.rewrite
    split <;> rfl

theorem ownVerdict?_rewrite (name : Text) (attributes : List Attribute) (children : Forest) :
    ownVerdict? supported name attributes (children.rewrite supported html?) =
      ownVerdict? supported name attributes children := by
  simp only [ownVerdict?, Node.verdict?, Node.declared, Node.code?, Node.children, payload?,
    firstInterpolation?_rewrite supported html? children 0 0]

theorem ownVerdict?_of_ne {name : Text} (hname : name ≠ codeBlockTag.toList)
    (attributes : List Attribute) (children : Forest) :
    ownVerdict? supported name attributes children = none := by
  rw [ownVerdict?, Node.verdict?, Node.declared, if_neg hname]
  rfl

theorem ownVerdict?_nil (name : Text) (children : Forest) :
    ownVerdict? supported name [] children = none := by
  rw [ownVerdict?, Node.verdict?, Node.declared]
  split <;> rfl

/-- The verdicts on the blocks of a forest, in order. -/
def Markup.Forest.verdicts (f : Forest) : List Verdict :=
  (f.blocksAt supported 0).map (·.verdict)

theorem map_verdict_shift (n : Nat) (bs : List Block) :
    (bs.map (Block.shift n)).map (·.verdict) = bs.map (·.verdict) := by
  rw [List.map_map]
  rfl

theorem map_verdict_own (verdict? : Option Verdict) (span : Span) :
    (verdict?.map (Block.mk span)).toList.map (·.verdict) = verdict?.toList := by
  cases verdict? <;> rfl

theorem verdicts_plain (s : Text) (rest : Forest) :
    (Forest.plain s rest).verdicts supported = rest.verdicts supported := by
  rw [Forest.verdicts, Forest.blocksAt_plain, map_verdict_shift]
  rfl

theorem verdicts_leaf {s : Text} {v : Node} (hv : v.IsLeaf) (rest : Forest) :
    (Forest.leaf s v rest).verdicts supported =
      (v.verdict? supported).toList ++ rest.verdicts supported := by
  rw [Forest.verdicts, Forest.blocksAt_leaf supported hv, List.map_append, map_verdict_shift,
    Node.block?, map_verdict_own]
  rfl

theorem verdicts_closed (opening name : Text) (attributes : List Attribute) (children : Forest)
    (closing : Text) (rest : Forest) :
    (Forest.closed opening name attributes children closing rest).verdicts supported =
      (ownVerdict? supported name attributes children).toList ++
        (children.verdicts supported ++ rest.verdicts supported) := by
  rw [Forest.verdicts, Forest.blocksAt_closed, List.map_append, List.map_append,
    map_verdict_shift, map_verdict_shift, map_verdict_own]
  rfl

theorem verdicts_hanging (opening name : Text) (attributes : List Attribute)
    (children : Forest) :
    (Forest.hanging opening name attributes children).verdicts supported =
      (ownVerdict? supported name attributes children).toList ++ children.verdicts supported := by
  rw [Forest.verdicts, Forest.blocksAt_hanging, List.map_append, map_verdict_shift,
    map_verdict_own]
  rfl

/-- Wrapped markup is no block and holds none. -/
theorem verdicts_wrappedForest (html : Text) (rest : Forest) :
    (wrappedForest html rest).verdicts supported = rest.verdicts supported := by
  have htag (span : Span) (inner : Text) : (bracedNode span inner).verdict? supported = none := by
    unfold bracedNode
    split
    next => rfl
    next => split <;> rfl
  unfold wrappedForest
  rw [verdicts_closed, ownVerdict?_nil, verdicts_closed, ownVerdict?_of_ne supported (by decide),
    verdicts_leaf supported (bracedNode_covers _ _).2, htag]
  rfl

/-- The verdicts that have no highlighted code. -/
def refusals (html? : Verdict → Option Text) (verdicts : List Verdict) : List Verdict :=
  verdicts.filter fun x => (html? x).isNone

theorem mem_refusals {html? : Verdict → Option Text} {verdicts : List Verdict} {x : Verdict} :
    x ∈ refusals html? verdicts ↔ x ∈ verdicts ∧ html? x = none := by
  simp [refusals]

theorem refusals_append (html? : Verdict → Option Text) (xs ys : List Verdict) :
    refusals html? (xs ++ ys) = refusals html? xs ++ refusals html? ys :=
  List.filter_append ..

theorem refusals_own {html? : Verdict → Option Text} {verdict? : Option Verdict}
    (h : verdict?.bind html? = none) : refusals html? verdict?.toList = verdict?.toList := by
  cases verdict? with
  | none => rfl
  | some verdict =>
    have hverdict : html? verdict = none := h
    simp [refusals, hverdict]

/-- The blocks left in a rewritten forest are blocks that were there before and are not replaced. -/
theorem verdicts_rewrite_sublist {html? : Verdict → Option Text} (hnone : html? .noCode = none)
    {f : Forest} (hf : f.Sound) :
    ((f.rewrite supported html?).verdicts supported).Sublist
      (refusals html? (f.verdicts supported)) := by
  induction hf with
  | nil => exact List.Sublist.refl _
  | plain _ _ _ _ ih =>
    rw [Forest.rewrite, verdicts_plain, verdicts_plain]
    exact ih
  | @leaf s v rest hs _ ih =>
    have hleaf : (v.verdict? supported).bind html? = none := by
      rw [Option.bind_eq_none_iff]
      intro verdict hverdict
      rw [verdict?_leaf supported hs.covers.2 hverdict, hnone]
    rw [Forest.rewrite, verdicts_leaf supported hs.covers.2, verdicts_leaf supported hs.covers.2,
      refusals_append, refusals_own hleaf]
    exact (List.Sublist.refl _).append ih
  | closed _ _ _ _ _ ih ih_rest =>
    rw [verdicts_closed, refusals_append, refusals_append]
    unfold Forest.rewrite
    split
    next =>
      rw [verdicts_wrappedForest]
      exact (ih_rest.trans (List.sublist_append_right ..)).trans (List.sublist_append_right ..)
    next hhtml =>
      rw [verdicts_closed, ownVerdict?_rewrite, refusals_own hhtml]
      exact (List.Sublist.refl _).append (ih.append ih_rest)
  | hanging _ _ ih =>
    rw [verdicts_hanging, refusals_append]
    unfold Forest.rewrite
    split
    next =>
      rw [verdicts_wrappedForest]
      exact List.nil_sublist _
    next hhtml =>
      rw [verdicts_hanging, ownVerdict?_rewrite, refusals_own hhtml]
      exact (List.Sublist.refl _).append ih

end MarkupHighlight
