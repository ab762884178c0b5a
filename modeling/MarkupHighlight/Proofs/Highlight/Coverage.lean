import MarkupHighlight.Proofs.Highlight.Answers
import MarkupHighlight.Proofs.Highlight.Marked

/-!
Coloured code is the code and nothing else. `renderNode_covers` follows the colouring down a tree
whose spans tile their parents, gaps between them included, and over to the trees of embedded
code; `exists_render_marked` is the result for a whole text.
-/
namespace MarkupHighlight
open Syntax

/-! Every scope is a class name. -/

namespace Scope

theorem all_ite {p : String → Bool} {c : Prop} [Decidable c] {a b : Option String}
    (ha : a.all p = true) (hb : b.all p = true) : (if c then a else b).all p = true := by
  split
  · exact ha
  · exact hb

theorem isClassName_htmlScope (kind parentKind : String) :
    (htmlScope kind parentKind).all isClassName = true := by
  unfold htmlScope
  repeat' apply all_ite
  all_goals decide

theorem isClassName_cssScope (kind parentKind : String) :
    (cssScope kind parentKind).all isClassName = true := by
  unfold cssScope
  repeat' apply all_ite
  all_goals decide

theorem isClassName_codeScope (node : NodeInfo) (parentKind : String) :
    (codeScope node parentKind).all isClassName = true := by
  unfold codeScope
  repeat' apply all_ite
  all_goals decide

theorem isClassName_ofNamed (g : Grammar) (node : NodeInfo) (parentKind : String) :
    (ofNamed g node parentKind).all isClassName = true :=
  all_ite (by decide) <| all_ite (isClassName_htmlScope _ _) <|
    all_ite (isClassName_cssScope _ _) (isClassName_codeScope _ _)

theorem isClassName_ofNode (g : Grammar) (node : NodeInfo) (ancestors : List NodeInfo) :
    (ofNode g node ancestors).all isClassName = true := by
  refine all_ite (isClassName_ofNamed _ _ _) ?_
  repeat' apply all_ite
  all_goals decide

end Scope

/-! Slices of adjacent ranges. -/

theorem sliceBytes_byteSize (s : Text) : sliceBytes s 0 (byteSize s) = s := by
  simpa using sliceBytes_part [] s []

theorem sliceBytes_append {s : Text} {i j k : Nat} (hi : isBoundary s i = true)
    (hj : isBoundary s j = true) (hk : isBoundary s k = true) (hij : i ≤ j) (hjk : j ≤ k) :
    sliceBytes s i j ++ sliceBytes s j k = sliceBytes s i k := by
  obtain ⟨c, w, rfl, rfl⟩ := isBoundary_iff.mp hk
  obtain ⟨b, v, hb, rfl⟩ := isBoundary_iff.mp hj
  obtain ⟨n, rfl, rfl⟩ := exists_of_append_eq hb.symm hjk
  obtain ⟨a, u, ha, rfl⟩ := isBoundary_iff.mp hi
  obtain ⟨m, rfl, rfl⟩ := exists_of_append_eq (ha.symm.trans hb) hij
  have hfirst := sliceBytes_part a m (n ++ w)
  have hsecond := sliceBytes_part (a ++ m) n w
  have hboth := sliceBytes_part a (m ++ n) w
  simp only [List.append_assoc] at hfirst hsecond hboth ⊢
  rw [hfirst, hsecond, hboth]

/-! Trees whose spans lie in order. -/

namespace Syntax

mutual

/-- The spans of a tree start and stop at characters of the source. Those of the children of a node
lie inside its own, in order and without an overlap; there may be gaps, and spans of no width. -/
def Tree.Tiled (source : Text) : Tree → Prop
  | .node info children =>
      isBoundary source info.span.start = true ∧ isBoundary source info.span.stop = true ∧
        TiledFrom source info.span.stop info.span.start children

/-- Siblings behind byte `start`, and up to byte `stop`. -/
def TiledFrom (source : Text) (stop start : Nat) : List Tree → Prop
  | [] => start ≤ stop
  | t :: ts => start ≤ t.span.start ∧ t.Tiled source ∧ TiledFrom source stop t.span.stop ts

end

mutual

/-- The parts of a text that are coloured by a tree of their own, each with its grammar. -/
def Tree.embeddedParts (g : Grammar) (source : Text) (parent? : Option Tree) :
    Tree → List (Grammar × Text)
  | .node info children =>
      match embeddedGrammar? g source info parent? with
      | some inner => [(inner, sliceBytes source info.span.start info.span.stop)]
      | none => embeddedAmong g source (some (.node info children)) children

def embeddedAmong (g : Grammar) (source : Text) (parent? : Option Tree) :
    List Tree → List (Grammar × Text)
  | [] => []
  | t :: ts => t.embeddedParts g source parent? ++ embeddedAmong g source parent? ts

end

mutual

theorem Tree.Tiled.le {source : Text} : {t : Tree} → t.Tiled source → t.span.start ≤ t.span.stop
  | .node _ _, h => TiledFrom.le h.2.2

theorem TiledFrom.le {source : Text} {stop start : Nat} :
    {ts : List Tree} → TiledFrom source stop start ts → start ≤ stop
  | [], h => h
  | _ :: _, h => Nat.le_trans h.1 (Nat.le_trans h.2.1.le h.2.2.le)

end

theorem Tree.Tiled.isBoundary {source : Text} {t : Tree} (h : t.Tiled source) :
    isBoundary source t.span.start = true ∧ isBoundary source t.span.stop = true := by
  cases t with
  | node info children => exact ⟨h.1, h.2.1⟩

end Syntax

/-- A rendering that shows a text, in spans of which each has a class. -/
structure Rendering.Covers (r : Rendering) (code : Text) : Prop where
  plain : plainAll r.html = code
  classed : ClassedAll r.html

theorem covers_rangeText (source : Text) (start stop scopes errors : Nat) :
    (Rendering.mk (rangeText source start stop) scopes errors).Covers
      (sliceBytes source start stop) := by
  unfold rangeText
  split
  next => exact ⟨by simp [plainAll, Html.plain], by simp [ClassedAll, Html.Classed]⟩
  next h =>
    have hempty : stop - start = 0 := by omega
    exact ⟨by simp [plainAll, sliceBytes, hempty, takeBytes_zero], trivial⟩

theorem Rendering.Covers.append {r r' : Rendering} {s s' : Text} (h : r.Covers s)
    (h' : r'.Covers s') (scopes errors : Nat) :
    (Rendering.mk (r.html ++ r'.html) scopes errors).Covers (s ++ s') :=
  ⟨by rw [plainAll_append, h.plain, h'.plain], classedAll_append.mpr ⟨h.classed, h'.classed⟩⟩

theorem Rendering.Covers.span {r : Rendering} {s : Text} (h : r.Covers s) {scope : String}
    (hscope : isClassName scope = true) (scopes errors : Nat) :
    (Rendering.mk [.span scope r.html] scopes errors).Covers s :=
  ⟨by simp [plainAll, Html.plain, h.plain], ⟨hscope, h.classed⟩, trivial⟩

section
variable {embedded : EmbeddedRenderer} {g : Grammar} {source : Text}

/-- The colouring of each embedded part succeeds, and shows that part. -/
def CoversParts (embedded : EmbeddedRenderer) (parts : List (Grammar × Text)) : Prop :=
  ∀ part ∈ parts, ∃ r, embedded part.1 part.2 = .ok r ∧ r.Covers part.2

mutual

theorem renderNode_covers (ancestors : List Tree) : (t : Tree) → t.Tiled source →
    CoversParts embedded (t.embeddedParts g source ancestors.head?) →
    ∃ r, renderNode embedded g source ancestors t = .ok r ∧
      r.Covers (sliceBytes source t.span.start t.span.stop)
  | .node info children, htiled, hparts => by
      unfold renderNode
      unfold Tree.embeddedParts at hparts
      split
      next inner hinner =>
        rw [hinner] at hparts
        exact hparts _ (List.mem_singleton.mpr rfl)
      next hinner =>
        rw [hinner] at hparts
        obtain ⟨body, hbody, hcovers⟩ := renderChildren_covers (.node info children :: ancestors)
          children htiled.1 htiled.2.1 htiled.2.2 hparts
        simp only [hbody, bind, Except.bind]
        have hscope := Scope.isClassName_ofNode g info (ancestors.map Tree.info)
        split
        next scope hsome =>
          rw [hsome] at hscope
          exact ⟨_, rfl, hcovers.span hscope _ _⟩
        next => exact ⟨body, rfl, hcovers⟩

theorem renderChildren_covers (ancestors : List Tree) {stop start : Nat} : (ts : List Tree) →
    isBoundary source start = true → isBoundary source stop = true →
    TiledFrom source stop start ts →
    CoversParts embedded (embeddedAmong g source ancestors.head? ts) →
    ∃ r, renderChildren embedded g source ancestors stop start ts = .ok r ∧
      r.Covers (sliceBytes source start stop)
  | [], _, _, _, _ => ⟨_, rfl, covers_rangeText source start stop 0 0⟩
  | t :: ts, hstart, hstop, ⟨hle, ht, hts⟩, hparts => by
      have hgap := covers_rangeText source start t.span.start 0 0
      obtain ⟨first, hfirst, hcovers⟩ := renderNode_covers ancestors t ht
        fun part h => hparts part (List.mem_append_left _ h)
      obtain ⟨rest, hrest, hrestCovers⟩ := renderChildren_covers ancestors ts ht.isBoundary.2
        hstop hts fun part h => hparts part (List.mem_append_right _ h)
      have hstartStop : start ≤ t.span.stop := Nat.le_trans hle ht.le
      have hmax : max start t.span.stop = t.span.stop := Nat.max_eq_right hstartStop
      simp only [renderChildren, hmax, hfirst, hrest, bind, Except.bind]
      refine ⟨_, rfl, ?_⟩
      have hall := (hgap.append hcovers 0 0).append hrestCovers (first.scopes + rest.scopes)
        (first.errors + rest.errors)
      rwa [sliceBytes_append hstart ht.isBoundary.1 ht.isBoundary.2 hle ht.le,
        sliceBytes_append hstart ht.isBoundary.2 hstop hstartStop hts.le] at hall

end

theorem renderTree_covers {t : Tree} (htiled : t.Tiled source)
    (hparts : CoversParts embedded (t.embeddedParts g source none)) :
    ∃ r, renderTree embedded g source t = .ok r ∧ r.Covers source := by
  obtain ⟨body, hbody, hcovers⟩ := renderNode_covers [] t htiled hparts
  obtain ⟨hstart, hstop⟩ := htiled.isBoundary
  have hbefore := covers_rangeText source 0 t.span.start 0 0
  have hbehind := covers_rangeText source t.span.stop (byteSize source) 0 0
  simp only [renderTree, hbody, bind, Except.bind]
  refine ⟨_, rfl, ?_⟩
  have hall := (hbefore.append hcovers 0 0).append hbehind body.scopes
    (body.errors + t.problems.length)
  have hlead := sliceBytes_append (isBoundary_zero source) hstart hstop (Nat.zero_le _) htiled.le
  have hwhole := sliceBytes_append (isBoundary_zero source) hstop (isBoundary_byteSize source)
    (Nat.zero_le _) (le_byteSize_of_isBoundary hstop)
  rwa [hlead, hwhole, sliceBytes_byteSize] at hall

end

/-! Embedded code has no code embedded in it. -/

theorem embeddedGrammar?_eq_none {g : Grammar} (h : g ≠ .html) (source : Text) (node : NodeInfo)
    (parent? : Option Tree) : embeddedGrammar? g source node parent? = none :=
  if_pos (.inl h)

theorem embeddedGrammar?_ne_html {g inner : Grammar} {source : Text} {node : NodeInfo}
    {parent? : Option Tree} (h : embeddedGrammar? g source node parent? = some inner) :
    inner ≠ .html := by
  unfold embeddedGrammar? at h
  rintro rfl
  repeat' split at h
  all_goals cases h

mutual

theorem Syntax.Tree.embeddedParts_eq_nil {g : Grammar} (h : g ≠ .html) (source : Text)
    (parent? : Option Tree) : (t : Tree) → t.embeddedParts g source parent? = []
  | .node info children => by
      rw [Tree.embeddedParts, embeddedGrammar?_eq_none h]
      exact embeddedAmong_eq_nil h source _ children

theorem Syntax.embeddedAmong_eq_nil {g : Grammar} (h : g ≠ .html) (source : Text)
    (parent? : Option Tree) : (ts : List Tree) → embeddedAmong g source parent? ts = []
  | [] => rfl
  | t :: ts => by
      rw [embeddedAmong, t.embeddedParts_eq_nil h, embeddedAmong_eq_nil h, List.append_nil]

end

mutual

theorem Syntax.Tree.ne_html_of_mem_embeddedParts {g : Grammar} {source : Text}
    {part : Grammar × Text} : {parent? : Option Tree} → (t : Tree) →
    part ∈ t.embeddedParts g source parent? → part.1 ≠ .html
  | parent?, .node info children, h => by
      unfold Tree.embeddedParts at h
      split at h
      next inner hinner =>
        rw [List.mem_singleton.mp h]
        exact embeddedGrammar?_ne_html hinner
      next => exact ne_html_of_mem_embeddedAmong children h

theorem Syntax.ne_html_of_mem_embeddedAmong {g : Grammar} {source : Text}
    {part : Grammar × Text} : {parent? : Option Tree} → (ts : List Tree) →
    part ∈ embeddedAmong g source parent? ts → part.1 ≠ .html
  | _, t :: ts, h => by
      rcases List.mem_append.mp h with h | h
      · exact t.ne_html_of_mem_embeddedParts h
      · exact ne_html_of_mem_embeddedAmong ts h

end

/-! The spans are counted as they are written. -/

/-- The counter gives the number of spans. -/
def Rendering.Counted (r : Rendering) : Prop := r.scopes = spansAmong r.html

theorem spansAmong_rangeText (source : Text) (start stop : Nat) :
    spansAmong (rangeText source start stop) = 0 := by
  unfold rangeText
  split <;> rfl

section
variable {embedded : EmbeddedRenderer} {g : Grammar} {source : Text}

mutual

theorem renderNode_counted (hembedded : ∀ inner code r, embedded inner code = .ok r → r.Counted)
    (ancestors : List Tree) : (t : Tree) → {r : Rendering} →
    renderNode embedded g source ancestors t = .ok r → r.Counted
  | .node info children, r, h => by
      unfold renderNode at h
      split at h
      next => exact hembedded _ _ r h
      next =>
        obtain ⟨body, hbody, h⟩ := bind_eq_ok_iff.mp h
        have hcounted := renderChildren_counted hembedded _ _ _ children hbody
        split at h
        next =>
          obtain rfl := Except.ok.inj h
          exact congrArg (· + 1) hcounted
        next =>
          obtain rfl := Except.ok.inj h
          exact hcounted

theorem renderChildren_counted
    (hembedded : ∀ inner code r, embedded inner code = .ok r → r.Counted) (ancestors : List Tree)
    (stop start : Nat) : (ts : List Tree) → {r : Rendering} →
    renderChildren embedded g source ancestors stop start ts = .ok r → r.Counted
  | [], r, h => by
      obtain rfl := Except.ok.inj h
      exact (spansAmong_rangeText source start stop).symm
  | t :: ts, r, h => by
      obtain ⟨first, hfirst, h⟩ := bind_eq_ok_iff.mp h
      obtain ⟨rest, hrest, h⟩ := bind_eq_ok_iff.mp h
      obtain rfl := Except.ok.inj h
      have hfirst := renderNode_counted hembedded ancestors t hfirst
      have hrest := renderChildren_counted hembedded ancestors _ _ ts hrest
      simp only [Rendering.Counted, spansAmong_append, spansAmong_rangeText] at hfirst hrest ⊢
      omega

end

theorem renderTree_counted (hembedded : ∀ inner code r, embedded inner code = .ok r → r.Counted)
    {t : Tree} {r : Rendering} (h : renderTree embedded g source t = .ok r) : r.Counted := by
  obtain ⟨body, hbody, h⟩ := bind_eq_ok_iff.mp h
  obtain rfl := Except.ok.inj h
  have hbody := renderNode_counted hembedded [] t hbody
  simpa [Rendering.Counted, spansAmong_append, spansAmong_rangeText] using hbody

end

section
variable {parse : Syntax.Parser} {g : Grammar} {source : Text} {t : Tree}

/-- The counter of a run, whatever the trees are, gives the spans of its result, those of embedded
code included. -/
theorem scopes_of_render {r : Rendering} (h : render parse g source = .ok r) :
    r.scopes = spansAmong r.html := by
  obtain ⟨t, -, h⟩ := bind_eq_ok_iff.mp h
  refine renderTree_counted (fun inner code r hr => ?_) h
  obtain ⟨u, -, hr⟩ := bind_eq_ok_iff.mp hr
  refine renderTree_counted (fun _ _ r hr => ?_) hr
  obtain rfl := Except.ok.inj hr
  rfl

theorem renderPlain_covers (hg : g ≠ .html) (ht : parse g source = .ok t)
    (htiled : t.Tiled source) : ∃ r, renderPlain parse g source = .ok r ∧ r.Covers source := by
  simp only [renderPlain, ht, bind, Except.bind]
  refine renderTree_covers htiled fun part hpart => ?_
  rw [t.embeddedParts_eq_nil hg] at hpart
  cases hpart

/-- A text whose tree tiles it, as do the trees of the code embedded in it, is coloured as marked
text with a tag for each span that counts, and is read back from it. -/
theorem exists_render_marked (ht : parse g source = .ok t) (htiled : t.Tiled source)
    (hparts : ∀ part ∈ t.embeddedParts g source none,
      ∃ u, parse part.1 part.2 = .ok u ∧ u.Tiled part.2) :
    ∃ r, render parse g source = .ok r ∧
      Marked (renderAll r.html) ∧
      openingTags (renderAll r.html) = spansAmong r.html ∧
      r.relevance = openingTags (renderAll r.html) - errorPenalty * r.errors ∧
      decodeEntities (deleteTags (renderAll r.html)) = source := by
  have hcoversParts : CoversParts (renderPlain parse) (t.embeddedParts g source none) := by
    intro part hpart
    obtain ⟨u, hu, hutiled⟩ := hparts part hpart
    exact renderPlain_covers (t.ne_html_of_mem_embeddedParts hpart) hu hutiled
  obtain ⟨r, hr, hcovers⟩ := renderTree_covers htiled hcoversParts
  have hrender : render parse g source = .ok r := by
    simp only [render, ht, bind, Except.bind, hr]
  have hcount : openingTags (renderAll r.html) = spansAmong r.html := by
    simpa [openingTags] using openingTags_renderAll r.html hcovers.classed []
  refine ⟨r, hrender, marked_renderAll r.html hcovers.classed, hcount, ?_, ?_⟩
  · rw [hcount, Rendering.relevance, scopes_of_render hrender]
  · rw [decodeEntities_deleteTags hcovers.classed, hcovers.plain]

end

/-! A script in markup: two trees, the second over a part of the text. -/

def namedNode (kind : String) (start stop : Nat) (children : List Tree) : Tree :=
  .node ⟨kind, true, false, false, false, ⟨start, stop⟩, []⟩ children

def scriptSource : Text := "<script>1<2</script>".toList

def scriptTree : Tree :=
  namedNode "document" 0 20 [namedNode "script_element" 0 20
    [namedNode "start_tag" 0 8 [namedNode "tag_name" 1 7 []], namedNode "raw_text" 8 11 [],
      namedNode "end_tag" 11 20 [namedNode "tag_name" 13 19 []]]]

def comparisonTree : Tree :=
  namedNode "program" 0 3 [namedNode "number" 0 1 [], namedNode "number" 2 3 []]

def scriptParser : Syntax.Parser := fun g _ =>
  .ok (if g = .html then scriptTree else comparisonTree)

theorem exists_render_marked_script :
    scriptTree.Tiled scriptSource ∧
      scriptTree.embeddedParts .html scriptSource none = [(.javaScript, "1<2".toList)] ∧
      ∃ r, render scriptParser .html scriptSource = .ok r ∧
        Marked (renderAll r.html) ∧
        openingTags (renderAll r.html) = spansAmong r.html ∧
        r.relevance = openingTags (renderAll r.html) - errorPenalty * r.errors ∧
        decodeEntities (deleteTags (renderAll r.html)) = scriptSource := by
  have hparse : scriptParser .html scriptSource = .ok scriptTree := rfl
  have htiled : scriptTree.Tiled scriptSource := by
    simp only [scriptTree, namedNode, Tree.Tiled, TiledFrom, Tree.span, Tree.info]
    decide
  have hparts : scriptTree.embeddedParts .html scriptSource none =
      [(.javaScript, "1<2".toList)] := by decide
  refine ⟨htiled, hparts, exists_render_marked hparse htiled fun part hpart => ?_⟩
  rw [hparts, List.mem_singleton] at hpart
  subst hpart
  refine ⟨comparisonTree, rfl, ?_⟩
  simp only [comparisonTree, namedNode, Tree.Tiled, TiledFrom, Tree.span, Tree.info]
  decide

end MarkupHighlight
