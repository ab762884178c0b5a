import MarkupHighlight.Proofs.Highlight.Totality
import MarkupHighlight.Proofs.Language.Supported
import MarkupHighlight.Proofs.Markup.Nesting
import MarkupHighlight.Proofs.Preprocessor.Literal

/-!
When the bundled preprocessor fails on a document that can be read: exactly if a block that is to
be replaced stands inside another one. No language that a block may name is unknown to the
highlighter, and blocks that are not inside one another do not overlap.
-/
namespace MarkupHighlight
open Markup Preprocessor

/-- The language of a code block is one that a block may give. -/
theorem contains_of_code {supported : SupportedLanguages} {v : Node} {source : Text}
    {language : String} (h : v.verdict? supported = some (.code source language)) :
    language = autoName ∨ supported.contains language = true := by
  rcases declared_of_code h with h | ⟨-, h⟩
  · unfold Node.declared at h
    split at h
    next =>
      split at h
      next => exact .inr (contains_of_explicit h)
      next => cases h
    next => cases h
  · exact .inl h

section
variable {trees : Syntax.Parser} (htrees : trees.Total) (ignore : IgnoreRule)
  (options : FormatOptions) (baseDir : Option Text)
include htrees

theorem exists_pipeline_highlight {language : String} (code : Text)
    (h : language = autoName ∨
      (bundled trees ignore options baseDir).supported.contains language = true) :
    ∃ r, (bundled trees ignore options baseDir).pipeline.highlight code language = .ok r := by
  rw [Pipeline.highlight, Call.ofLanguage]
  split
  next => exact exists_detect htrees code none
  next hauto =>
    split
    next => exact exists_detect htrees code (some markupHints)
    next hdialect =>
      exact exists_highlight htrees code
        (mem_names_of_contains (h.resolve_left hauto) hauto hdialect)

/-- The bundled highlighter takes the code of every block. -/
theorem highlights_bundled (d : Document) :
    ∀ b ∈ (bundled trees ignore options baseDir).blocks d,
      (bundled trees ignore options baseDir).Highlights b.verdict := by
  intro b hb
  obtain ⟨v, -, hb⟩ := List.mem_filterMap.mp hb
  obtain ⟨verdict, hverdict, rfl⟩ := Option.map_eq_some_iff.mp hb
  cases verdict with
  | noCode | invalidLanguage => trivial
  | code source language =>
    obtain ⟨r, hr⟩ := exists_pipeline_highlight htrees ignore options baseDir
      ((bundled trees ignore options baseDir).pipeline.prepare source language).1
      (contains_of_code hverdict)
    rw [Highlights, Pipeline.transform_eq, hr]
    exact ⟨_, rfl⟩

end

/-! Blocks inside blocks. -/

namespace Preprocessor

/-- The node is a code block that is to be replaced. -/
def Replaces (p : Preprocessor) (v : Node) : Prop :=
  ∃ source language, v.verdict? p.supported = some (.code source language)

/-- Of two blocks that are to be replaced the second stands inside the first. -/
structure Encloses (p : Preprocessor) (d : Document) (v w : Node) : Prop where
  outer : v ∈ d.nodes
  inner : w ∈ preorderAll v.children
  outer_replaced : p.Replaces v
  inner_replaced : p.Replaces w

variable {p : Preprocessor} {d : Document}

theorem Replaces.isElement {v : Node} (h : p.Replaces v) : v.kind = .element := by
  obtain ⟨source, language, h⟩ := h
  cases v with
  | element => rfl
  | _ => cases h

theorem exists_of_mem_blocks {span : Span} {source : Text} {language : String}
    (h : ⟨span, .code source language⟩ ∈ p.blocks d) :
    ∃ v ∈ d.nodes, p.Replaces v ∧ v.span = span := by
  obtain ⟨v, hv, hb⟩ := List.mem_filterMap.mp h
  obtain ⟨verdict, hverdict, hblock⟩ := Option.map_eq_some_iff.mp hb
  obtain ⟨rfl, rfl⟩ := Block.mk.inj hblock
  exact ⟨v, hv, ⟨source, language, hverdict⟩, rfl⟩

theorem exists_block_of_mem_editsOf {bs : List Block} {e : Edit} (h : e ∈ p.editsOf bs) :
    ∃ source language, ⟨e.span, .code source language⟩ ∈ bs := by
  obtain ⟨⟨span, verdict⟩, hb, he⟩ := List.mem_filterMap.mp h
  obtain ⟨t, ht, rfl⟩ := Option.map_eq_some_iff.mp he
  cases verdict with
  | noCode | invalidLanguage => cases ht
  | code source language => exact ⟨source, language, hb⟩

/-- A block that starts within the span of another one stands inside it. -/
theorem exists_encloses {content : Text} (hd : parse content = .ok d) {span span' : Span}
    {source source' : Text} {language language' : String}
    (hb : ⟨span, .code source language⟩ ∈ p.blocks d)
    (hb' : ⟨span', .code source' language'⟩ ∈ p.blocks d)
    (hstart : span.start < span'.start) (hstop : span'.start < span.stop) :
    ∃ v w, p.Encloses d v w ∧ v.span = span ∧ w.span = span' := by
  obtain ⟨v, hv, hreplaced, rfl⟩ := exists_of_mem_blocks hb
  obtain ⟨w, hw, hreplaced', rfl⟩ := exists_of_mem_blocks hb'
  obtain ⟨f, hf, rfl, rfl⟩ := parse_eq_ok_iff.mp hd
  have hinside := isElementOf_of_span hf.sound (v := v) (w := w) ⟨hv, hreplaced.isElement⟩
    ⟨hw, hreplaced'.isElement⟩ hstart hstop
  exact ⟨v, w, ⟨hv, hinside.1, hreplaced, hreplaced'⟩, rfl, rfl⟩

/-- A block inside another one starts behind it and ends no later. -/
theorem Encloses.spans {content : Text} (hd : parse content = .ok d) {v w : Node}
    (h : p.Encloses d v w) :
    v.span.start < w.span.start ∧ w.span.start < w.span.stop ∧ w.span.stop ≤ v.span.stop := by
  have hw : w ∈ d.nodes := mem_preorderAll_of_children d.children h.outer h.inner
  obtain ⟨f, hf, rfl, rfl⟩ := parse_eq_ok_iff.mp hd
  have hsize := span_of_isElementOf hf.sound (v := w) ⟨hw, h.inner_replaced.isElement⟩
  have hinside := span_inside hf.sound (v := v) ⟨h.outer, h.outer_replaced.isElement⟩
    ⟨h.inner, h.inner_replaced.isElement⟩
  exact ⟨hinside.1, hsize.2.1, hinside.2⟩

/-- Edits that overlap are those of a block inside a block. -/
theorem encloses_of_overlap {content : Text} (hd : parse content = .ok d) {x y : Edit}
    (hsub : [x, y].Sublist (p.editsOf (p.blocks d))) (hlt : y.span.start < x.span.stop) :
    ∃ v w, p.Encloses d v w ∧ v.span = x.span ∧ w.span = y.span := by
  have hstart : x.span.start < y.span.start := by
    simpa using (ordered_editsOf hd).sublist hsub
  obtain ⟨_, _, hb⟩ := exists_block_of_mem_editsOf (hsub.subset (List.mem_cons_self ..))
  obtain ⟨_, _, hb'⟩ := exists_block_of_mem_editsOf (e := y) (hsub.subset (by simp))
  exact exists_encloses hd hb hb' hstart hlt

/-- Of two blocks the one that starts first comes first. -/
theorem sublist_of_start_lt {bs : List Block}
    (hordered : bs.Pairwise fun x y => x.span.start < y.span.start) {b c : Block} (hb : b ∈ bs)
    (hc : c ∈ bs) (hlt : b.span.start < c.span.start) : [b, c].Sublist bs := by
  induction bs with
  | nil => cases hb
  | cons a bs ih =>
    obtain ⟨hfirst, hrest⟩ := List.pairwise_cons.mp hordered
    rcases List.mem_cons.mp hc with rfl | hc'
    · rcases List.mem_cons.mp hb with rfl | hb
      · exact absurd hlt (Nat.lt_irrefl _)
      · exact absurd (hfirst b hb) (Nat.lt_asymm hlt)
    · rcases List.mem_cons.mp hb with rfl | hb
      · exact (List.singleton_sublist.mpr hc').cons_cons b
      · exact (ih hrest hb hc').cons a

/-- A block and one inside it, among all blocks of the document. -/
theorem Encloses.blocks {content : Text} (hd : parse content = .ok d) {v w : Node}
    (h : p.Encloses d v w) : ∃ source source' language language',
      [⟨v.span, .code source language⟩, ⟨w.span, .code source' language'⟩].Sublist
        (p.blocks d) := by
  have hw : w ∈ d.nodes := mem_preorderAll_of_children d.children h.outer h.inner
  obtain ⟨source, language, hverdict⟩ := h.outer_replaced
  obtain ⟨source', language', hverdict'⟩ := h.inner_replaced
  exact ⟨source, source', language, language', sublist_of_start_lt (ordered_of_parse p.supported hd)
    (List.mem_filterMap.mpr ⟨v, h.outer, by rw [Node.block?, hverdict]; rfl⟩)
    (List.mem_filterMap.mpr ⟨w, hw, by rw [Node.block?, hverdict']; rfl⟩) (h.spans hd).1⟩

theorem Encloses.spans_eq {content : Text} (hd : parse content = .ok d) {v w : Node}
    (h : p.Encloses d v w) {b c : Block} (hblocks : p.blocks d = [b, c]) :
    v.span = b.span ∧ w.span = c.span := by
  obtain ⟨_, _, _, _, hsub⟩ := h.blocks hd
  rw [hblocks] at hsub
  obtain ⟨rfl, rfl⟩ : _ = b ∧ _ = c := by simpa using hsub.eq_of_length rfl
  exact ⟨rfl, rfl⟩

/-- The edits of a block and of a block inside it overlap. -/
theorem overlap_of_encloses {content : Text} (hd : parse content = .ok d)
    (hlight : ∀ b ∈ p.blocks d, p.Highlights b.verdict) {v w : Node} (h : p.Encloses d v w) :
    ¬ (p.editsOf (p.blocks d)).Pairwise fun x y => x.span.stop ≤ y.span.start := by
  intro hdisjoint
  obtain ⟨source, source', language, language', hsub⟩ := h.blocks hd
  obtain ⟨t, ht⟩ := hlight _ (hsub.subset (List.mem_cons_self ..))
  obtain ⟨t', ht'⟩ := hlight ⟨w.span, .code source' language'⟩ (hsub.subset (by simp))
  have hedits : p.editsOf [⟨v.span, .code source language⟩, ⟨w.span, .code source' language'⟩] =
      [⟨v.span, t.markup⟩, ⟨w.span, t'.markup⟩] := by
    simp [editsOf, transform?, ht, ht', Except.toOption]
  have hapart := hdisjoint.sublist (hsub.filterMap _)
  rw [← editsOf, hedits] at hapart
  have hinside := h.spans hd
  simp only [List.pairwise_cons, List.mem_singleton, forall_eq] at hapart
  omega

end Preprocessor

/-- The bundled preprocessor on a document that can be read. It fails only if a block that is to
be replaced stands inside another one, and always then, with the two spans in its error. -/
theorem markup_bundled {trees : Syntax.Parser} (htrees : trees.Total) (ignore : IgnoreRule)
    (options : FormatOptions) (baseDir : Option Text) {content : Text} {filename : Option Text}
    {d : Document} (hd : parse content = .ok d)
    (hfile : shouldProcess filename content ignore = true) :
    ((¬ ∃ v w, (bundled trees ignore options baseDir).Encloses d v w) →
      ∃ r, (bundled trees ignore options baseDir).markup content filename = .ok (some r)) ∧
    ((∃ v w, (bundled trees ignore options baseDir).Encloses d v w) →
      ∃ v w diagnostics, (bundled trees ignore options baseDir).Encloses d v w ∧
        (bundled trees ignore options baseDir).markup content filename =
          .error ⟨.edit (.overlap v.span w.span), diagnostics⟩) := by
  have hlight := highlights_bundled htrees ignore options baseDir d
  refine ⟨fun hnone => ?_, fun ⟨v, w, h⟩ => ?_⟩
  · by_cases hdisjoint : ((bundled trees ignore options baseDir).editsOf
        ((bundled trees ignore options baseDir).blocks d)).Pairwise
          fun x y => x.span.stop ≤ y.span.start
    · obtain ⟨r, hr⟩ := exists_process_of_disjoint (filename.getD []) hd hlight hdisjoint
      exact ⟨r, markup_eq_ok_some_iff.mpr ⟨hfile, hr⟩⟩
    · obtain ⟨x, y, hsub, hlt, -⟩ := exists_process_overlap [] hd hlight hdisjoint
      obtain ⟨v, w, h, -⟩ := encloses_of_overlap hd hsub hlt
      exact absurd ⟨v, w, h⟩ hnone
  · obtain ⟨x, y, hsub, hlt, hprocess⟩ := exists_process_overlap (filename.getD []) hd
      hlight (overlap_of_encloses hd hlight h)
    obtain ⟨v, w, h, hspan, hspan'⟩ := encloses_of_overlap hd hsub hlt
    rw [← hspan, ← hspan'] at hprocess
    exact ⟨v, w, _, h, by rw [markup_eq_map hfile, hprocess]; rfl⟩

/-- The parser that gives every text the tree of a blank style sheet. -/
def blankStyles : Syntax.Parser := fun _ source =>
  .ok (.node ⟨"stylesheet", true, false, false, false, ⟨byteSize source, byteSize source⟩, []⟩ [])

/-- A block of a blank style sheet is replaced, but not if the same block stands inside it. -/
theorem markup_bundled_css :
    (∃ r, (bundled blankStyles (.predicate fun _ => false) {} none).markup
      "<pre data-language=\"css\">\x7b' '\x7d</pre>".toList (some "page.svelte".toList) =
        .ok (some r)) ∧
    ∃ diagnostics, (bundled blankStyles (.predicate fun _ => false) {} none).markup
      ("<pre data-language=\"css\">\x7b' '\x7d".toList ++
        "<pre data-language=\"css\">\x7b' '\x7d</pre></pre>".toList) (some "page.svelte".toList) =
        .error ⟨.edit (.overlap ⟨0, 72⟩ ⟨30, 66⟩), diagnostics⟩ := by
  have htotal : blankStyles.Total := fun _ _ => ⟨_, rfl⟩
  have hliteral : IsLiteral "css" [' '] := by decide
  have hlanguage : (bundled blankStyles (.predicate fun _ => false) {} none).supported.contains
      "css" = true := contains_ofNames.mpr (.inl (by decide : "css" ∈ languageNames))
  constructor
  · obtain ⟨d, hd, hblocks⟩ := exists_parse_literal hliteral hlanguage .nil
    have hfile : shouldProcess (some "page.svelte".toList)
        (literalForest "css" [' '] .nil .nil).written (.predicate fun _ => false) = true := by
      decide
    refine (markup_bundled htotal _ {} none hd hfile).1 ?_
    rintro ⟨v, w, h⟩
    obtain ⟨_, _, _, _, hsub⟩ := h.blocks hd
    rw [hblocks] at hsub
    exact absurd hsub.length_le (by simp)
  · obtain ⟨d, hd, hblocks⟩ := exists_parse_literal hliteral hlanguage (.literal hliteral .nil)
    have hfile : shouldProcess (some "page.svelte".toList)
        (literalForest "css" [' '] (literalForest "css" [' '] .nil .nil) .nil).written
        (.predicate fun _ => false) = true := by
      decide
    rw [blocksAt_literalForest hliteral hlanguage] at hblocks
    obtain ⟨v, w, hencloses, -⟩ := exists_encloses hd (hblocks ▸ List.mem_cons_self ..)
      (hblocks ▸ List.mem_cons_of_mem _ (List.mem_cons_self ..)) (by decide) (by decide)
    obtain ⟨v', w', diagnostics, h, herror⟩ :=
      (markup_bundled htotal _ {} none hd hfile).2 ⟨v, w, hencloses⟩
    obtain ⟨hv, hw⟩ := h.spans_eq hd hblocks
    rw [hv, hw] at herror
    exact ⟨diagnostics, herror⟩

end MarkupHighlight
