import MarkupHighlight.Proofs.Block.Respelling
import MarkupHighlight.Proofs.Preprocessor.Accounting
import MarkupHighlight.Proofs.Preprocessor.Overlap

/-!
A run on a document in which the language of one code block is written in another way: it does what
the run on the document itself does, at the places where things are now.
-/
namespace MarkupHighlight
open Markup

theorem toLower_of_lowerAscii {name : String} (h : lowerAscii name.toList = name.toList) :
    name.toLower = name := by
  have hmap : name.toLower = name.map Char.toLower := rfl
  rw [hmap, ← String.toList_inj, String.toList_map]
  exact h

theorem parserGrammar?_markup {language : String} (h : language = "svelte" ∨ language = "html") :
    parserGrammar? language = some .html := by
  have hlower : language.toLower = language := by
    rcases h with rfl | rfl <;> exact toLower_of_lowerAscii (by decide)
  rcases h with rfl | rfl <;> simp [parserGrammar?, hlower]

/-! The same code in two languages. -/

namespace Preprocessor

/-- Code in the new language becomes what it becomes in the old one, under the new name. -/
def TakesAlike (p : Preprocessor) (old new : String) : Prop :=
  ∀ source, p.pipeline.transform source new =
    (p.pipeline.transform source old).map fun t => { t with language := new }

theorem takesAlike_self (p : Preprocessor) (language : String) :
    p.TakesAlike language language := by
  intro source
  cases h : p.pipeline.transform source language with
  | error e => rfl
  | ok t =>
    obtain ⟨rfl, -⟩ := Pipeline.transform_eq_ok h
    rfl

/-- Code in a dialect of markup is laid out and no more, and its language is detected. -/
theorem transform_bundled_markup (trees : Syntax.Parser) (ignore : IgnoreRule)
    (options : FormatOptions) (baseDir : Option Text) {language : String}
    (h : language = "svelte" ∨ language = "html") (source : Text) :
    (bundled trees ignore options baseDir).pipeline.transform source language =
      ((grammarHighlighter trees).detect (Layout.normalize options source) (some markupHints)).map
        fun r => ⟨wrap r.value, language, r.language, none⟩ := by
  have hauto : language ≠ autoName := by rcases h with rfl | rfl <;> decide
  have hdialect : isMarkupDialect language = true := by
    rcases h with rfl | rfl <;> rw [isMarkupDialect_eq] <;> decide
  have hprepare : (bundled trees ignore options baseDir).pipeline.prepare source language =
      (Layout.normalize options source, none) := by
    simp [pipeline, bundled, Pipeline.prepare, layoutFormatter, parserGrammar?_markup h,
      Grammar.isMarkup]
  have hhighlight (code : Text) :
      (bundled trees ignore options baseDir).pipeline.highlight code language =
        (grammarHighlighter trees).detect code (some markupHints) := by
    rw [Pipeline.highlight, Call.ofLanguage, if_neg hauto, if_pos hdialect]
    rfl
  rw [Pipeline.transform_eq, hprepare, hhighlight]

theorem takesAlike_html (trees : Syntax.Parser) (ignore : IgnoreRule) (options : FormatOptions)
    (baseDir : Option Text) :
    (bundled trees ignore options baseDir).TakesAlike "svelte" "html" := by
  intro source
  rw [transform_bundled_markup trees ignore options baseDir (.inl rfl),
    transform_bundled_markup trees ignore options baseDir (.inr rfl)]
  cases (grammarHighlighter trees).detect (Layout.normalize options source) (some markupHints) <;>
    rfl

namespace TakesAlike
variable {p : Preprocessor} {old new : String} (h : p.TakesAlike old new)
include h

theorem transform? (code : Option Payload) :
    p.transform? (.labelled new code) =
      (p.transform? (.labelled old code)).map fun t => { t with language := new } := by
  cases code with
  | none => rfl
  | some payload =>
    simp only [Verdict.labelled, Preprocessor.transform?, h payload.source]
    cases p.pipeline.transform payload.source old <;> rfl

theorem diagnose (file : Text) (code : Option Payload) :
    p.diagnose file (.labelled new code) = p.diagnose file (.labelled old code) := by
  cases code with
  | none => rfl
  | some payload =>
    simp only [Verdict.labelled, Preprocessor.diagnose, h payload.source]
    cases p.pipeline.transform payload.source old <;> rfl

theorem highlights {code : Option Payload} (hold : p.Highlights (.labelled old code)) :
    p.Highlights (.labelled new code) := by
  cases code with
  | none => trivial
  | some payload =>
    obtain ⟨t, ht⟩ := hold
    exact ⟨{ t with language := new }, by rw [h payload.source, ht]; rfl⟩

end TakesAlike

end Preprocessor

/-! The same blocks at other places. -/

def BlockReport.moved (m old new : Nat) (b : BlockReport) : BlockReport :=
  { b with span := b.span.moved m old new }

/-- Gives the block at `s` another language. -/
def BlockReport.labelled (s : Span) (language : String) (b : BlockReport) : BlockReport :=
  if b.span = s then { b with language } else b

namespace Preprocessor

section
variable {p : Preprocessor} {old new : String} {m size size' : Nat} {s : Span}
  {code : Option Payload} {bs : List Block}
  (hbs : ∀ b ∈ bs, b.span = s → b.verdict = .labelled old code)
include hbs

theorem editsOf_relabelled (h : p.TakesAlike old new) :
    p.editsOf (bs.map (.relabelled m size size' s (.labelled new code))) =
      (p.editsOf bs).map (.moved m size size') := by
  rw [editsOf, editsOf, List.filterMap_map, List.map_filterMap]
  apply List.filterMap_congr
  intro b hb
  rw [Function.comp_apply, Block.relabelled]
  split
  next hspan =>
    rw [h.transform?, hbs b hb hspan, Option.map_map, Option.map_map]
    rfl
  next =>
    rw [Option.map_map]
    rfl

theorem reportsOf_relabelled (h : p.TakesAlike old new) :
    p.reportsOf (bs.map (.relabelled m size size' s (.labelled new code))) =
      ((p.reportsOf bs).map (.labelled s new)).map (.moved m size size') := by
  rw [reportsOf, reportsOf, List.filterMap_map, List.map_filterMap, List.map_filterMap]
  apply List.filterMap_congr
  intro b hb
  rw [Function.comp_apply, Block.relabelled]
  split
  next hspan =>
    rw [h.transform?, hbs b hb hspan]
    cases p.transform? (.labelled old code) <;>
      simp [BlockReport.labelled, BlockReport.moved, hspan]
  next hspan =>
    cases p.transform? b.verdict <;> simp [BlockReport.labelled, BlockReport.moved, hspan]

theorem diagnosticsOf_relabelled (h : p.TakesAlike old new) (file : Text) :
    p.diagnosticsOf file (bs.map (.relabelled m size size' s (.labelled new code))) =
      p.diagnosticsOf file bs := by
  rw [diagnosticsOf, diagnosticsOf, List.flatMap_map]
  apply List.flatMap_congr
  intro b hb
  rw [Block.relabelled]
  split
  next hspan => rw [h.diagnose, hbs b hb hspan]
  next => rfl

theorem highlights_relabelled (h : p.TakesAlike old new)
    (hlight : ∀ b ∈ bs, p.Highlights b.verdict) :
    ∀ b ∈ bs.map (Block.relabelled m size size' s (.labelled new code)),
      p.Highlights b.verdict := by
  intro b hb
  obtain ⟨c, hc, rfl⟩ := List.mem_map.mp hb
  have hlight := hlight c hc
  rw [Block.relabelled]
  split
  next hspan => exact h.highlights (hbs c hc hspan ▸ hlight)
  next => exact hlight

theorem language_of_mem_reportsOf :
    ∀ b ∈ p.reportsOf bs, b.span = s → b.language = old := by
  intro b hb hspan
  obtain ⟨c, hc, hreport⟩ := List.mem_filterMap.mp hb
  obtain ⟨t, ht, rfl⟩ := Option.map_eq_some_iff.mp hreport
  obtain ⟨source, language, hverdict, htransform⟩ := exists_of_transform? ht
  rw [hbs c hc hspan] at hverdict
  cases code with
  | none => cases hverdict
  | some payload =>
    obtain ⟨rfl, rfl⟩ := Verdict.code.inj hverdict
    exact (Pipeline.transform_eq_ok htransform).1

end

theorem forall_span_editsOf {p : Preprocessor} (P : Span → Prop) {bs : List Block} :
    (∀ e ∈ p.editsOf bs, P e.span) ↔ ∀ b ∈ p.reportsOf bs, P b.span := by
  rw [← List.forall_mem_map (f := fun e : Edit => e.span), span_editsOf, List.forall_mem_map]

end Preprocessor

theorem map_labelled {s : Span} {language : String} {bs : List BlockReport}
    (h : ∀ b ∈ bs, b.span = s → b.language = language) :
    bs.map (.labelled s language) = bs.map id := by
  apply List.map_congr_left
  intro b hb
  rw [BlockReport.labelled]
  split
  next hspan =>
    obtain rfl := h b hb hspan
    rfl
  next => rfl

/-! Runs on the two documents. -/

/-- In the document that consists of `x`, `k` and `y`, `k` is the language of the code block at the
given span. -/
def CodeBlockAt (x k y : Text) (span : Span) : Prop :=
  ∃ d v, parse (x ++ (k ++ y)) = .ok d ∧ v ∈ d.nodes ∧ v.span = span ∧
    v.HasLanguageAt ⟨byteSize x, byteSize x + byteSize k⟩

/-- The results of two runs, of which the second has `k'` where the first has `k` between `x` and
`y`: up to the given change in its reports, the second does what the first does. -/
structure RunsAlike (x k k' y : Text) (change : BlockReport → BlockReport) (r r' : Processed) :
    Prop where
  blocks : r'.blocks = (r.blocks.map change).map (.moved (byteSize x) (byteSize k) (byteSize k'))
  diagnostics : r'.diagnostics = r.diagnostics
  /-- If a block around `k` is replaced, nothing is left of the difference. -/
  covered : (∃ b ∈ r.blocks, b.span.Covers (byteSize x) (byteSize k)) → r'.code = r.code
  /-- If not, it stays between what the edits make of the texts around it. -/
  kept : (∀ b ∈ r.blocks, ¬ b.span.Covers (byteSize x) (byteSize k)) →
    ∃ before behind a b, (before ++ behind).map (·.span) = r.blocks.map (·.span) ∧
      Overwrites 0 x before a ∧ Overwrites (byteSize (x ++ k)) y behind b ∧
      r.code = a ++ (k ++ b) ∧ r'.code = a ++ (k' ++ b)

section
variable {p : Preprocessor} {old new : String} {x k k' y : Text}
  (h : IsRespelling p.supported old new k k') (hy : EndsWord y) {span : Span}
  (hspan : CodeBlockAt x k y span)
include h hy hspan

/-- The document with the language in its new form can be read, and has the same blocks. -/
theorem exists_parse_of_respelling {d : Document} (hd : parse (x ++ (k ++ y)) = .ok d) :
    ∃ d' code, parse (x ++ (k' ++ y)) = .ok d' ∧
      (∀ b ∈ p.blocks d, b.span.Clear (byteSize x) (byteSize k)) ∧
      (∀ b ∈ p.blocks d, b.span = span → b.verdict = .labelled old code) ∧
      p.blocks d' = (p.blocks d).map
        (.relabelled (byteSize x) (byteSize k) (byteSize k') span (.labelled new code)) := by
  obtain ⟨d', v, hd', hv, rfl, hlanguage⟩ := hspan
  obtain rfl := Except.ok.inj (hd.symm.trans hd')
  have hordered := ordered_of_parse p.supported hd
  obtain ⟨f, hf, hwritten, rfl⟩ := parse_eq_ok_iff.mp hd
  have hkind : v.kind = .element := by
    obtain ⟨_, _, _, _, rfl, -⟩ := hlanguage
    rfl
  obtain ⟨f', s, code, hs, hall⟩ := h.respellable hf.sound 0 v x y ⟨hv, hkind⟩
    (by simpa using hlanguage) hwritten hy
  obtain rfl : v.span = s := by simpa [Span.shift] using hs
  have hparse := parse_written ⟨hall.sound, hall.unclosed.trans hf.unclosed⟩
  rw [hall.written] at hparse
  obtain ⟨hblocks, hverdict⟩ := hall.blocks.eq_map hordered
  exact ⟨_, code, hparse, hall.blocks.clear, hverdict, hblocks⟩

open Preprocessor in
/-- A run with the language in its new form, if the preprocessor takes the code of the two languages
alike. -/
theorem exists_markup_of_respelling (halike : p.TakesAlike old new) {filename : Option Text}
    {r : Processed} (hr : p.markup (x ++ (k ++ y)) filename = .ok (some r)) :
    (∀ b ∈ r.blocks, b.span = span → b.language = old) ∧
      ∃ r', p.markup (x ++ (k' ++ y)) filename = .ok (some r') ∧
        RunsAlike x k k' y (.labelled span new) r r' := by
  obtain ⟨hfile, hprocess⟩ := markup_eq_ok_some_iff.mp hr
  obtain ⟨d, hd, hyields⟩ := exists_of_process hprocess
  obtain ⟨d', code, hd', hclear, hverdict, hblocks⟩ := exists_parse_of_respelling h hy hspan hd
  have hedits : ∀ e ∈ p.editsOf (p.blocks d),
      e.span.Clear (0 + byteSize x) (byteSize k) := by
    intro e he
    obtain ⟨b, hb, heq⟩ := editsOf_span_mem he
    rw [heq, Nat.zero_add]
    exact hclear b hb
  obtain ⟨out, hout, hcases⟩ := hyields.code.exchange rfl h.ne_nil hedits k'
  simp only [Nat.zero_add] at hout hcases
  rw [← editsOf_relabelled hverdict halike, ← hblocks] at hout
  have hlight : ∀ b ∈ p.blocks d', p.Highlights b.verdict :=
    hblocks ▸ highlights_relabelled hverdict halike hyields.highlights
  obtain ⟨r', hr', rfl, hyields'⟩ := exists_process (filename.getD []) hd' hlight hout
  have hne : x ++ (k' ++ y) ≠ [] := by
    obtain ⟨c, z, rfl, -⟩ := hy
    simp
  refine ⟨?_, r', markup_eq_ok_some_iff.mpr ⟨shouldProcess_of_ne_nil hfile hne, hr'⟩, ?_⟩
  · rw [hyields.blocks]
    exact language_of_mem_reportsOf hverdict
  · constructor
    · rw [hyields'.blocks, hyields.blocks, hblocks, reportsOf_relabelled hverdict halike]
    · rw [hyields'.diagnostics, hyields.diagnostics, hblocks,
        diagnosticsOf_relabelled hverdict halike]
    · rintro ⟨b, hb, hcovers⟩
      rcases hcases with ⟨-, hsame⟩ | ⟨hnone, -⟩
      · exact hsame
      · rw [hyields.blocks] at hb
        exact absurd hcovers ((forall_span_editsOf (¬ Span.Covers _ _ ·)).mp hnone b hb)
    · intro hnone
      rw [hyields.blocks] at hnone ⊢
      rcases hcases with ⟨⟨e, he, hcovers⟩, -⟩ | ⟨-, es, es', a, b, heq, ha, hb, hcode, hcode'⟩
      · exact absurd hcovers ((forall_span_editsOf (¬ Span.Covers _ _ ·)).mpr hnone e he)
      · exact ⟨es, es', a, b, by rw [← heq, span_editsOf], ha, hb, hcode, hcode'⟩

end

theorem writesLanguage_enclosed {q : Char} (hq : Script.isQuote q = true) {language : String}
    (hne : language.toList ≠ []) (hchars : language.toList.all (isValueChar q) = true) :
    WritesLanguage language
      (languageAttribute.toList ++ '=' :: q :: (language.toList ++ [q])) :=
  .named hne (.enclosed hq (List.all_eq_true.mp hchars))

/-- The ways to ask for detection. -/
theorem isRespelling_auto {supported : SupportedLanguages}
    (hsupported : supported.contains autoName = true) {k' : Text}
    (hk' : k' ∈ ["data-language".toList, "data-language=\x27auto\x27".toList,
      "data-language=auto".toList]) :
    IsRespelling supported autoName autoName "data-language=\"auto\"".toList k' where
  old_ne_nil := by decide
  old_chars := List.all_eq_true.mp (by decide)
  old_supported := hsupported
  new_supported := hsupported
  text := by decide
  writes := by
    simp only [List.mem_cons, List.not_mem_nil, or_false] at hk'
    rcases hk' with rfl | rfl | rfl
    · exact .auto
    · exact writesLanguage_enclosed (q := '\x27') rfl (by decide) (by decide)
    · exact .named (by decide) (.bare (by decide) (List.all_eq_true.mp (by decide)))

theorem isRespelling_html {supported : SupportedLanguages}
    (hsvelte : supported.contains "svelte" = true) (hhtml : supported.contains "html" = true) :
    IsRespelling supported "svelte" "html" "data-language=\"svelte\"".toList
      "data-language=\"html\"".toList where
  old_ne_nil := by decide
  old_chars := List.all_eq_true.mp (by decide)
  old_supported := hsvelte
  new_supported := hhtml
  text := by decide
  writes := writesLanguage_enclosed (q := '\x22') rfl (by decide) (by decide)

theorem contains_alwaysSupported (p : Preprocessor) {name : String} (h : name ∈ alwaysSupported) :
    p.supported.contains name = true :=
  contains_ofNames.mpr (.inr h)

open Preprocessor in
/-- How a code block asks for its language makes no difference. Where it asks for detection, the
preprocessor does the same however that is written; and the bundled one treats code in Svelte
as code in HTML, but for the name that it reports. -/
theorem markup_respelled {x y : Text} (hy : EndsWord y) (span : Span) (filename : Option Text)
    (r : Processed) :
    (∀ (p : Preprocessor) (k' : Text),
      k' ∈ ["data-language".toList, "data-language=\x27auto\x27".toList,
        "data-language=auto".toList] →
      CodeBlockAt x "data-language=\"auto\"".toList y span →
      p.markup (x ++ ("data-language=\"auto\"".toList ++ y)) filename = .ok (some r) →
      ∃ r', p.markup (x ++ (k' ++ y)) filename = .ok (some r') ∧
        RunsAlike x "data-language=\"auto\"".toList k' y id r r') ∧
    (∀ (trees : Syntax.Parser) (ignore : IgnoreRule) (options : FormatOptions)
      (baseDir : Option Text),
      CodeBlockAt x "data-language=\"svelte\"".toList y span →
      (bundled trees ignore options baseDir).markup
        (x ++ ("data-language=\"svelte\"".toList ++ y)) filename = .ok (some r) →
      (∀ b ∈ r.blocks, b.span = span → b.language = "svelte") ∧
        ∃ r', (bundled trees ignore options baseDir).markup
            (x ++ ("data-language=\"html\"".toList ++ y)) filename = .ok (some r') ∧
          RunsAlike x "data-language=\"svelte\"".toList "data-language=\"html\"".toList y
            (.labelled span "html") r r') := by
  constructor
  · intro p k' hk' hspan hr
    have h := isRespelling_auto (contains_alwaysSupported p (by decide)) hk'
    obtain ⟨hlanguage, r', hr', halike⟩ :=
      exists_markup_of_respelling h hy hspan (takesAlike_self p autoName) hr
    refine ⟨r', hr', { halike with blocks := ?_ }⟩
    rw [halike.blocks, map_labelled hlanguage]
  · intro trees ignore options baseDir hspan hr
    have h := isRespelling_html (contains_alwaysSupported (bundled trees ignore options baseDir)
      (by decide)) (contains_alwaysSupported _ (by decide))
    exact exists_markup_of_respelling h hy hspan (takesAlike_html trees ignore options baseDir) hr

/-- A document that is one block, cut at the attribute with its language. -/
theorem codeBlockAt_literal {language : String} {code x k y : Text} (h : IsLiteral language code)
    (hx : x = '<' :: (codeBlockTag.toList ++ [' ']))
    (hk : k = quotedAttribute languageAttribute.toList language.toList)
    (hcut : (literalForest language code .nil .nil).written = x ++ (k ++ y)) :
    CodeBlockAt x k y ⟨0, byteSize (x ++ (k ++ y))⟩ := by
  have hparse := parse_written (Forest.Complete.nil.literal h)
  rw [hcut] at hparse
  refine ⟨_, _, hparse, List.mem_cons_self .., ?_, _, _, _, _, rfl, rfl, ?_⟩
  · rw [← hcut]
    simp [Node.span, literalForest, Forest.written]
  · have hopen : '<'.utf8Size = 1 := rfl
    have hblank : ' '.utf8Size = 1 := rfl
    subst hx hk
    simp only [quotedTagAttribute, Attribute.shift, Span.shift, byteSize_cons, byteSize_append,
      byteSize_nil, hopen, hblank, Span.mk.injEq]
    omega

open Preprocessor in
/-- A block with a blank as its code: the way its language is written leaves no trace. -/
theorem markup_respelled_blank :
    (∃ r r', (verbatim "auto").markup "<pre data-language=\"auto\">\x7b' '\x7d</pre>".toList
        (some "page.svelte".toList) = .ok (some r) ∧
      (verbatim "auto").markup "<pre data-language>\x7b' '\x7d</pre>".toList
        (some "page.svelte".toList) = .ok (some r') ∧
      r'.code = r.code ∧ ∃ detected, r.blocks = [⟨⟨0, 37⟩, "auto", detected⟩] ∧
        r'.blocks = [⟨⟨0, 30⟩, "auto", detected⟩]) ∧
    ∃ r r', (bundled blankStyles (.predicate fun _ => false) {} none).markup
        "<pre data-language=\"svelte\">\x7b' '\x7d</pre>".toList
        (some "page.svelte".toList) = .ok (some r) ∧
      (bundled blankStyles (.predicate fun _ => false) {} none).markup
        "<pre data-language=\"html\">\x7b' '\x7d</pre>".toList
        (some "page.svelte".toList) = .ok (some r') ∧
      r'.code = r.code ∧ ∃ detected, r.blocks = [⟨⟨0, 39⟩, "svelte", detected⟩] ∧
        r'.blocks = [⟨⟨0, 37⟩, "html", detected⟩] := by
  have hends : EndsWord ">\x7b' '\x7d</pre>".toList := ⟨_, _, rfl, .inr rfl⟩
  constructor
  · have hliteral : IsLiteral "auto" [' '] := by decide
    have hspan : CodeBlockAt "<pre ".toList "data-language=\"auto\"".toList
        ">\x7b' '\x7d</pre>".toList ⟨0, 37⟩ :=
      codeBlockAt_literal hliteral (by decide) (by decide) (by decide)
    have hcovers : (⟨0, 37⟩ : Span).Covers (byteSize "<pre ".toList)
        (byteSize "data-language=\"auto\"".toList) := ⟨by decide, by decide⟩
    have hfile : shouldProcess (some "page.svelte".toList)
        (literalForest "auto" [' '] .nil .nil).written (verbatim "auto").ignore = true := by decide
    obtain ⟨t, ht, -⟩ := exists_transform_verbatim [' '] "auto"
    obtain ⟨r, hr, -, hblocks⟩ :=
      exists_markup_literal hliteral (contains_verbatim "auto") hfile ht
    obtain ⟨r', hr', halike⟩ := (markup_respelled hends ⟨0, 37⟩ (some "page.svelte".toList) r).1
      (verbatim "auto") "data-language".toList (by decide) hspan hr
    have hblocks' := halike.blocks
    rw [hblocks] at hblocks'
    refine ⟨r, r', hr, hr', halike.covered ?_, t.detected, hblocks, hblocks'⟩
    rw [hblocks]
    exact ⟨_, List.mem_singleton_self _, hcovers⟩
  · have hliteral : IsLiteral "svelte" [' '] := by decide
    have hspan : CodeBlockAt "<pre ".toList "data-language=\"svelte\"".toList
        ">\x7b' '\x7d</pre>".toList ⟨0, 39⟩ :=
      codeBlockAt_literal hliteral (by decide) (by decide) (by decide)
    have hcovers : (⟨0, 39⟩ : Span).Covers (byteSize "<pre ".toList)
        (byteSize "data-language=\"svelte\"".toList) := ⟨by decide, by decide⟩
    have hfile : shouldProcess (some "page.svelte".toList)
        (literalForest "svelte" [' '] .nil .nil).written (.predicate fun _ => false) = true := by
      decide
    have htotal : blankStyles.Total := fun _ _ => ⟨_, rfl⟩
    obtain ⟨highlighted, hdetect⟩ := exists_detect htotal (Layout.normalize {} [' '])
      (some markupHints)
    have ht := transform_bundled_markup blankStyles (.predicate fun _ => false) {} none (.inl rfl)
      [' ']
    rw [hdetect] at ht
    obtain ⟨r, hr, -, hblocks⟩ :=
      exists_markup_literal hliteral (contains_alwaysSupported _ (by decide)) hfile ht
    obtain ⟨-, r', hr', halike⟩ :=
      (markup_respelled hends ⟨0, 39⟩ (some "page.svelte".toList) r).2 blankStyles
        (.predicate fun _ => false) {} none hspan hr
    have hblocks' := halike.blocks
    rw [hblocks] at hblocks'
    refine ⟨r, r', hr, hr', halike.covered ?_, highlighted.language, hblocks, hblocks'⟩
    rw [hblocks]
    exact ⟨_, List.mem_singleton_self _, hcovers⟩

end MarkupHighlight
