import MarkupHighlight.Proofs.Block.Spelled
import MarkupHighlight.Proofs.Language.Supported
import MarkupHighlight.Proofs.Preprocessor.Processing

/-!
Documents that are one code block, its code spelled in any way. The block is read back as the code
(`parse_codeBlock`), so that its spelling makes no difference to what replaces it.
-/
namespace MarkupHighlight
open Markup Script

theorem written_spelledForest_ne_nil (language : String) (d : Delimiter) (body : Text)
    (inner rest : Forest) : (spelledForest language d body inner rest).written ≠ [] := by
  simp [spelledForest, Forest.written, quotedTag]

section
variable {language : String} {d : Delimiter} {body value : Text} (h : Spells d body value)
  (hchars : ∀ c ∈ language.toList, isValueChar '\x22' c = true)
include h hchars

theorem Markup.Forest.Complete.spelled {inner : Forest} (hinner : inner.Complete) :
    (spelledForest language d body inner .nil).Complete :=
  ⟨sound_spelledForest h hchars hinner.sound (by simp [hinner.unclosed]) .nil, rfl⟩

variable {p : Preprocessor} (hlanguage : p.supported.contains language = true)
  (hne : language.toList ≠ []) (hvalue : value ≠ [])
include hlanguage hne hvalue

theorem exists_parse_spelled {inner : Forest} (hinner : inner.Complete) :
    ∃ doc, parse (spelledForest language d body inner .nil).written = .ok doc ∧
      p.blocks doc = ⟨⟨0, byteSize (spelledForest language d body inner .nil).written⟩,
          .code value language⟩ ::
        (inner.blocksAt p.supported 0).map (.shift (byteSize
          (quotedTag codeBlockTag.toList languageAttribute.toList language.toList ++
            '{' :: spelledTag d body))) := by
  refine ⟨_, parse_written (hinner.spelled h hchars), ?_⟩
  have hblocks := blocksAt_spelledForest h p.supported language inner .nil
  rwa [spelledVerdict?_eq_code h hlanguage hne hvalue, Forest.blocksAt_nil, List.map_nil,
    List.append_nil] at hblocks

open Preprocessor in
/-- The whole document is replaced, provided that the highlighter takes the code. -/
theorem exists_markup_spelled {filename : Option Text}
    (hfile : shouldProcess filename (spelledForest language d body .nil .nil).written p.ignore =
      true)
    {t : Transformed} (ht : p.pipeline.transform value language = .ok t) :
    ∃ r, p.markup (spelledForest language d body .nil .nil).written filename = .ok (some r) ∧
      r.code = t.markup ∧
      r.blocks = [⟨⟨0, byteSize (spelledForest language d body .nil .nil).written⟩, language,
        t.detected⟩] := by
  obtain ⟨doc, hdoc, hblocks⟩ := exists_parse_spelled h hchars hlanguage hne hvalue .nil
  have htransform : p.transform? (.code value language) = some t := by
    simp only [transform?, ht]
    rfl
  have hcode : Overwrites 0 (spelledForest language d body .nil .nil).written
      (p.editsOf (p.blocks doc)) t.markup := by
    have hreplace := Overwrites.replace (spelledForest language d body .nil .nil).written t.markup
      (.done 0 [])
    rw [List.append_nil, List.append_nil] at hreplace
    simpa [hblocks, editsOf, htransform] using hreplace
  obtain ⟨r, hr, hrcode, hyields⟩ := exists_process (filename.getD []) hdoc
    (by simpa [hblocks, Highlights] using ⟨t, ht⟩) hcode
  refine ⟨r, markup_eq_ok_some_iff.mpr ⟨hfile, hr⟩, hrcode, ?_⟩
  rw [hyields.blocks, hblocks]
  simp [reportsOf, htransform, (Pipeline.transform_eq_ok ht).1]

/-- The highlighter took the code of a document that is replaced. -/
theorem exists_transform_of_markup {filename : Option Text} {r : Processed}
    (hr : p.markup (spelledForest language d body .nil .nil).written filename = .ok (some r)) :
    ∃ t, p.pipeline.transform value language = .ok t := by
  obtain ⟨doc, hdoc, hblocks⟩ := exists_parse_spelled h hchars hlanguage hne hvalue .nil
  obtain ⟨-, hprocess⟩ := markup_eq_ok_some_iff.mp hr
  obtain ⟨doc', hdoc', hyields⟩ := Preprocessor.exists_of_process hprocess
  obtain rfl := Except.ok.inj (hdoc.symm.trans hdoc')
  have hfirst := hyields.highlights
  rw [hblocks] at hfirst
  exact hfirst _ (List.mem_cons_self ..)

theorem markup_spelled_iff {filename : Option Text}
    (hfile : shouldProcess filename (spelledForest language d body .nil .nil).written p.ignore =
      true) {markup : Text} :
    (∃ r, p.markup (spelledForest language d body .nil .nil).written filename = .ok (some r) ∧
        r.code = markup) ↔
      ∃ t, p.pipeline.transform value language = .ok t ∧ t.markup = markup := by
  constructor
  · rintro ⟨r, hr, rfl⟩
    obtain ⟨t, ht⟩ := exists_transform_of_markup h hchars hlanguage hne hvalue hr
    obtain ⟨r', hr', hcode, -⟩ := exists_markup_spelled h hchars hlanguage hne hvalue hfile ht
    obtain rfl := Option.some.inj (Except.ok.inj (hr.symm.trans hr'))
    exact ⟨t, ht, hcode.symm⟩
  · rintro ⟨t, ht, rfl⟩
    obtain ⟨r, hr, hcode, -⟩ := exists_markup_spelled h hchars hlanguage hne hvalue hfile ht
    exact ⟨r, hr, hcode⟩

end

/-- A document that is one code block with the given expression in braces. -/
def codeBlock (language : String) (expression : Text) : Text :=
  "<pre data-language=\"".toList ++ language.toList ++ "\">\x7b".toList ++ expression ++
    "\x7d</pre>".toList

theorem quotedTag_language (name : Text) :
    quotedTag codeBlockTag.toList languageAttribute.toList name =
      "<pre data-language=\"".toList ++ (name ++ "\">".toList) := by
  have hend : "\">".toList = ['\x22'] ++ ['>'] := rfl
  rw [hend, quotedTag, quotedAttribute, ← List.append_assoc name, List.append_assoc,
    List.cons_append]
  rfl

theorem written_spelledForest (language : String) (d : Delimiter) (body : Text) :
    (spelledForest language d body .nil .nil).written =
      quotedTag codeBlockTag.toList languageAttribute.toList language.toList ++
        (['{'] ++ d.enclose body ++ ['\x7d']) ++
        ('<' :: '/' :: (codeBlockTag.toList ++ ['>'])) := by
  rw [spelledForest]
  generalize codeBlockTag.toList = name
  generalize quotedTag name languageAttribute.toList language.toList = opening
  simp [Forest.written, spelledTag]

/-- The braces belong to the texts around them. -/
theorem append_braces {a b b' c c' : Text} (hb : b' = b ++ ['{']) (hc : c' = ['\x7d'] ++ c)
    (name e : Text) :
    a ++ (name ++ b) ++ (['{'] ++ e ++ ['\x7d']) ++ c = a ++ name ++ b' ++ e ++ c' := by
  subst hb hc
  simp

theorem written_codeBlock (language : String) (d : Delimiter) (body : Text) :
    (spelledForest language d body .nil .nil).written = codeBlock language (d.enclose body) := by
  have hopening := quotedTag_language language.toList
  have hbrace : "\">\x7b".toList = "\">".toList ++ ['{'] := rfl
  have hclosing : "\x7d</pre>".toList =
      ['\x7d'] ++ ('<' :: '/' :: (codeBlockTag.toList ++ ['>'])) := rfl
  have hwritten := written_spelledForest language d body
  exact hwritten.trans
    (hopening ▸ append_braces hbrace hclosing language.toList (d.enclose body))

theorem nodesAt_spelledForest {language : String} {d : Delimiter} {body value : Text}
    (h : Spells d body value) :
    (spelledForest language d body .nil .nil).nodesAt 0 =
      [.element "pre".toList ⟨0, byteSize (codeBlock language (d.enclose body))⟩
        [quotedTagAttribute codeBlockTag.toList languageAttribute.toList language.toList]
        [.interpolation (Span.shift (byteSize (quotedTag codeBlockTag.toList
            languageAttribute.toList language.toList)) ⟨0, byteSize ('{' :: spelledTag d body)⟩)
          (spelledExpression d body value)]] := by
  have hsize := congrArg byteSize (written_codeBlock language d body)
  rw [← hsize, spelledForest, bracedNode_spelledTag h]
  simp [Forest.nodesAt, Forest.written, Node.shift, codeBlockTag]

/-- However a text is spelled as a literal, a document with that literal as its code is one `pre`
element whose code is the text; and if the text is not empty, what replaces the block is made from
the text alone. -/
theorem parse_codeBlock {language : String} {d : Delimiter} {body value : Text}
    (h : Spells d body value) (hchars : ∀ c ∈ language.toList, isValueChar '\x22' c = true) :
    (∃ attributes children payload,
      parse (codeBlock language (d.enclose body)) =
        .ok ⟨byteSize (codeBlock language (d.enclose body)),
          [.element "pre".toList ⟨0, byteSize (codeBlock language (d.enclose body))⟩ attributes
            children]⟩ ∧
      payload? children = some payload ∧ payload.source = value) ∧
    ∀ (p : Preprocessor) (filename : Option Text), value ≠ [] → language ≠ "" →
      p.supported.contains language = true →
      shouldProcess filename (codeBlock language (d.enclose body)) p.ignore = true →
      ∀ markup,
        (∃ r, p.markup (codeBlock language (d.enclose body)) filename = .ok (some r) ∧
            r.code = markup) ↔
          ∃ t, p.pipeline.transform value language = .ok t ∧ t.markup = markup := by
  constructor
  · have hparse := parse_written (Forest.Complete.nil.spelled h hchars)
    obtain ⟨payload, hpayload, hsource, -⟩ := exists_payload_spelled d body value
    rw [written_codeBlock, nodesAt_spelledForest h] at hparse
    refine ⟨_, _, payload, hparse, ?_, hsource⟩
    simpa [payload?, firstInterpolation?] using hpayload
  · intro p filename hvalue hne hlanguage hfile markup
    rw [← written_codeBlock] at hfile ⊢
    have hne' : language.toList ≠ [] := by simpa using hne
    exact markup_spelled_iff h hchars hlanguage hne' hvalue hfile

/-- The preprocessor for one language that shows code as it is. -/
def Preprocessor.verbatim (language : String) : Preprocessor where
  ignore := .predicate fun _ => false
  options := {}
  baseDir := none
  formatter code _ _ := .ok code
  highlighter := {
    languages := [language]
    highlight code _ := .ok ⟨code, some language, 0⟩
    detect code _ := .ok ⟨code, none, 0⟩ }

namespace Preprocessor

theorem contains_verbatim (language : String) :
    (verbatim language).supported.contains language = true :=
  contains_ofNames.mpr (.inl (List.mem_singleton_self language))

theorem shouldProcess_verbatim (language : String) {file content : Text} (hfile : file ≠ [])
    (hcontent : content ≠ []) :
    shouldProcess (some file) content (verbatim language).ignore = true := by
  simp [shouldProcess, verbatim, IgnoreRule.ignores, hfile, hcontent]

theorem exists_transform_verbatim (code : Text) (language : String) :
    ∃ t, (verbatim language).pipeline.transform code language = .ok t ∧ t.markup = wrap code := by
  rw [Pipeline.transform_eq, Pipeline.highlight, Call.ofLanguage]
  split
  next => exact ⟨_, rfl, rfl⟩
  next => split <;> exact ⟨_, rfl, rfl⟩

theorem formatError_verbatim {code : Text} {language name : String} {t : Transformed}
    (h : (verbatim language).pipeline.transform code name = .ok t) : t.formatError = none := by
  obtain ⟨_, -, rfl⟩ := Pipeline.exists_of_transform h
  rfl

end Preprocessor

open Preprocessor in
/-- Every kind of spelling once: a number, a raw dollar sign before a line break behind a backslash,
a raw brace, a number in braces with zeros in front, and a backtick behind a backslash. -/
theorem parse_codeBlock_template :
    ∃ attributes children payload r,
      parse (codeBlock "css" (Delimiter.backtick.enclose
          "\\x61$\\\n\x7b\\u\x7b0062\x7d\\\x60".toList)) =
        .ok ⟨53, [.element "pre".toList ⟨0, 53⟩ attributes children]⟩ ∧
      payload? children = some payload ∧ payload.source = "a$\x7bb\x60".toList ∧
      (verbatim "css").markup (codeBlock "css" (Delimiter.backtick.enclose
          "\\x61$\\\n\x7b\\u\x7b0062\x7d\\\x60".toList)) (some "page.svelte".toList) =
        .ok (some r) ∧
      r.code = wrap "a$\x7bb\x60".toList := by
  have hspells : Spells .backtick "\\x61$\\\n\x7b\\u\x7b0062\x7d\\\x60".toList
      "a$\x7bb\x60".toList := by
    have hsix : WritesHex ['6'] 6 := .digit (by decide)
    have hfirst : WritesHex ['6', '1'] 'a'.toNat := hsix.snoc (c := '1') (n := 1) (by decide)
    have hzero : WritesHex ['0'] 0 := .digit (by decide)
    have hzeros : WritesHex ['0', '0'] 0 := hzero.snoc (c := '0') (n := 0) (by decide)
    have hpadded : WritesHex ['0', '0', '6'] 6 := hzeros.snoc (c := '6') (n := 6) (by decide)
    have hsecond : WritesHex ['0', '0', '6', '2'] 'b'.toNat :=
      hpadded.snoc (c := '2') (n := 2) (by decide)
    have htick : Escape '\x60' ['\x60'] := .itself (by decide) (by decide) (by decide)
    have hlast := Spells.escape (d := .backtick) (.codePoint hsecond) (.escape htick .nil)
    have hbrace := Spells.raw (by decide : IsRaw .backtick '{' _) hlast
    have hdollar := Spells.raw (by decide : IsRaw .backtick '$' _) hbrace.lineBreak
    exact .escape (.twoDigits rfl hfirst) hdollar
  have hchars : ∀ c ∈ "css".toList, isValueChar '\x22' c = true := List.all_eq_true.mp (by decide)
  obtain ⟨⟨attributes, children, payload, hparse, hpayload, hsource⟩, hmarkup⟩ :=
    parse_codeBlock hspells hchars
  obtain ⟨t, ht, hwrap⟩ := exists_transform_verbatim "a$\x7bb\x60".toList "css"
  obtain ⟨r, hr, hcode⟩ := (hmarkup (verbatim "css") (some "page.svelte".toList) (by decide)
    (by decide) (contains_verbatim "css")
    (shouldProcess_verbatim "css" (by decide) (by decide)) _).mpr ⟨t, ht, hwrap⟩
  exact ⟨attributes, children, payload, r, hparse, hpayload, hsource, hr, hcode⟩

end MarkupHighlight
