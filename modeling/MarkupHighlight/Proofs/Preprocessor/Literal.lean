import MarkupHighlight.Proofs.Block.Literal
import MarkupHighlight.Proofs.Preprocessor.Spelled

/-!
Documents that are one code block as one writes it: the whole document is replaced, provided that
the language is known and the highlighter takes the code.
-/
namespace MarkupHighlight
open Markup

theorem Markup.Forest.Complete.literal {language : String} {code : Text} {inner : Forest}
    (h : IsLiteral language code) (hinner : inner.Complete) :
    (literalForest language code inner .nil).Complete :=
  hinner.spelled h.spells h.language_chars

section
variable {p : Preprocessor} {language : String} {code : Text} (h : IsLiteral language code)
  (hlanguage : p.supported.contains language = true)
include h hlanguage

theorem exists_parse_literal {inner : Forest} (hinner : inner.Complete) :
    ∃ d, parse (literalForest language code inner .nil).written = .ok d ∧
      p.blocks d = ⟨⟨0, byteSize (literalForest language code inner .nil).written⟩,
          .code code language⟩ ::
        (inner.blocksAt p.supported 0).map (.shift (byteSize
          (quotedTag codeBlockTag.toList languageAttribute.toList language.toList ++
            '{' :: literalTag code))) :=
  exists_parse_spelled h.spells h.language_chars hlanguage h.language_ne_nil h.code_ne_nil hinner

theorem exists_markup_literal {filename : Option Text}
    (hfile : shouldProcess filename (literalForest language code .nil .nil).written p.ignore = true)
    {t : Transformed} (ht : p.pipeline.transform code language = .ok t) :
    ∃ r, p.markup (literalForest language code .nil .nil).written filename = .ok (some r) ∧
      r.code = t.markup ∧
      r.blocks = [⟨⟨0, byteSize (literalForest language code .nil .nil).written⟩, language,
        t.detected⟩] :=
  exists_markup_spelled h.spells h.language_chars hlanguage h.language_ne_nil h.code_ne_nil hfile ht

end

open Preprocessor in
theorem exists_markup_verbatim {language : String} {code : Text} (h : IsLiteral language code)
    (file : Text) (hfile : file ≠ []) :
    ∃ r, (verbatim language).markup (literalForest language code .nil .nil).written (some file) =
      .ok (some r) ∧ r.code = wrap code := by
  have hprocess := shouldProcess_verbatim language hfile
    (written_spelledForest_ne_nil language .single code .nil .nil)
  obtain ⟨t, ht, hwrap⟩ := exists_transform_verbatim code language
  obtain ⟨r, hr, hcode, -⟩ := exists_markup_literal h (contains_verbatim language) hprocess ht
  exact ⟨r, hr, hcode.trans hwrap⟩

end MarkupHighlight
