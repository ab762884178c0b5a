import MarkupHighlight.Proofs.Block.Spelled

/-!
Code blocks in the plainest spelling: code in which every character stands for itself, between
single quotes.
-/
namespace MarkupHighlight
open Markup Script

/-- A character that stands for itself between two of the given quotes. -/
def isVerbatim (quote c : Char) : Bool := c != quote && c != '\\' && c != '\n'

theorem spells_verbatim {d : Delimiter} (hd : d ≠ .backtick) {code : Text}
    (hcode : ∀ c ∈ code, isVerbatim d.char c = true) : Spells d code code := by
  induction code with
  | nil => exact .nil
  | cons c code ih =>
    have hc := hcode c (List.mem_cons_self ..)
    simp only [isVerbatim, Bool.and_eq_true, bne_iff_ne] at hc
    obtain ⟨⟨hquote, hslash⟩, hbreak⟩ := hc
    have hrest := ih fun e he => hcode e (List.mem_cons_of_mem _ he)
    exact .raw ⟨hslash, hquote, fun _ => hbreak, fun h => absurd h hd⟩ hrest

/-- A language and a piece of code, perhaps an empty one, that stand for themselves where a block
has them. -/
structure IsListing (language : String) (code : Text) : Prop where
  language_ne_nil : language.toList ≠ []
  language_chars : ∀ c ∈ language.toList, isValueChar '\x22' c = true
  code_chars : ∀ c ∈ code, isVerbatim '\x27' c = true

instance (language : String) (code : Text) : Decidable (IsListing language code) :=
  decidable_of_iff (language.toList ≠ [] ∧ language.toList.all (isValueChar '\x22') = true ∧
    code.all (isVerbatim '\x27') = true) <| by
    rw [List.all_eq_true, List.all_eq_true]
    exact ⟨fun ⟨h₁, h₂, h₃⟩ => ⟨h₁, h₂, h₃⟩, fun ⟨h₁, h₂, h₃⟩ => ⟨h₁, h₂, h₃⟩⟩

structure IsLiteral (language : String) (code : Text) : Prop extends IsListing language code where
  code_ne_nil : code ≠ []

instance (language : String) (code : Text) : Decidable (IsLiteral language code) :=
  decidable_of_iff (IsListing language code ∧ code ≠ [])
    ⟨fun ⟨h₁, h₂⟩ => ⟨h₁, h₂⟩, fun ⟨h₁, h₂⟩ => ⟨h₁, h₂⟩⟩

/-- What a block has between the braces, with the closing one. -/
def literalTag (code : Text) : Text := '\x27' :: (code ++ ['\x27']) ++ ['\x7d']

/-- A block as it is written, with what stands behind its code inside and behind it. -/
def literalForest (language : String) (code : Text) (inner rest : Forest) : Forest :=
  .closed (quotedTag codeBlockTag.toList languageAttribute.toList language.toList)
    codeBlockTag.toList
    [quotedTagAttribute codeBlockTag.toList languageAttribute.toList language.toList]
    (.leaf ('{' :: literalTag code)
      (bracedNode ⟨0, byteSize ('{' :: literalTag code)⟩ (literalTag code).dropLast) inner)
    ('<' :: '/' :: (codeBlockTag.toList ++ ['>'])) rest

section
variable {language : String} {code : Text}

theorem IsListing.spells (h : IsListing language code) : Spells .single code code := by
  apply spells_verbatim
  · decide
  · exact h.code_chars

/-- What a block with such a code calls for. -/
theorem IsListing.spelledVerdict?_eq (h : IsListing language code)
    (supported : SupportedLanguages) :
    spelledVerdict? supported language .single code code =
      some (if code = [] then .noCode
        else if supported.contains language then .code code language
        else .invalidLanguage language) := by
  rw [spelledVerdict?, ofAttributes_quotedTag h.language_ne_nil]
  cases code with
  | nil => cases supported.contains language <;> rfl
  | cons c code => cases supported.contains language <;> rfl

variable (h : IsLiteral language code)
include h

theorem blocksAt_literalForest {supported : SupportedLanguages}
    (hlanguage : supported.contains language = true) (inner rest : Forest) :
    (literalForest language code inner rest).blocksAt supported 0 =
      ⟨⟨0, byteSize (literalForest language code inner .nil).written⟩, .code code language⟩ ::
        ((inner.blocksAt supported 0).map (.shift (byteSize
            (quotedTag codeBlockTag.toList languageAttribute.toList language.toList ++
              '{' :: literalTag code))) ++
          (rest.blocksAt supported 0).map
            (.shift (byteSize (literalForest language code inner .nil).written))) := by
  have hblocks := blocksAt_spelledForest h.spells supported language inner rest
  rwa [spelledVerdict?_eq_code h.spells hlanguage h.language_ne_nil h.code_ne_nil] at hblocks

end

end MarkupHighlight
