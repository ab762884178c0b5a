import MarkupHighlight.Proofs.Block.Placement
import MarkupHighlight.Proofs.Block.Wrapped
import MarkupHighlight.Proofs.Script.Spelling

/-!
Code blocks as one writes them: a `pre` element with a language, its code as a literal in any
spelling and perhaps more behind the code. Each is read as a block that calls for its code.
-/
namespace MarkupHighlight
open Markup Script

/-- What a block has between the braces, with the closing one. -/
def spelledTag (d : Delimiter) (body : Text) : Text := d.enclose body ++ ['\x7d']

/-- A block as it is written, with what stands behind its code inside and behind it. -/
def spelledForest (language : String) (d : Delimiter) (body : Text) (inner rest : Forest) :
    Forest :=
  .closed (quotedTag codeBlockTag.toList languageAttribute.toList language.toList)
    codeBlockTag.toList
    [quotedTagAttribute codeBlockTag.toList languageAttribute.toList language.toList]
    (.leaf ('{' :: spelledTag d body)
      (bracedNode ⟨0, byteSize ('{' :: spelledTag d body)⟩ (spelledTag d body).dropLast) inner)
    ('<' :: '/' :: (codeBlockTag.toList ++ ['>'])) rest

/-- The expression that a spelled text is read as. -/
def spelledExpression (d : Delimiter) (body value : Text) : Expression :=
  if d = .backtick then .template [⟨body, value⟩] else .literal value

theorem exists_payload_spelled (d : Delimiter) (body value : Text) :
    ∃ payload, Payload.ofExpression? (spelledExpression d body value) = some payload ∧
      payload.source = value ∧ payload.raw = if d = .backtick then body else value := by
  unfold spelledExpression
  by_cases hd : d = .backtick
  · rw [if_pos hd, if_pos hd]
    exact ⟨.template ⟨body, value⟩, rfl, rfl, rfl⟩
  · rw [if_neg hd, if_neg hd]
    exact ⟨.literal value, rfl, rfl, rfl⟩

theorem Script.Delimiter.isBlank_char (d : Delimiter) : isBlank d.char = false := by
  cases d <;> decide

theorem Script.Delimiter.isTagSign_char (d : Delimiter) : isTagSign d.char = false := by
  cases d <;> decide

/-- A literal in braces is an expression, and no blanks are taken off it. -/
theorem bracedNode_enclose (d : Delimiter) (body : Text) (span : Span) :
    bracedNode span (d.enclose body) = .interpolation span (.classify (d.enclose body)) := by
  have hstart : trimStart (d.enclose body) = d.enclose body := by
    rw [trimStart, Delimiter.enclose, List.dropWhile_cons_of_neg (by simp [d.isBlank_char])]
  have htrim : trim (d.enclose body) = d.enclose body := by
    rw [trim, hstart, trimEnd, Delimiter.enclose, List.reverse_cons, List.reverse_append,
      List.reverse_singleton, List.singleton_append, List.cons_append,
      List.dropWhile_cons_of_neg (by simp [d.isBlank_char])]
    simp
  rw [bracedNode, htrim, hstart]
  simp [Delimiter.enclose, d.isTagSign_char]

section
variable {d : Delimiter} {body value : Text} (h : Spells d body value)
include h

theorem Script.Spells.ne_nil (hvalue : value ≠ []) : body ≠ [] := by
  rintro rfl
  cases h
  exact hvalue rfl

theorem bracedNode_spelledTag (span : Span) :
    bracedNode span (spelledTag d body).dropLast =
      .interpolation span (spelledExpression d body value) := by
  rw [spelledTag, List.dropLast_concat, bracedNode_enclose, classify_spelled h, spelledExpression]

theorem afterBrace_spelledTag (t : Text) : afterBrace (spelledTag d body ++ t) = some t := by
  rw [spelledTag, List.append_assoc]
  exact afterBrace_spelled h t

theorem sound_spelledForest {language : String}
    (hchars : ∀ c ∈ language.toList, isValueChar '\x22' c = true) {inner rest : Forest}
    (hinner : inner.Sound) (hname : codeBlockTag.toList ∉ inner.unclosed) (hrest : rest.Sound) :
    (spelledForest language d body inner rest).Sound := by
  have hkey : IsPlainKey languageAttribute.toList := ⟨by decide, List.all_eq_true.mp (by decide)⟩
  refine .closed (isLexeme_quotedTag isPlainName_pre hkey hchars) ?_ hname
    (isLexeme_bareCloseTag isPlainName_pre) hrest
  exact .leaf (isLexeme_braced (afterBrace_spelledTag h)) hinner

end

/-! What a block calls for. -/

/-- The verdict on a block with a language and a spelled text as its code. -/
def spelledVerdict? (supported : SupportedLanguages) (language : String) (d : Delimiter)
    (body value : Text) : Option Verdict :=
  Verdict.of?
    ( Annotation.ofAttributes supported
      [quotedTagAttribute codeBlockTag.toList languageAttribute.toList language.toList])
    ((Payload.ofExpression? (spelledExpression d body value)).filter (!·.isEmpty))

variable {supported : SupportedLanguages} {language : String} {d : Delimiter} {body value : Text}

theorem ofAttributes_quotedTag (hne : language.toList ≠ []) :
    Annotation.ofAttributes supported
      [quotedTagAttribute codeBlockTag.toList languageAttribute.toList language.toList] =
        if supported.contains language then .explicit language else .invalid language := by
  have hempty : language.toList.isEmpty = false := by simpa using hne
  simp [ Annotation.ofAttributes, findAttribute?, quotedTagAttribute, Attribute.shift, hempty]

theorem spelledVerdict?_eq_code (h : Spells d body value)
    (hlanguage : supported.contains language = true) (hne : language.toList ≠ [])
    (hvalue : value ≠ []) :
    spelledVerdict? supported language d body value = some (.code value language) := by
  obtain ⟨payload, hpayload, hsource, hraw⟩ := exists_payload_spelled d body value
  have hfull : payload.isEmpty = false := by
    rw [Payload.isEmpty, hraw]
    split
    next => simpa using h.ne_nil hvalue
    next => simpa using hvalue
  rw [spelledVerdict?, ofAttributes_quotedTag hne, if_pos hlanguage, hpayload,
    Option.filter_some, hfull, ← hsource]
  rfl

section
variable (h : Spells d body value)
include h

theorem ownVerdict?_spelled (supported : SupportedLanguages) (language : String) (size : Nat)
    (inner : Forest) :
    ownVerdict? supported codeBlockTag.toList
        [quotedTagAttribute codeBlockTag.toList languageAttribute.toList language.toList]
        (.leaf ('{' :: spelledTag d body) (bracedNode ⟨0, size⟩ (spelledTag d body).dropLast)
          inner) =
      spelledVerdict? supported language d body value := by
  rw [bracedNode_spelledTag h]
  simp only [ownVerdict?, Node.verdict?, Node.declared, Node.code?, Node.children,
    Forest.nodesAt, Node.shift, payload?, firstInterpolation?, List.findSome?_cons,
    Option.bind_some, if_true, spelledVerdict?]

theorem blocksAt_spelledForest (supported : SupportedLanguages) (language : String)
    (inner rest : Forest) :
    (spelledForest language d body inner rest).blocksAt supported 0 =
      ((spelledVerdict? supported language d body value).map
          (⟨⟨0, byteSize (spelledForest language d body inner .nil).written⟩, ·⟩)).toList ++
        ((inner.blocksAt supported 0).map (.shift (byteSize
            (quotedTag codeBlockTag.toList languageAttribute.toList language.toList ++
              '{' :: spelledTag d body))) ++
          (rest.blocksAt supported 0).map
            (.shift (byteSize (spelledForest language d body inner .nil).written))) := by
  have hleaf : ((bracedNode ⟨0, byteSize ('{' :: spelledTag d body)⟩
      (spelledTag d body).dropLast).block? supported) = none := by
    rw [bracedNode_spelledTag h]
    rfl
  rw [spelledForest, Forest.blocksAt_closed, ownVerdict?_spelled h,
    Forest.blocksAt_leaf supported (isLexeme_braced (afterBrace_spelledTag h)).covers.2, hleaf,
    Option.toList_none, List.nil_append, map_shift_shift, byteSize_append]
  simp [spelledForest, Forest.written]

end

end MarkupHighlight
