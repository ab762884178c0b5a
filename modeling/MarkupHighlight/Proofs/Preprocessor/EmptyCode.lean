import MarkupHighlight.Proofs.Markup.Expressions
import MarkupHighlight.Proofs.Preprocessor.Accounting

/-!
Blocks without code. An annotated element is refused for want of code exactly if it has no literal
or its literal is empty as it is written, which for a template is not quite the same as empty when
decoded: line breaks behind backslashes are written and stand for nothing. A template of such line
breaks is the one payload that sends empty code through the pipeline (`enter_emptyCode`).
-/
namespace MarkupHighlight
open Markup Script

/-- A template whose first part has line breaks behind backslashes in it and nothing else. -/
def Payload.Continues : Payload → Prop
  | .literal _ => False
  | .template first => first.raw ≠ [] ∧ Continuation first.raw

/-- A payload is a decoded string or the first part of a template, with its decoded form. -/
theorem payload?_cases {children : List Node} (h : ClassifiedAll children) {payload : Payload}
    (hpayload : payload? children = some payload) :
    (∃ value, payload = .literal value) ∨ ∃ raw, payload = .template (.ofRaw raw) := by
  obtain ⟨e, he, hform⟩ := Option.bind_eq_some_iff.mp hpayload
  obtain ⟨s, rfl⟩ := h.exists_of_firstInterpolation he
  cases payload with
  | literal value => exact .inl ⟨value, rfl⟩
  | template first =>
    right
    unfold Expression.classify at hform
    split at hform
    next => cases hform
    next c r =>
      split at hform
      next => cases hform
      next =>
        split at hform
        next =>
          obtain ⟨f, hf, hfirst⟩ := Option.map_eq_some_iff.mp hform
          obtain rfl := Payload.template.inj hfirst
          obtain ⟨raw, -, hraw⟩ := List.mem_map.mp (List.mem_of_head? hf)
          exact ⟨raw, by rw [hraw]⟩
        next => cases hform

section
variable {children : List Node} (h : ClassifiedAll children) {payload : Payload}
  (hpayload : payload? children = some payload)
include h hpayload

theorem source_of_continues (hcontinues : payload.Continues) : payload.source = [] := by
  rcases payload?_cases h hpayload with ⟨value, rfl⟩ | ⟨raw, rfl⟩
  · exact hcontinues.elim
  · exact hcontinues.2.unescape

/-- The payloads that are as good as none are those that are empty when decoded, less the templates
that have line breaks in them. -/
theorem isEmpty_iff_source :
    payload.isEmpty = true ↔ payload.source = [] ∧ ¬ payload.Continues := by
  rcases payload?_cases h hpayload with ⟨value, rfl⟩ | ⟨raw, rfl⟩
  · simp [Payload.isEmpty, Payload.raw, Payload.source, Payload.Continues]
  · simp only [Payload.isEmpty, Payload.raw, Payload.source, Payload.Continues, Fragment.ofRaw,
      List.isEmpty_iff, unescape_eq_nil_iff]
    constructor
    · rintro rfl
      exact ⟨.nil, fun hcontinues => hcontinues.1 rfl⟩
    · rintro ⟨hbreaks, hnot⟩
      by_contra hne
      exact hnot ⟨hne, hbreaks⟩

end

/-- Replacing a block adds a report of it. -/
theorem BlockState.blocks_of_replaced {s s' : BlockState} {p : Pipeline} {file : Text} {span : Span}
    {code : Text} {language : String} (h : s.replaced p file span code language = .ok s') :
    ∃ r, s'.blocks = s.blocks ++ [r] := by
  rw [replaced_eq] at h
  obtain ⟨t, -, h⟩ := bind_eq_ok_iff.mp h
  obtain ⟨splicer, -, h⟩ := bind_eq_ok_iff.mp h
  obtain rfl := Except.ok.inj h
  exact ⟨⟨span, t.language, t.detected⟩, by rw [reportFormat_eq]⟩

theorem BlockState.replaced_ne_report {s : BlockState} {p : Pipeline} {file : Text} {span : Span}
    {code : Text} {language : String} (kind : DiagnosticKind) :
    s.replaced p file span code language ≠ .ok (s.report file kind) := by
  intro h
  obtain ⟨r, hr⟩ := blocks_of_replaced h
  simp [report] at hr

/-- What entering a node comes to with the answers of the highlighter. -/
def BlockState.entered (s : BlockState) (p : Preprocessor) (file : Text) (v : Node) :
    Except PreprocessFailure BlockState :=
  answered p.highlighter.answer (s.enter p file v)

section
variable {s : BlockState} {p : Preprocessor} {file : Text} {v : Node}

theorem BlockState.enter_of_code {payload : Payload} (hcode : v.code? = some payload)
    {language : String} (hlanguage : (v.declared p.supported).token? = some language) :
    s.enter p file v = s.replace p.pipeline file v.span payload.source language := by
  have hverdict : v.verdict? p.supported = some (.code payload.source language) := by
    rw [Node.verdict?, hcode]
    cases hdeclared : v.declared p.supported with
    | absent | invalid =>
      rw [hdeclared] at hlanguage
      cases hlanguage
    | auto | explicit =>
      rw [hdeclared] at hlanguage
      obtain rfl := Option.some.inj hlanguage
      rfl
  rw [enter_eq, Node.block?, hverdict]
  rfl

theorem BlockState.entered_of_code {payload : Payload} (hcode : v.code? = some payload)
    {language : String} (hlanguage : (v.declared p.supported).token? = some language) :
    s.entered p file v = s.replaced p.pipeline file v.span payload.source language :=
  congrArg (answered p.highlighter.answer) (enter_of_code hcode hlanguage)

theorem BlockState.enter_of_invalid {payload : Payload} (hcode : v.code? = some payload)
    {name : String} (hname : v.declared p.supported = .invalid name) :
    s.enter p file v = pure (s.report file (.invalidLanguage name (p.supported.suggest name))) := by
  have hverdict : v.verdict? p.supported = some (.invalidLanguage name) := by
    rw [Node.verdict?, hcode, hname]
    rfl
  rw [enter_eq, Node.block?, hverdict]
  rfl

variable (hannotated : v.isAnnotated p.supported = true)
include hannotated

theorem BlockState.entered_eq_noCode_iff :
    s.entered p file v = .ok (s.report file .noCode) ↔ v.code? = none := by
  rw [Node.isAnnotated, decide_eq_true_iff] at hannotated
  constructor
  · intro h
    by_contra hne
    obtain ⟨payload, hcode⟩ := Option.ne_none_iff_exists'.mp hne
    cases hdeclared : v.declared p.supported with
    | absent => exact hannotated hdeclared
    | invalid name =>
      rw [entered, enter_of_invalid hcode hdeclared] at h
      simp [report] at h
    | auto | explicit =>
      rw [entered_of_code hcode (congrArg Annotation.token? hdeclared)] at h
      exact replaced_ne_report _ h
  · intro hcode
    have hverdict : v.verdict? p.supported = some .noCode := by
      rw [Node.verdict?, hcode]
      cases hdeclared : v.declared p.supported with
      | absent => exact absurd hdeclared hannotated
      | _ => rfl
    rw [entered, enter_eq, Node.block?, hverdict]
    rfl

end

theorem code?_eq_none_iff {v : Node} (h : ClassifiedAll v.children) :
    v.code? = none ↔ ∀ payload, payload? v.children = some payload →
      payload.source = [] ∧ ¬ payload.Continues := by
  rw [Node.code?, Option.filter_eq_none_iff]
  constructor
  · intro hempty payload hpayload
    have hnot := hempty payload hpayload
    rw [Bool.not_eq_true', Bool.not_eq_false] at hnot
    exact (isEmpty_iff_source h hpayload).mp hnot
  · intro hsource payload hpayload
    rw [Bool.not_eq_true', Bool.not_eq_false]
    exact (isEmpty_iff_source h hpayload).mpr (hsource payload hpayload)

/-- An annotated element is refused for want of code exactly if it has no payload or an empty one,
and a template of nothing but line breaks is not taken for empty. Any other code is replaced, unless
its language is invalid: the code is not empty then, except that of such a template, which always
is. -/
theorem enter_emptyCode {content : Text} {d : Document} (h : parse content = .ok d)
    (p : Preprocessor) (s : BlockState) (file : Text) {v : Node} (hv : v ∈ d.nodes)
    (hannotated : v.isAnnotated p.supported = true) :
    (s.entered p file v = .ok (s.report file .noCode) ↔
      ∀ payload, payload? v.children = some payload →
        payload.source = [] ∧ ¬ payload.Continues) ∧
    ∀ payload, payload? v.children = some payload →
      (payload.Continues → payload.source = []) ∧
      (payload.source ≠ [] ∨ payload.Continues →
        (∀ language, (v.declared p.supported).token? = some language →
          s.enter p file v = s.replace p.pipeline file v.span payload.source language) ∧
        ∀ name, v.declared p.supported = .invalid name →
          s.enter p file v =
            pure (s.report file (.invalidLanguage name (p.supported.suggest name)))) := by
  have hclassified : ClassifiedAll v.children := (classified_of_parse h).children hv
  refine ⟨?_, fun payload hpayload => ⟨source_of_continues hclassified hpayload, fun hfull => ?_⟩⟩
  · rw [BlockState.entered_eq_noCode_iff hannotated, code?_eq_none_iff hclassified]
  · have hempty : payload.isEmpty = false := by
      rw [Bool.eq_false_iff, Ne, isEmpty_iff_source hclassified hpayload]
      tauto
    have hcode : v.code? = some payload := by
      rw [Node.code?, hpayload, Option.filter_some, hempty]
      rfl
    exact ⟨fun _ hlanguage => BlockState.enter_of_code hcode hlanguage,
      fun _ hname => BlockState.enter_of_invalid hcode hname⟩

open Preprocessor in
/-- A template with a line break behind a backslash is replaced, though it stands for no code. -/
theorem enter_emptyCode_lineBreak :
    ∃ d v, parse (codeBlock "css" (Delimiter.backtick.enclose ['\\', '\n'])) = .ok d ∧
      v ∈ d.nodes ∧ v.isAnnotated (verbatim "css").supported = true ∧
      payload? v.children = some (.template ⟨['\\', '\n'], []⟩) ∧
      ∀ (s : BlockState) (file : Text),
        s.entered (verbatim "css") file v ≠ .ok (s.report file .noCode) ∧
        s.enter (verbatim "css") file v =
          s.replace (verbatim "css").pipeline file v.span [] "css" := by
  have hspells : Spells .backtick ['\\', '\n'] [] := .lineBreak .nil
  have hchars : ∀ c ∈ "css".toList, isValueChar '\x22' c = true := List.all_eq_true.mp (by decide)
  have hparse := parse_written (Forest.Complete.nil.spelled hspells hchars)
  rw [written_codeBlock, nodesAt_spelledForest hspells] at hparse
  have hdeclared (span : Span) (children : List Node) :
      (Node.element "pre".toList span [quotedTagAttribute codeBlockTag.toList
        languageAttribute.toList "css".toList] children).declared (verbatim "css").supported =
          .explicit "css" := by
    have hname : "pre".toList = codeBlockTag.toList := rfl
    rw [Node.declared, if_pos hname]
    exact (ofAttributes_quotedTag (by decide)).trans (if_pos (contains_verbatim "css"))
  have hcontinues : (Payload.template ⟨['\\', '\n'], []⟩).Continues :=
    ⟨List.cons_ne_nil _ _, .lineFeed .nil⟩
  refine ⟨_, _, hparse, List.mem_cons_self .., ?_, rfl, fun s file => ?_⟩
  · exact decide_eq_true (by rw [hdeclared]; decide)
  · obtain ⟨hrefused, hreplaced⟩ := enter_emptyCode hparse (verbatim "css") s file
      (List.mem_cons_self ..) (decide_eq_true (by rw [hdeclared]; decide))
    obtain ⟨-, hfull⟩ := hreplaced _ rfl
    refine ⟨fun h => (hrefused.mp h _ rfl).2 hcontinues, ?_⟩
    exact (hfull (.inr hcontinues)).1 "css" (congrArg Annotation.token? (hdeclared _ _))

end MarkupHighlight
