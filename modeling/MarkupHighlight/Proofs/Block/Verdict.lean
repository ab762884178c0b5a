import MarkupHighlight.Preprocessor
import MarkupHighlight.Proofs.Edit.Overwriting
import MarkupHighlight.Proofs.Highlight.Answers
import MarkupHighlight.Proofs.Markup.Lexemes

/-!
What becomes of the annotated code blocks of a document. A block's verdict depends on its
attributes and its children only, not on where it stands, and the walk over a document carries out
the verdicts of its blocks in order (`visit_eq`). With the answers of a highlighter given, the walk
succeeds exactly if every block can be highlighted (`visited_eq_ok_iff`).
-/
namespace MarkupHighlight
open Markup

inductive Verdict
  | noCode
  | invalidLanguage (name : String)
  | code (source : Text) (language : String)
  deriving DecidableEq, Repr

/-- The verdict that an annotation and the code of its element come to, if there is one. -/
def Verdict.of? : Annotation → Option Payload → Option Verdict
  | .absent, _ => none
  | _, none => some .noCode
  | .invalid name, some _ => some (.invalidLanguage name)
  | .auto, some payload => some (.code payload.source autoName)
  | .explicit name, some payload => some (.code payload.source name)

namespace Markup.Node

/-- What an element says about its language, if it is named as a code block. -/
def declared (supported : SupportedLanguages) : Node → Annotation
  | .element name _ attributes _ =>
      if name = codeBlockTag.toList then Annotation.ofAttributes supported attributes else .absent
  | _ => .absent

def code? (v : Node) : Option Payload := (payload? v.children).filter (!·.isEmpty)

def verdict? (supported : SupportedLanguages) (v : Node) : Option Verdict :=
  Verdict.of? (v.declared supported) v.code?

end Markup.Node

/-- A block with code to highlight asks for its language by name or leaves it open. -/
theorem declared_of_code {supported : SupportedLanguages} {v : Node} {source : Text}
    {language : String} (h : v.verdict? supported = some (.code source language)) :
    v.declared supported = .explicit language ∨
      v.declared supported = .auto ∧ language = autoName := by
  unfold Node.verdict? at h
  cases hdeclared : v.declared supported <;> cases hcode : v.code? <;>
    rw [hdeclared, hcode] at h <;> cases h
  · exact .inr ⟨rfl, rfl⟩
  · exact .inl rfl

theorem exists_payload_of_code {supported : SupportedLanguages} {v : Node} {source : Text}
    {language : String} (h : v.verdict? supported = some (.code source language)) :
    ∃ payload, v.code? = some payload ∧ payload.source = source := by
  unfold Node.verdict? at h
  cases hdeclared : v.declared supported <;> cases hcode : v.code? <;>
    rw [hdeclared, hcode] at h <;> cases h
  all_goals exact ⟨_, rfl, rfl⟩

/-- An annotated code block: where it stands and what is to become of it. -/
structure Block where
  span : Span
  verdict : Verdict
  deriving DecidableEq, Repr

def Block.shift (n : Nat) (b : Block) : Block := { b with span := b.span.shift n }

@[simp] theorem Block.span_shift (n : Nat) (b : Block) : (b.shift n).span = b.span.shift n := rfl

@[simp] theorem Block.verdict_shift (n : Nat) (b : Block) : (b.shift n).verdict = b.verdict := rfl

@[simp] theorem map_shift_zero (bs : List Block) : bs.map (.shift 0) = bs := by
  have hid : Block.shift 0 = id := by
    funext b
    simp [Block.shift]
  rw [hid, List.map_id]

theorem map_shift_shift (m n : Nat) (bs : List Block) :
    (bs.map (Block.shift m)).map (Block.shift n) = bs.map (Block.shift (n + m)) := by
  rw [List.map_map]
  congr 1
  funext b
  simp [Block.shift]

def Markup.Node.block? (supported : SupportedLanguages) (v : Node) : Option Block :=
  (v.verdict? supported).map (⟨v.span, ·⟩)

/-- The annotated code blocks among some nodes and below them, in document order. -/
def blocksOf (supported : SupportedLanguages) (vs : List Node) : List Block :=
  (preorderAll vs).filterMap (Node.block? supported)

/-! Blocks of nodes that are moved. -/

@[simp] theorem ofAttributes_map_shift (supported : SupportedLanguages) (n : Nat)
    (attributes : List Attribute) :
    Annotation.ofAttributes supported (attributes.map (.shift n)) =
      Annotation.ofAttributes supported attributes := by
  rw [ Annotation.ofAttributes, Annotation.ofAttributes, findAttribute?_map_shift]
  cases findAttribute? languageAttribute.toList attributes <;> rfl

@[simp] theorem firstInterpolation?_shiftAll (n : Nat) (vs : List Node) :
    firstInterpolation? (shiftAll n vs) = firstInterpolation? vs := by
  unfold firstInterpolation?
  induction vs with
  | nil => rfl
  | cons v vs ih =>
    rw [shiftAll, List.findSome?_cons, List.findSome?_cons, ih]
    cases v <;> rfl

@[simp] theorem payload?_shiftAll (n : Nat) (vs : List Node) :
    payload? (shiftAll n vs) = payload? vs := by
  rw [payload?, payload?, firstInterpolation?_shiftAll]

theorem Markup.Node.verdict?_shift (supported : SupportedLanguages) (n : Nat) (v : Node) :
    (v.shift n).verdict? supported = v.verdict? supported := by
  cases v with
  | element name span attributes children =>
    simp only [verdict?, shift, declared, code?, Node.children, ofAttributes_map_shift,
      payload?_shiftAll]
  | _ => rfl

theorem Markup.Node.block?_shift (supported : SupportedLanguages) (n : Nat) (v : Node) :
    (v.shift n).block? supported = (v.block? supported).map (.shift n) := by
  rw [block?, block?, verdict?_shift, Option.map_map, span_shift]
  rfl

@[simp] theorem blocksOf_nil (supported : SupportedLanguages) : blocksOf supported [] = [] := rfl

theorem blocksOf_cons (supported : SupportedLanguages) (v : Node) (vs : List Node) :
    blocksOf supported (v :: vs) =
      (v.block? supported).toList ++ (blocksOf supported v.children ++ blocksOf supported vs) := by
  cases v with
  | element name span attributes children =>
    simp only [blocksOf, preorderAll, Node.preorder, Node.children, List.filterMap_append,
      List.cons_append, List.filterMap_cons]
    split <;> simp_all
  | _ => rfl

mutual

theorem Markup.Node.preorder_shift (n : Nat) :
    (v : Node) → (v.shift n).preorder = v.preorder.map (.shift n)
  | .element name span attributes children => by
      simp [Node.shift, Node.preorder, preorderAll_shiftAll n children]
  | .text _ | .comment _ | .tag _ _ | .interpolation _ _ => rfl

theorem preorderAll_shiftAll (n : Nat) :
    (vs : List Node) → preorderAll (shiftAll n vs) = (preorderAll vs).map (.shift n)
  | [] => rfl
  | v :: vs => by simp [shiftAll, preorderAll, v.preorder_shift n, preorderAll_shiftAll n vs]

end

theorem blocksOf_shiftAll (supported : SupportedLanguages) (n : Nat) (vs : List Node) :
    blocksOf supported (shiftAll n vs) = (blocksOf supported vs).map (.shift n) := by
  rw [blocksOf, blocksOf, preorderAll_shiftAll, List.filterMap_map, List.map_filterMap]
  congr 1
  funext v
  exact v.block?_shift supported n

/-! What a preprocessor makes of some blocks. -/

namespace Preprocessor

/-- The replacement that a verdict calls for, unless its code cannot be highlighted. -/
def transform? (p : Preprocessor) : Verdict → Option Transformed
  | .code source language => (p.pipeline.transform source language).toOption
  | _ => none

def diagnose (p : Preprocessor) (file : Text) : Verdict → List Diagnostic
  | .noCode => [⟨file, .noCode⟩]
  | .invalidLanguage name => [⟨file, .invalidLanguage name (p.supported.suggest name)⟩]
  | .code source language =>
      match p.pipeline.transform source language with
      | .ok t => (t.formatError.map fun e => ⟨file, .formatFailed e⟩).toList
      | .error _ => []

/-- The highlighter takes the code of the block, if the block is to be replaced. -/
def Highlights (p : Preprocessor) : Verdict → Prop
  | .code source language => ∃ t, p.pipeline.transform source language = .ok t
  | _ => True

theorem exists_of_not_highlights {p : Preprocessor} {v : Verdict} (h : ¬ p.Highlights v) :
    ∃ source language e, v = .code source language ∧
      p.pipeline.transform source language = .error e := by
  cases v with
  | noCode | invalidLanguage => exact absurd trivial h
  | code source language =>
    cases ht : p.pipeline.transform source language with
    | ok t => exact absurd ⟨t, ht⟩ h
    | error e => exact ⟨source, language, e, rfl, ht⟩

def editsOf (p : Preprocessor) (bs : List Block) : List Edit :=
  bs.filterMap fun b => (p.transform? b.verdict).map fun t => ⟨b.span, t.markup⟩

def reportsOf (p : Preprocessor) (bs : List Block) : List BlockReport :=
  bs.filterMap fun b => (p.transform? b.verdict).map fun t => ⟨b.span, t.language, t.detected⟩

def diagnosticsOf (p : Preprocessor) (file : Text) (bs : List Block) : List Diagnostic :=
  bs.flatMap fun b => p.diagnose file b.verdict

end Preprocessor

/-- What the highlighter answers to the question for some code. -/
def Pipeline.highlight (p : Pipeline) (code : Text) (language : String) : Answer :=
  p.highlighter.answer (.ofLanguage code language)

theorem Pipeline.asking_eq (p : Pipeline) (code : Text) (language : String) :
    p.asking code language = do
      let h ← (Call.ofLanguage (p.prepare code language).1 language).put
      return ⟨wrap h.value, language, h.language, (p.prepare code language).2⟩ := rfl

theorem Pipeline.transform_eq (p : Pipeline) (code : Text) (language : String) :
    p.transform code language = (p.highlight (p.prepare code language).1 language).map fun h =>
      ⟨wrap h.value, language, h.language, (p.prepare code language).2⟩ := by
  rw [transform, asking_eq, answered_bind, answered_put]
  rfl

section
variable {p : Pipeline} {code : Text} {language : String} {t : Transformed}
  (h : p.transform code language = .ok t)
include h

theorem Pipeline.exists_of_transform :
    ∃ r, p.highlight (p.prepare code language).1 language = .ok r ∧
      t = ⟨wrap r.value, language, r.language, (p.prepare code language).2⟩ := by
  rw [transform_eq] at h
  cases hhighlight : p.highlight (p.prepare code language).1 language with
  | error e =>
    rw [hhighlight] at h
    cases h
  | ok r =>
    rw [hhighlight] at h
    exact ⟨r, rfl, (Except.ok.inj h).symm⟩

theorem Pipeline.transform_eq_ok : t.language = language ∧ ∃ html, t.markup = wrap html := by
  obtain ⟨r, -, rfl⟩ := exists_of_transform h
  exact ⟨rfl, r.value, rfl⟩

end

/-- Carries out the verdict on a block. -/
def BlockState.settle (s : BlockState) (p : Preprocessor) (file : Text) (b : Block) :
    Preprocessing BlockState :=
  match b.verdict with
  | .noCode => return s.report file .noCode
  | .invalidLanguage name =>
      return s.report file (.invalidLanguage name (p.supported.suggest name))
  | .code source language => s.replace p.pipeline file b.span source language

/-- A state with all that some blocks contribute. -/
def BlockState.gather (s : BlockState) (p : Preprocessor) (file : Text) (bs : List Block) :
    BlockState :=
  ⟨⟨s.splicer.source, s.splicer.edits ++ p.editsOf bs⟩, s.diagnostics ++ p.diagnosticsOf file bs,
    s.blocks ++ p.reportsOf bs⟩

theorem BlockState.enter_eq (s : BlockState) (p : Preprocessor) (file : Text) (v : Node) :
    s.enter p file v =
      match v.block? p.supported with
      | none => return s
      | some b => s.settle p file b := by
  cases v with
  | element name span attributes children =>
    simp only [enter, enterBlock, Node.block?, Node.verdict?, Node.declared, Node.code?,
      Node.children]
    split
    next =>
      cases Annotation.ofAttributes p.supported attributes <;>
        cases (payload? children).filter (!·.isEmpty) <;>
        simp [ Annotation.token?, settle, Verdict.of?, Node.span]
    next => rfl
  | _ => rfl

theorem Preprocessor.visit_eq (p : Preprocessor) (content file : Text) (d : Document) :
    p.visit content file d =
      (blocksOf p.supported d.children).foldlM (fun s b => s.settle p file b)
        ({ splicer := { source := content } } : BlockState) := by
  have hfold (vs : List Node) (s : BlockState) :
      vs.foldlM (fun s v => s.enter p file v) s =
        (vs.filterMap (Node.block? p.supported)).foldlM (fun s b => s.settle p file b) s := by
    induction vs generalizing s with
    | nil => rfl
    | cons v vs ih =>
      rw [List.foldlM_cons, BlockState.enter_eq]
      cases hv : v.block? p.supported with
      | none =>
        rw [List.filterMap_cons_none hv]
        exact ih s
      | some b =>
        rw [List.filterMap_cons_some hv, List.foldlM_cons]
        simp only [ih]
  exact hfold _ _

/-! With the answers of the highlighter. -/

def BlockState.replaced (s : BlockState) (p : Pipeline) (file : Text) (span : Span) (code : Text)
    (language : String) : Except PreprocessFailure BlockState :=
  answered p.highlighter.answer (s.replace p file span code language)

def BlockState.settled (s : BlockState) (p : Preprocessor) (file : Text) (b : Block) :
    Except PreprocessFailure BlockState :=
  answered p.highlighter.answer (s.settle p file b)

def Preprocessor.visited (p : Preprocessor) (content file : Text) (d : Document) :
    Except PreprocessFailure BlockState :=
  answered p.highlighter.answer (p.visit content file d)

theorem BlockState.reportFormat_eq (s : BlockState) (file : Text) (e? : Option FormatError) :
    s.reportFormat file e? =
      { s with
        diagnostics := s.diagnostics ++ (e?.map fun e => ⟨file, .formatFailed e⟩).toList } := by
  cases e? with
  | none => simp [reportFormat]
  | some e => rfl

theorem BlockState.replaced_eq (s : BlockState) (p : Pipeline) (file : Text) (span : Span)
    (code : Text) (language : String) :
    s.replaced p file span code language =
      do
        let t ← (p.transform code language).mapError fun e => s.fail (.highlight span.start e)
        let s := s.reportFormat file t.formatError
        let splicer ←
          (s.splicer.overwrite ⟨span, t.markup⟩).mapError fun e => s.fail (.edit e)
        return { s with
          splicer
          blocks := s.blocks ++ [⟨span, t.language, t.detected⟩] } := by
  simp only [replaced, replace, answered_bind, answered_adapt, answered_ofExcept, answered_pure]
  rfl

theorem BlockState.settled_code (s : BlockState) (p : Preprocessor) (file : Text) (span : Span)
    (source : Text) (language : String) :
    s.settled p file ⟨span, .code source language⟩ =
      s.replaced p.pipeline file span source language := rfl

theorem Preprocessor.visited_eq (p : Preprocessor) (content file : Text) (d : Document) :
    p.visited content file d =
      (blocksOf p.supported d.children).foldlM (fun s b => s.settled p file b)
        ({ splicer := { source := content } } : BlockState) := by
  rw [visited, visit_eq, answered_foldlM]
  rfl

section
variable {p : Preprocessor} {file : Text} {s : BlockState}

theorem BlockState.settled_eq_ok {b : Block} (hcut : IsCut s.splicer.source b.span)
    (hb : p.Highlights b.verdict) : s.settled p file b = .ok (s.gather p file [b]) := by
  obtain ⟨span, verdict⟩ := b
  cases verdict with
  | noCode | invalidLanguage =>
    simp [settled, settle, gather, report, Preprocessor.editsOf, Preprocessor.transform?,
      Preprocessor.diagnosticsOf, Preprocessor.diagnose, Preprocessor.reportsOf]
  | code source language =>
    obtain ⟨t, ht⟩ := hb
    obtain ⟨old, hold⟩ := hcut.replaced t.markup
    have htransform : p.transform? (.code source language) = some t := by
      simp only [Preprocessor.transform?, ht]
      rfl
    have hdiagnose : p.diagnose file (.code source language) =
        (t.formatError.map fun e => ⟨file, .formatFailed e⟩).toList := by
      simp only [Preprocessor.diagnose, ht]
    rw [settled_code, replaced_eq, ht]
    simp only [mapError_ok, bind, Except.bind, reportFormat_eq, Splicer.overwrite_eq, hold,
      Except.map, gather,
      Preprocessor.editsOf, Preprocessor.diagnosticsOf, Preprocessor.reportsOf,
      List.filterMap_cons, htransform, Option.map_some, List.filterMap_nil, List.flatMap_cons,
      hdiagnose, List.flatMap_nil, List.append_nil]
    rfl

theorem BlockState.settled_eq_error (s : BlockState) (file : Text) {b : Block} {source : Text}
    {language : String} {e : HighlightError} (hb : b.verdict = .code source language)
    (he : p.pipeline.transform source language = .error e) :
    s.settled p file b = .error (s.fail (.highlight b.span.start e)) := by
  obtain ⟨span, verdict⟩ := b
  obtain rfl : verdict = .code source language := hb
  rw [settled_code, replaced_eq, he]
  rfl

theorem BlockState.gather_nil : s.gather p file [] = s := by
  simp [gather, Preprocessor.editsOf, Preprocessor.diagnosticsOf, Preprocessor.reportsOf]

theorem BlockState.gather_cons (b : Block) (bs : List Block) :
    (s.gather p file [b]).gather p file bs = s.gather p file (b :: bs) := by
  have happend {α : Type} (f : Block → Option α) :
      (b :: bs).filterMap f = [b].filterMap f ++ bs.filterMap f := by
    rw [← List.filterMap_append]
    rfl
  simp only [gather, Preprocessor.editsOf, Preprocessor.diagnosticsOf, Preprocessor.reportsOf,
    List.append_assoc, happend, List.flatMap_cons, List.flatMap_nil, List.append_nil]

/-- The verdicts on all blocks are carried out exactly if every block can be highlighted. -/
theorem BlockState.foldlM_settled_eq_ok_iff {s' : BlockState} {bs : List Block}
    (hcut : ∀ b ∈ bs, IsCut s.splicer.source b.span) :
    bs.foldlM (fun s b => s.settled p file b) s = .ok s' ↔
      (∀ b ∈ bs, p.Highlights b.verdict) ∧ s' = s.gather p file bs := by
  induction bs generalizing s with
  | nil =>
    rw [List.foldlM_nil, gather_nil]
    simp [pure, Except.pure, eq_comm]
  | cons b bs ih =>
    rw [List.foldlM_cons]
    by_cases hb : p.Highlights b.verdict
    · have hrest := ih (s := s.gather p file [b]) fun c hc => hcut c (List.mem_cons_of_mem _ hc)
      rw [settled_eq_ok (hcut b (List.mem_cons_self ..)) hb, gather_cons] at *
      simpa [hb, bind, Except.bind] using hrest
    · obtain ⟨source, language, e, hverdict, he⟩ := Preprocessor.exists_of_not_highlights hb
      rw [settled_eq_error s file hverdict he]
      simp [hb, bind, Except.bind]

end

theorem Preprocessor.visited_eq_ok_iff {p : Preprocessor} {content : Text} (file : Text)
    {d : Document} {s : BlockState}
    (hcut : ∀ b ∈ blocksOf p.supported d.children, IsCut content b.span) :
    p.visited content file d = .ok s ↔
      (∀ b ∈ blocksOf p.supported d.children, p.Highlights b.verdict) ∧
        s = ⟨⟨content, p.editsOf (blocksOf p.supported d.children)⟩,
          p.diagnosticsOf file (blocksOf p.supported d.children),
          p.reportsOf (blocksOf p.supported d.children)⟩ := by
  rw [visited_eq, BlockState.foldlM_settled_eq_ok_iff hcut]
  rfl

end MarkupHighlight
