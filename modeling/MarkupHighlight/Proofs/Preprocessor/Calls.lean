import MarkupHighlight.Proofs.Preprocessor.Pages

/-!
The calls that a preprocessor makes of its highlighter. What it asks, and what it does with each
answer, depends on the names of the highlighter's languages only (`asking_congr`). Whatever the
answers are, each question is one for an annotated block, and an error of the highlighter is the
answer to a question (`accountable_asking`). With the answers of its own highlighter it asks for the
blocks in document order up to the first that is refused (`calls_asking`).
-/
namespace MarkupHighlight
open Markup

/-! What the questions depend on. -/

section
variable {p : Preprocessor} {h : Highlighter} (hlanguages : h.languages = p.highlighter.languages)
include hlanguages

theorem Preprocessor.supported_congr :
    ({ p with highlighter := h } : Preprocessor).supported = p.supported := by
  rw [supported, hlanguages, supported]

theorem BlockState.settle_congr (s : BlockState) (file : Text) (b : Block) :
    s.settle ({ p with highlighter := h } : Preprocessor) file b = s.settle p file b := by
  obtain ⟨span, verdict⟩ := b
  cases verdict with
  | noCode => rfl
  | invalidLanguage name => rw [settle, settle, Preprocessor.supported_congr hlanguages]
  | code source language => rfl

theorem Preprocessor.asking_congr (content : Text) (filename : Option Text) :
    ({ p with highlighter := h } : Preprocessor).asking content filename =
      p.asking content filename := by
  have hvisit (file : Text) (d : Document) :
      ({ p with highlighter := h } : Preprocessor).visit content file d =
        p.visit content file d := by
    rw [visit_eq, visit_eq, supported_congr hlanguages]
    simp only [BlockState.settle_congr hlanguages]
  simp only [asking, process, hvisit]

end

/-! What is asked. -/

def Call.code : Call → Text
  | .highlight code _ | .detect code _ => code

/-- The value of the attribute for the language starts with the given name. -/
def Markup.Node.NamesFirst (v : Node) (name : String) : Prop :=
  ∃ span attributes children a rest, v = .element codeBlockTag.toList span attributes children ∧
    findAttribute? languageAttribute.toList attributes = some a ∧
    a.value = some (.text name.toList :: rest)

/-- The question is one for an element that holds code and asks for a language. -/
structure Preprocessor.CallFor (p : Preprocessor) (v : Node) (payload : Payload) (language : String)
    (call : Call) : Prop where
  holds : v.code? = some payload
  asks : (v.declared p.supported).token? = some language
  /-- It is about the code as the formatter gives it back, or as it is in the element if the
  formatter fails. -/
  code : p.formatter payload.source language p.options = .ok call.code ∨
    call.code = payload.source ∧ ∃ e, p.formatter payload.source language p.options = .error e
  /-- Only a language that the highlighter knows is asked for by name, and the element names it. -/
  named : ∀ code name, call = .highlight code name →
    name = language ∧ name ∈ p.highlighter.languages ∧ v.NamesFirst name

theorem namesFirst_of_declared {supported : SupportedLanguages} {v : Node} {name : String}
    (h : v.declared supported = .explicit name) :
    v.NamesFirst name ∧ supported.contains name = true := by
  unfold Node.declared at h
  split at h
  next tag span attributes children =>
    split at h
    next htag =>
      obtain ⟨a, rest, ha, hvalue, hcontains⟩ := exists_of_explicit h
      exact ⟨⟨span, attributes, children, a, rest, by rw [htag], ha, hvalue⟩, hcontains⟩
    next => cases h
  next => cases h

theorem Call.code_ofLanguage (code : Text) (language : String) :
    (Call.ofLanguage code language).code = code := by
  unfold ofLanguage
  split
  next => rfl
  next => split <;> rfl

theorem Call.ofLanguage_eq_highlight {code code' : Text} {language name : String}
    (h : Call.ofLanguage code language = .highlight code' name) :
    name = language ∧ language ≠ autoName ∧ ¬ isMarkupDialect language = true := by
  unfold ofLanguage at h
  split at h
  next => cases h
  next hauto =>
    split at h
    next => cases h
    next hdialect =>
      cases h
      exact ⟨rfl, hauto, hdialect⟩

theorem exists_callFor (p : Preprocessor) {v : Node} {source : Text} {language : String}
    (h : v.verdict? p.supported = some (.code source language)) :
    ∃ payload language', p.CallFor v payload language'
      (.ofLanguage (p.pipeline.prepare source language).1 language) := by
  obtain ⟨payload, hpayload, rfl⟩ := exists_payload_of_code h
  refine ⟨payload, language, hpayload, ?_, ?_, ?_⟩
  · rcases declared_of_code h with hdeclared | ⟨hdeclared, rfl⟩
    · rw [hdeclared]
      rfl
    · rw [hdeclared]
      rfl
  · rw [Call.code_ofLanguage]
    simp only [Pipeline.prepare, Preprocessor.pipeline]
    cases p.formatter payload.source language p.options with
    | ok formatted => exact .inl rfl
    | error e => exact .inr ⟨rfl, e, rfl⟩
  · intro code name hcall
    obtain ⟨rfl, hauto, hdialect⟩ := Call.ofLanguage_eq_highlight hcall
    rcases declared_of_code h with hdeclared | ⟨-, rfl⟩
    · obtain ⟨hfirst, hcontains⟩ := namesFirst_of_declared hdeclared
      exact ⟨rfl, mem_names_of_contains hcontains hauto hdialect, hfirst⟩
    · exact absurd rfl hauto

/-! What a run comes to. -/

/-- All questions are ones that may be put, and an error of the highlighter is an answer. -/
structure Accounted {α : Type} (due : Call → Prop) (t : List (Call × Answer))
    (r : Except PreprocessFailure α) : Prop where
  due : ∀ q ∈ t, due q.1
  blame : ∀ f start e, r = .error f → f.error = .highlight start e → ∃ call, (call, .error e) ∈ t

/-- Whatever the answers are, the work accounts for its questions and for its failure. -/
def Accountable {α : Type} (due : Call → Prop) (x : Preprocessing α) : Prop :=
  ∀ t r, x.run.Trace t r → Accounted due t r

section
variable {α β : Type} {due : Call → Prop}

/-- Where nothing is asked there is an error only if the highlighter has no part in it. -/
theorem accountable_ofExcept {r : Except PreprocessFailure α}
    (h : ∀ f start e, r = .error f → f.error ≠ .highlight start e) :
    Accountable due (MonadExcept.ofExcept r) := by
  intro t r' ht
  cases r <;> cases ht <;>
    exact ⟨nofun, fun f start e hf he => absurd he (h f start e hf)⟩

/-- A refusal that is put down to something else than the highlighter. -/
theorem accountable_mapError {ε : Type} {x : Except ε α} {g : ε → PreprocessFailure}
    (h : ∀ e start e', (g e).error ≠ .highlight start e') :
    Accountable due (MonadExcept.ofExcept (x.mapError g)) := by
  refine accountable_ofExcept fun f start e hf => ?_
  cases x with
  | error e' =>
    obtain rfl := Except.error.inj hf
    exact h e' start e
  | ok a => cases hf

theorem accountable_pure (a : α) : Accountable due (pure a : Preprocessing α) :=
  accountable_ofExcept (r := .ok a) nofun

theorem Accountable.bind {x : Preprocessing α} {f : α → Preprocessing β} (hx : Accountable due x)
    (hf : ∀ a, Accountable due (f a)) : Accountable due (x >>= f) := by
  intro t r h
  obtain ⟨t₁, r₁, t₂, rfl, h₁, h₂⟩ :=
    Asking.Trace.of_bind (x := x.run) (f := ExceptT.bindCont f) h
  have hfirst := hx t₁ r₁ h₁
  cases r₁ with
  | error g =>
    cases h₂
    rw [List.append_nil]
    refine ⟨hfirst.due, fun g' start e hg => ?_⟩
    obtain rfl := Except.error.inj hg
    exact hfirst.blame g start e rfl
  | ok a =>
    have hrest := hf a t₂ r h₂
    refine ⟨fun q hq => (List.mem_append.mp hq).elim (hfirst.due q) (hrest.due q), ?_⟩
    intro g start e hg he
    obtain ⟨call, hcall⟩ := hrest.blame g start e hg he
    exact ⟨call, List.mem_append_right t₁ hcall⟩

theorem Accountable.foldlM {f : β → α → Preprocessing β} {as : List α}
    (hf : ∀ a ∈ as, ∀ b, Accountable due (f b a)) (b : β) : Accountable due (as.foldlM f b) := by
  induction as generalizing b with
  | nil => exact accountable_pure b
  | cons a as ih =>
    obtain ⟨hfirst, hrest⟩ := List.forall_mem_cons.mp hf
    rw [List.foldlM_cons]
    exact (hfirst b).bind (ih hrest)

/-- The question for some code, put for an element. -/
theorem accountable_asking_adapt {p : Pipeline} {code : Text} {language : String}
    (h : due (.ofLanguage (p.prepare code language).1 language)) (s : BlockState) (start : Nat) :
    Accountable due ((p.asking code language).adapt fun e => s.fail (.highlight start e)) := by
  intro t r ht
  rw [Pipeline.asking_eq] at ht
  cases ht with
  | ask answer ht =>
    cases answer with
    | error e =>
      cases ht
      refine ⟨fun q hq => ?_, fun f start' e' hf he => ?_⟩
      · rwa [List.mem_singleton.mp hq]
      · obtain rfl := Except.error.inj hf
        obtain ⟨-, rfl⟩ := PreprocessError.highlight.inj he
        exact ⟨_, List.mem_singleton_self _⟩
    | ok highlighted =>
      cases ht
      refine ⟨fun q hq => ?_, nofun⟩
      rwa [List.mem_singleton.mp hq]

end

section
variable {p : Preprocessor}

theorem accountable_enter (s : BlockState) (file : Text) (v : Node) :
    Accountable (fun call => ∃ payload language, p.CallFor v payload language call)
      (s.enter p file v) := by
  rw [BlockState.enter_eq, Node.block?]
  cases hverdict : v.verdict? p.supported with
  | none => exact accountable_pure s
  | some verdict =>
    cases verdict with
    | noCode | invalidLanguage => exact accountable_pure _
    | code source language =>
      refine (accountable_asking_adapt (exists_callFor p hverdict) s _).bind fun t => ?_
      refine Accountable.bind (accountable_mapError fun _ _ _ h => ?_) fun _ => accountable_pure _
      cases h

theorem accountable_process (content filename : Text) :
    Accountable (fun call => ∃ d, parse content = .ok d ∧ ∃ v ∈ d.nodes, ∃ payload language,
      p.CallFor v payload language call) (p.process content filename) := by
  rw [Preprocessor.process]
  cases hparse : parse content with
  | error e =>
    change Accountable _ (MonadExcept.ofExcept (.error (⟨.markup e, []⟩ : PreprocessFailure)))
    refine accountable_ofExcept fun f start e' hf he => ?_
    obtain rfl := Except.error.inj hf
    cases he
  | ok d =>
    refine Accountable.bind (x := p.visit content (Path.display filename p.baseDir) d) ?_
      fun s => ?_
    · refine Accountable.foldlM (fun v hv s => ?_) _
      intro t r ht
      obtain ⟨hdue, hblame⟩ := accountable_enter s _ v t r ht
      exact ⟨fun q hq => ⟨d, rfl, v, hv, hdue q hq⟩, hblame⟩
    · refine Accountable.bind (accountable_mapError fun _ _ _ h => ?_) fun _ => accountable_pure _
      cases h

/-- All work on a document accounts for its questions. -/
theorem accountable_asking (content : Text) (filename : Option Text) :
    Accountable (fun call => ∃ d, parse content = .ok d ∧ ∃ v ∈ d.nodes, ∃ payload language,
      p.CallFor v payload language call) (.mk (p.asking content filename)) := by
  unfold Preprocessor.asking
  split
  · exact (accountable_process content _).bind fun _ => accountable_pure _
  · exact accountable_pure none

end

/-! The questions of a run. -/

namespace Preprocessor
variable {p : Preprocessor} {content : Text}

instance (p : Preprocessor) : DecidablePred p.Highlights
  | .noCode | .invalidLanguage _ => isTrue trivial
  | .code source language =>
      match h : p.pipeline.transform source language with
      | .ok t => isTrue ⟨t, h⟩
      | .error e => isFalse fun ⟨t, ht⟩ => by
          rw [h] at ht
          cases ht

def question? (p : Preprocessor) : Verdict → Option Call
  | .code source language =>
      some (.ofLanguage (p.pipeline.prepare source language).1 language)
  | _ => none

/-- The questions that some verdicts call for, up to the first whose answer is an error. -/
def questions (p : Preprocessor) : List Verdict → List Call
  | [] => []
  | v :: vs => (p.question? v).toList ++ if p.Highlights v then p.questions vs else []

theorem asked_settle (answer : Call → Answer) (s : BlockState) (file : Text) (b : Block) :
    asked answer (s.settle p file b) = (p.question? b.verdict).toList := by
  obtain ⟨span, verdict⟩ := b
  cases verdict with
  | noCode | invalidLanguage => rfl
  | code source language =>
    have hask : asked answer (p.pipeline.asking source language) =
        [.ofLanguage (p.pipeline.prepare source language).1 language] := by
      rw [Pipeline.asking_eq, asked_bind_of_forall answer fun _ => rfl, asked_put]
    simp only [BlockState.settle, BlockState.replace]
    rw [asked_bind_of_forall answer fun t => ?_, asked_adapt, hask]
    · rfl
    · rw [asked_bind_of_forall answer fun _ => rfl, asked_ofExcept]

theorem asked_foldlM_settle {bs : List Block} (file : Text) {s : BlockState}
    (hcut : ∀ b ∈ bs, IsCut s.splicer.source b.span) :
    asked p.highlighter.answer (bs.foldlM (fun s b => s.settle p file b) s) =
      p.questions (bs.map (·.verdict)) := by
  induction bs generalizing s with
  | nil => rfl
  | cons b bs ih =>
    obtain ⟨hfirst, hrest⟩ := List.forall_mem_cons.mp hcut
    rw [List.foldlM_cons, asked_bind, asked_settle, List.map_cons, questions,
      ← BlockState.settled]
    by_cases hb : p.Highlights b.verdict
    · rw [BlockState.settled_eq_ok hfirst hb, if_pos hb, ← ih (s := s.gather p file [b]) hrest]
    · obtain ⟨source, language, e, hverdict, he⟩ := exists_of_not_highlights hb
      rw [BlockState.settled_eq_error s file hverdict he, if_neg hb]

/-- The blocks of a document are asked for in order, as far as the highlighter takes them. -/
theorem calls_asking {filename : Option Text} {d : Document}
    (hfile : shouldProcess filename content p.ignore = true) (hd : parse content = .ok d) :
    (p.asking content filename).calls p.highlighter.answer =
      p.questions ((p.blocks d).map (·.verdict)) := by
  have hprocess : asked p.highlighter.answer (p.process content (filename.getD [])) =
      p.questions ((p.blocks d).map (·.verdict)) := by
    rw [process, asked_bind, asked_ofExcept, answered_ofExcept, hd, List.nil_append]
    dsimp only [mapError_ok]
    rw [asked_bind_of_forall _ fun s => ?_, visit_eq,
      asked_foldlM_settle _ (isCut_of_parse p.supported hd), blocks]
    rw [asked_bind_of_forall _ fun _ => rfl, asked_ofExcept]
  rw [asking, if_pos hfile]
  exact (asked_bind_of_forall _ fun _ => rfl).trans hprocess

end Preprocessor

/-- The highlighter knows every language that it names, and needs to know none to detect one. -/
structure Highlighter.Knows (h : Highlighter) : Prop where
  highlight : ∀ code, ∀ language ∈ h.languages, ∀ name,
    h.highlight code language ≠ .error (.unknownLanguage name)
  detect : ∀ code names? name, h.detect code names? ≠ .error (.unknownLanguage name)

/-- Of a document's preprocessing nothing but the answers to its questions depends on the
highlighter. Each question is for an annotated block, about its code formatted or as it is, and by
name only for a language that the highlighter has and the block names first; so the name of a
language is never unknown to a highlighter that knows its own. -/
theorem markup_asks (p : Preprocessor) (content : Text) (filename : Option Text) :
    (∀ h : Highlighter, h.languages = p.highlighter.languages →
      (p.asking content filename).run h.answer =
        ({ p with highlighter := h } : Preprocessor).markup content filename) ∧
    (∀ t r, (p.asking content filename).Trace t r → ∀ q ∈ t,
      ∃ d, parse content = .ok d ∧ ∃ v ∈ d.nodes, ∃ payload language,
        p.CallFor v payload language q.1) ∧
    (p.highlighter.Knows → ∀ f, p.markup content filename = .error f →
      ∀ start name, f.error ≠ .highlight start (.unknownLanguage name)) := by
  refine ⟨fun h hlanguages => ?_,
    fun t r ht => (accountable_asking content filename t r ht).due, ?_⟩
  · rw [Preprocessor.markup, Preprocessor.asking_congr hlanguages]
  intro hknows f hf start name he
  have ht := (p.asking content filename).trace_run p.highlighter.answer
  have haccounted := accountable_asking content filename _ _ ht
  obtain ⟨call, hcall⟩ := haccounted.blame f start _ hf he
  obtain ⟨d, -, v, -, payload, language, hdue⟩ := haccounted.due _ hcall
  obtain ⟨asked, -, hpair⟩ := List.mem_map.mp hcall
  obtain ⟨rfl, hanswer⟩ := Prod.mk.inj hpair
  cases asked with
  | highlight code language =>
    obtain ⟨-, hmem, -⟩ := hdue.named code language rfl
    exact hknows.highlight code language hmem name hanswer
  | detect code names? => exact hknows.detect code names? name hanswer

/-- A highlighter with two languages, the name of one of which is also that of a dialect. It refuses
all other names, and cannot detect anything. -/
def strictHighlighter : Highlighter where
  languages := ["css", "html5"]
  highlight code name :=
    if name ∈ ["css", "html5"] then .ok ⟨code, some name, 0⟩ else .error (.unknownLanguage name)
  detect _ _ := .error (.failed .noTree)

/-- A preprocessor with that highlighter, and with a formatter for one language only. -/
def strictPreprocessor : Preprocessor where
  ignore := .predicate fun _ => false
  options := {}
  baseDir := none
  formatter code language _ :=
    if language = "css" then .ok (code ++ ['\n']) else .error ⟨"no grammar".toList, none⟩
  highlighter := strictHighlighter

def strictBlocks : List (String × Text) := [("css", ['a']), ("zig", ['c']), ("html5", ['b'])]

def strictPage : Text :=
  "<pre data-language=\"css\">\x7b'a'\x7d</pre>".toList ++
    "<pre data-language=\"zig\">\x7b'c'\x7d</pre>".toList ++
    "<pre data-language=\"html5\">\x7b'b'\x7d</pre>".toList

theorem codePage_strictBlocks : codePage strictBlocks = strictPage := by decide

theorem strictHighlighter_knows : strictHighlighter.Knows := by
  constructor
  · intro code language hlanguage name
    have hmem : language ∈ ["css", "html5"] := hlanguage
    simp only [strictHighlighter, if_pos hmem]
    nofun
  · intro code names? name
    nofun

theorem listingVerdict_strictBlocks :
    strictBlocks.map (listingVerdict strictPreprocessor.supported) =
      [.code ['a'] "css", .invalidLanguage "zig", .code ['b'] "html5"] := by
  have hnames (name : String) : strictPreprocessor.supported.contains name =
      decide (name ∈ ["css", "html5"] ∨ name ∈ alwaysSupported) :=
    Bool.eq_iff_iff.mpr (contains_ofNames.trans decide_eq_true_iff.symm)
  simp [strictBlocks, listingVerdict, hnames, alwaysSupported, autoName]

theorem ofLanguage_strict : Call.ofLanguage ['a', '\n'] "css" = .highlight ['a', '\n'] "css" ∧
    Call.ofLanguage ['b'] "html5" = .detect ['b'] (some markupHints) := by
  simp only [Call.ofLanguage, isMarkupDialect_eq]
  decide

section
open Preprocessor

theorem transform_strict_css :
    ∃ t, strictPreprocessor.pipeline.transform ['a'] "css" = .ok t := by
  have hprepare : strictPreprocessor.pipeline.prepare ['a'] "css" = (['a', '\n'], none) := rfl
  rw [Pipeline.transform_eq, hprepare, Pipeline.highlight, ofLanguage_strict.1]
  exact ⟨_, rfl⟩

theorem transform_strict_html5 :
    strictPreprocessor.pipeline.transform ['b'] "html5" = .error (.failed .noTree) := by
  have hprepare : (strictPreprocessor.pipeline.prepare ['b'] "html5").1 = ['b'] := rfl
  rw [Pipeline.transform_eq, hprepare, Pipeline.highlight, ofLanguage_strict.2]
  rfl

theorem questions_strict :
    strictPreprocessor.questions
        [.code ['a'] "css", .invalidLanguage "zig", .code ['b'] "html5"] =
      [.highlight ['a', '\n'] "css", .detect ['b'] (some markupHints)] := by
  have hcss : strictPreprocessor.question? (.code ['a'] "css") =
      some (.highlight ['a', '\n'] "css") := congrArg some ofLanguage_strict.1
  have hhtml5 : strictPreprocessor.question? (.code ['b'] "html5") =
      some (.detect ['b'] (some markupHints)) := congrArg some ofLanguage_strict.2
  have hzig : strictPreprocessor.question? (.invalidLanguage "zig") = none := rfl
  have htaken : strictPreprocessor.Highlights (.code ['a'] "css") := transform_strict_css
  have hnamed : strictPreprocessor.Highlights (.invalidLanguage "zig") := trivial
  simp only [questions, hcss, hzig, hhtml5, if_pos htaken, if_pos hnamed, ite_self]
  rfl

/-- One block is asked for by name, the next not at all, and the last by detection, which fails. -/
theorem markup_asks_strict :
    strictHighlighter.Knows ∧
      (strictPreprocessor.asking strictPage (some "page.svelte".toList)).calls
          strictHighlighter.answer =
        [.highlight ['a', '\n'] "css", .detect ['b'] (some markupHints)] ∧
      (∀ call ∈ [Call.highlight ['a', '\n'] "css", .detect ['b'] (some markupHints)],
        ∃ d, parse strictPage = .ok d ∧ ∃ v ∈ d.nodes, ∃ payload language,
          strictPreprocessor.CallFor v payload language call) ∧
      strictHighlighter.highlight ['c'] "zig" = .error (.unknownLanguage "zig") ∧
      ∃ f start, strictPreprocessor.markup strictPage (some "page.svelte".toList) = .error f ∧
        f.error = .highlight start (.failed .noTree) ∧
        ∀ start' name, f.error ≠ .highlight start' (.unknownLanguage name) := by
  obtain ⟨d, hd, hverdicts, -⟩ := exists_parse_page (p := strictPreprocessor)
    (by decide : ∀ b ∈ strictBlocks, IsListing b.1 b.2)
  rw [codePage_strictBlocks] at hd
  rw [listingVerdict_strictBlocks] at hverdicts
  have hfile : shouldProcess (some "page.svelte".toList) strictPage strictPreprocessor.ignore =
      true := by decide
  have hcalls := calls_asking hfile hd
  rw [hverdicts, questions_strict] at hcalls
  have htrace := (strictPreprocessor.asking strictPage (some "page.svelte".toList)).trace_run
    strictHighlighter.answer
  obtain ⟨-, hdue, hknown⟩ :=
    markup_asks strictPreprocessor strictPage (some "page.svelte".toList)
  obtain ⟨b₁, bs, hblocks, h₁, hrest⟩ := List.map_eq_cons_iff.mp hverdicts
  obtain ⟨b₂, bs, rfl, h₂, hrest⟩ := List.map_eq_cons_iff.mp hrest
  obtain ⟨b₃, bs, rfl, h₃, hrest⟩ := List.map_eq_cons_iff.mp hrest
  obtain rfl := List.map_eq_nil_iff.mp hrest
  have hfront : ∀ c ∈ [b₁, b₂], strictPreprocessor.Highlights c.verdict := by
    simp only [List.forall_mem_cons, h₁, h₂]
    exact ⟨transform_strict_css, trivial, nofun⟩
  have hstop := processed_eq_error "page.svelte".toList hd
    (hblocks : strictPreprocessor.blocks d = [b₁, b₂] ++ b₃ :: []) hfront h₃ transform_strict_html5
  have hmarkup := markup_eq_map hfile
  rw [Option.getD_some, hstop] at hmarkup
  refine ⟨strictHighlighter_knows, hcalls, fun call hcall => ?_, rfl, _, _, hmarkup, rfl,
    hknown strictHighlighter_knows _ hmarkup⟩
  rw [← hcalls] at hcall
  exact hdue _ _ htrace _ (List.mem_map_of_mem hcall)

end

end MarkupHighlight
