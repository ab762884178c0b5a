import MarkupHighlight.Proofs.Preprocessor.Pages
import Mathlib.Data.List.Forall2

/-!
The accounts of a run. Every annotated `pre` element of a document is either replaced or refused
with one diagnostic, in document order; nothing else is replaced, reported or changed.
-/
namespace MarkupHighlight
open Markup

def Diagnostic.isNoCode (d : Diagnostic) : Bool := d.kind = .noCode

def Diagnostic.isInvalidLanguage (d : Diagnostic) : Bool :=
  match d.kind with
  | .invalidLanguage _ _ => true
  | _ => false

/-- The node is a `pre` element that says something about its language. -/
def Markup.Node.isAnnotated (supported : SupportedLanguages) (v : Node) : Bool :=
  v.declared supported ≠ .absent

/-- What is reported about one annotated element. -/
structure Entry where
  diagnostics : List Diagnostic
  report : Option BlockReport

/-- The entry of an annotated element: refused for want of code, refused for its language, or
replaced, then perhaps with a diagnostic about its format. -/
inductive Accounts (p : Preprocessor) (file : Text) (v : Node) : Entry → Prop
  | noCode (hcode : v.code? = none) : Accounts p file v ⟨[⟨file, .noCode⟩], none⟩
  | invalidLanguage {name : String} {code : Payload} (hcode : v.code? = some code)
      (hname : v.declared p.supported = .invalid name) :
      Accounts p file v ⟨[⟨file, .invalidLanguage name (p.supported.suggest name)⟩], none⟩
  | replaced {language : String} {code : Payload} (hcode : v.code? = some code)
      (hlanguage : (v.declared p.supported).token? = some language)
      (detected : Option String) (failure : Option FormatError) :
      Accounts p file v ⟨(failure.map fun e => ⟨file, .formatFailed e⟩).toList,
        some ⟨v.span, language, detected⟩⟩

namespace Preprocessor
variable {p : Preprocessor} {file : Text}

def entry (p : Preprocessor) (file : Text) (b : Block) : Entry :=
  ⟨p.diagnose file b.verdict,
    (p.transform? b.verdict).map fun t => ⟨b.span, t.language, t.detected⟩⟩

theorem isSome_block? (supported : SupportedLanguages) (v : Node) :
    (v.block? supported).isSome = v.isAnnotated supported := by
  simp only [Node.block?, Node.verdict?, Node.isAnnotated, Option.isSome_map]
  cases v.declared supported <;> cases v.code? <;> rfl

theorem accounts_entry {v : Node} {b : Block} (hb : v.block? p.supported = some b)
    (hlight : p.Highlights b.verdict) : Accounts p file v (p.entry file b) := by
  obtain ⟨verdict, hverdict, rfl⟩ := Option.map_eq_some_iff.mp hb
  unfold Node.verdict? at hverdict
  cases hdeclared : v.declared p.supported with
  | absent =>
    rw [hdeclared] at hverdict
    cases hverdict
  | invalid name =>
    cases hcode : v.code? <;> rw [hdeclared, hcode] at hverdict <;>
      obtain rfl := Option.some.inj hverdict
    · exact .noCode hcode
    · exact .invalidLanguage hcode hdeclared
  | auto | explicit =>
    cases hcode : v.code? <;> rw [hdeclared, hcode] at hverdict <;>
      obtain rfl := Option.some.inj hverdict
    · exact .noCode hcode
    · obtain ⟨t, ht⟩ := hlight
      have hlanguage : (v.declared p.supported).token? = some t.language := by
        rw [hdeclared, (Pipeline.transform_eq_ok ht).1]
        rfl
      have : Accounts p file v _ := .replaced hcode hlanguage t.detected t.formatError
      simpa [entry, diagnose, transform?, ht, Except.toOption] using this

theorem forall₂_accounts (file : Text) (vs : List Node)
    (hlight : ∀ b ∈ vs.filterMap (Node.block? p.supported), p.Highlights b.verdict) :
    List.Forall₂ (Accounts p file) (vs.filter (Node.isAnnotated p.supported))
      ((vs.filterMap (Node.block? p.supported)).map (p.entry file)) := by
  induction vs with
  | nil => exact .nil
  | cons v vs ih =>
    have hsome := isSome_block? p.supported v
    cases hv : v.block? p.supported with
    | none =>
      rw [hv] at hsome
      rw [List.filterMap_cons_none hv] at hlight ⊢
      rw [List.filter_cons_of_neg (by simp [← hsome])]
      exact ih hlight
    | some b =>
      rw [hv] at hsome
      rw [List.filterMap_cons_some hv] at hlight ⊢
      rw [List.filter_cons_of_pos (by simp [← hsome]), List.map_cons]
      exact .cons (accounts_entry hv (hlight b (List.mem_cons_self ..)))
        (ih fun c hc => hlight c (List.mem_cons_of_mem _ hc))

/-- Each annotated element is counted once: as a block or as one of the two refusals. -/
theorem count_accounts {vs : List Node} {entries : List Entry}
    (h : List.Forall₂ (Accounts p file) vs entries) :
    (entries.filterMap (·.report)).length +
        (entries.flatMap (·.diagnostics)).countP (·.isNoCode) +
        (entries.flatMap (·.diagnostics)).countP (·.isInvalidLanguage) = vs.length := by
  induction h with
  | nil => rfl
  | @cons v entry vs entries hentry _ ih =>
    have hone : (entry.report.toList).length + entry.diagnostics.countP (·.isNoCode) +
        entry.diagnostics.countP (·.isInvalidLanguage) = 1 := by
      cases hentry with
      | noCode | invalidLanguage => rfl
      | replaced _ _ _ failure => cases failure <;> rfl
    have hlength : ((entry :: entries).filterMap (·.report)).length =
        entry.report.toList.length + (entries.filterMap (·.report)).length := by
      cases hreport : entry.report <;> simp [hreport, Nat.add_comm]
    rw [hlength, List.flatMap_cons, List.countP_append, List.countP_append, List.length_cons]
    omega

theorem exists_of_report {vs : List Node} {entries : List Entry}
    (h : List.Forall₂ (Accounts p file) vs entries) {b : BlockReport}
    (hb : b ∈ entries.filterMap (·.report)) :
    ∃ v ∈ vs, v.span = b.span ∧ (v.declared p.supported).token? = some b.language := by
  induction h with
  | nil => cases hb
  | @cons v entry vs entries hentry _ ih =>
    obtain ⟨entry', hmem, hreport⟩ := List.mem_filterMap.mp hb
    rcases List.mem_cons.mp hmem with rfl | hmem
    · cases hentry with
      | noCode | invalidLanguage => cases hreport
      | replaced _ hlanguage =>
        obtain rfl := Option.some.inj hreport
        exact ⟨v, List.mem_cons_self .., rfl, hlanguage⟩
    · obtain ⟨w, hw, hspan⟩ := ih (List.mem_filterMap.mpr ⟨entry', hmem, hreport⟩)
      exact ⟨w, List.mem_cons_of_mem _ hw, hspan⟩

theorem diagnosticsOf_eq (bs : List Block) :
    p.diagnosticsOf file bs = (bs.map (p.entry file)).flatMap (·.diagnostics) := by
  simp [diagnosticsOf, entry, List.flatMap_map]

theorem reportsOf_eq (file : Text) (bs : List Block) :
    p.reportsOf bs = (bs.map (p.entry file)).filterMap (·.report) := by
  simp only [reportsOf, List.filterMap_map]
  rfl

theorem span_editsOf (bs : List Block) :
    (p.editsOf bs).map (·.span) = (p.reportsOf bs).map (·.span) := by
  simp only [editsOf, reportsOf, List.map_filterMap, Option.map_map]
  rfl

theorem exists_of_transform? {verdict : Verdict} {t : Transformed}
    (h : p.transform? verdict = some t) :
    ∃ source language, verdict = .code source language ∧
      p.pipeline.transform source language = .ok t := by
  unfold transform? at h
  split at h
  next source language =>
    refine ⟨source, language, rfl, ?_⟩
    cases htransform : p.pipeline.transform source language with
    | error e => simp [htransform, Except.toOption] at h
    | ok t' =>
      obtain rfl : t' = t := by simpa [htransform, Except.toOption] using h
      rfl
  next => cases h

theorem exists_wrap_of_mem_editsOf {bs : List Block} {e : Edit} (h : e ∈ p.editsOf bs) :
    ∃ html, e.text = wrap html := by
  obtain ⟨b, -, he⟩ := List.mem_filterMap.mp h
  obtain ⟨t, ht, rfl⟩ := Option.map_eq_some_iff.mp he
  obtain ⟨source, language, -, htransform⟩ := exists_of_transform? ht
  exact (Pipeline.transform_eq_ok htransform).2

end Preprocessor

/-- The accounts of a run on a document: what was replaced, what was reported, and that the two
add up. -/
structure Balanced (p : Preprocessor) (file content : Text) (d : Document) (r : Processed) :
    Prop where
  /-- The replaced spans are in order and stand apart. -/
  apart : r.blocks.Pairwise fun a b => a.span.start < b.span.start ∧ a.span.stop ≤ b.span.start
  /-- Each is the span of a `pre` element with a valid language. -/
  elements : ∀ b ∈ r.blocks, ∃ v ∈ d.nodes, v.span = b.span ∧
    (v.declared p.supported).token? = some b.language
  /-- The result is the document with wrapped markup in these spans. -/
  code : ∃ edits : List Edit, edits.map (·.span) = r.blocks.map (·.span) ∧
    (∀ e ∈ edits, ∃ html, e.text = wrap html) ∧ Overwrites 0 content edits r.code
  /-- Blocks and diagnostics are those of the annotated elements, one entry each, in order. -/
  entries : ∃ entries : List Entry,
    List.Forall₂ (Accounts p file) (d.nodes.filter (Node.isAnnotated p.supported)) entries ∧
      r.blocks = entries.filterMap (·.report) ∧ r.diagnostics = entries.flatMap (·.diagnostics)
  count : r.blocks.length + r.diagnostics.countP (·.isNoCode) +
    r.diagnostics.countP (·.isInvalidLanguage) =
      (d.nodes.filter (Node.isAnnotated p.supported)).length

open Preprocessor in
/-- Whatever the formatter, the highlighter and the options, the accounts of a run balance. -/
theorem markup_balanced {p : Preprocessor} {content : Text} {filename : Option Text}
    {r : Processed} (h : p.markup content filename = .ok (some r)) :
    ∃ d, parse content = .ok d ∧
      Balanced p (Path.display (filename.getD []) p.baseDir) content d r := by
  obtain ⟨-, hprocess⟩ := markup_eq_ok_some_iff.mp h
  obtain ⟨d, hd, hr⟩ := exists_of_process hprocess
  have hentries := forall₂_accounts (Path.display (filename.getD []) p.baseDir) d.nodes
    hr.highlights
  have hspans : (p.editsOf (p.blocks d)).map (·.span) = r.blocks.map (·.span) := by
    rw [hr.blocks, span_editsOf]
  have hblocks := hr.blocks.trans (reportsOf_eq (Path.display (filename.getD []) p.baseDir) _)
  have hdiagnostics := hr.diagnostics.trans (diagnosticsOf_eq (p.blocks d))
  have hapart : ((p.editsOf (p.blocks d)).map (·.span)).Pairwise fun a b =>
      a.start < b.start ∧ a.stop ≤ b.start :=
    List.pairwise_map.mpr ((ordered_editsOf hd).and hr.code.disjoint)
  rw [hspans] at hapart
  refine ⟨d, hd, ?_⟩
  constructor
  case apart => exact List.pairwise_map.mp hapart
  case elements =>
    intro b hb
    rw [hblocks] at hb
    obtain ⟨v, hv, hspan⟩ := exists_of_report hentries hb
    exact ⟨v, (List.mem_filter.mp hv).1, hspan⟩
  case code => exact ⟨_, hspans, fun e he => exists_wrap_of_mem_editsOf he, hr.code⟩
  case entries => exact ⟨_, hentries, hblocks, hdiagnostics⟩
  case count =>
    rw [hblocks, hdiagnostics]
    exact count_accounts hentries

/-- A block that is replaced, one without code and one in a language that is not known. -/
def mixedBlocks : List (String × Text) := [("css", ['a']), ("css", []), ("zig", ['c'])]

def mixedPage : Text :=
  "<pre data-language=\"css\">\x7b'a'\x7d</pre>".toList ++
    "<pre data-language=\"css\">\x7b''\x7d</pre>".toList ++
    "<pre data-language=\"zig\">\x7b'c'\x7d</pre>".toList

theorem codePage_mixedBlocks : codePage mixedBlocks = mixedPage := by decide

open Preprocessor in
theorem listingVerdict_mixedBlocks :
    mixedBlocks.map (listingVerdict (verbatim "css").supported) =
      [.code ['a'] "css", .noCode, .invalidLanguage "zig"] := by
  have hzig : (verbatim "css").supported.contains "zig" = false := by
    rw [Bool.eq_false_iff]
    exact fun h => absurd (contains_ofNames.mp h) (by decide)
  simp [mixedBlocks, listingVerdict, contains_verbatim, hzig]

open Preprocessor in
/-- The three blocks of the page come to one report and two diagnostics. -/
theorem markup_balanced_mixed :
    ∃ r d, (verbatim "css").markup mixedPage (some "page.svelte".toList) = .ok (some r) ∧
      parse mixedPage = .ok d ∧
      Balanced (verbatim "css") (Path.display "page.svelte".toList none) mixedPage d r ∧
      r.blocks.map (·.language) = ["css"] ∧
      r.diagnostics.map (·.kind) =
        [.noCode, .invalidLanguage "zig" ((verbatim "css").supported.suggest "zig")] := by
  obtain ⟨t, ht, -⟩ := exists_transform_verbatim ['a'] "css"
  have hlight : ∀ b ∈ mixedBlocks,
      (verbatim "css").Highlights (listingVerdict (verbatim "css").supported b) := by
    rw [← List.forall_mem_map (P := (verbatim "css").Highlights), listingVerdict_mixedBlocks]
    simpa [Highlights] using ⟨t, ht⟩
  have hfile : shouldProcess (some "page.svelte".toList) (codePage mixedBlocks)
      (verbatim "css").ignore = true := shouldProcess_verbatim "css" (by decide) (by decide)
  obtain ⟨r, d, hr, hd, hyields, hverdicts⟩ := exists_markup_page (by decide) hfile hlight
  rw [codePage_mixedBlocks] at hr hd
  rw [listingVerdict_mixedBlocks] at hverdicts
  obtain ⟨d', hd', hbalanced⟩ := markup_balanced hr
  obtain rfl := Except.ok.inj (hd.symm.trans hd')
  refine ⟨r, d, hr, hd, hbalanced, ?_, ?_⟩
  · rw [hyields.blocks, map_language_reportsOf, hverdicts]
    simp [transform?, ht, Except.toOption, (Pipeline.transform_eq_ok ht).1]
  · rw [hyields.diagnostics, diagnosticsOf_eq_flatMap, hverdicts]
    simp [diagnose, ht, formatError_verbatim ht]

end MarkupHighlight
