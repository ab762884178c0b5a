import MarkupHighlight.Proofs.Block.Rewriting
import MarkupHighlight.Proofs.Preprocessor.Accounting

/-!
A document that was preprocessed has nothing left to replace: it is read again, whatever text the
highlighter returned, and comes out as it went in.
-/
namespace MarkupHighlight
open Markup

namespace Preprocessor
variable {p : Preprocessor} {file : Text}

/-- The highlighted code that a verdict calls for. -/
def html? (p : Preprocessor) : Verdict → Option Text
  | .code source language =>
      (p.pipeline.highlight (p.pipeline.prepare source language).1 language).toOption.map (·.value)
  | _ => none

theorem markup_transform? (v : Verdict) :
    (p.transform? v).map (·.markup) = (p.html? v).map wrap := by
  cases v with
  | code source language =>
    simp only [transform?, html?, Pipeline.transform_eq]
    cases p.pipeline.highlight (p.pipeline.prepare source language).1 language <;> rfl
  | _ => rfl

theorem editsOf_eq_replacements (bs : List Block) : p.editsOf bs = replacements p.html? bs := by
  unfold editsOf replacements
  congr 1
  funext b
  have h := congrArg (Option.map fun markup => (⟨b.span, markup⟩ : Edit))
    (markup_transform? (p := p) b.verdict)
  rw [Option.map_map, Option.map_map] at h
  exact h

/-- A verdict that is carried out without a replacement is a refusal. -/
theorem refusal_of_html? (file : Text) {v : Verdict} (hlight : p.Highlights v)
    (h : p.html? v = none) :
    p.transform? v = none ∧ ∀ x ∈ p.diagnose file v, x.isNoCode ∨ x.isInvalidLanguage := by
  cases v with
  | noCode | invalidLanguage => simp [transform?, diagnose, Diagnostic.isNoCode,
      Diagnostic.isInvalidLanguage]
  | code source language =>
    obtain ⟨t, ht⟩ := hlight
    have := markup_transform? (p := p) (.code source language)
    simp [h, transform?, ht, Except.toOption] at this

theorem blocks_parse_written {f : Forest} {d : Document} (hf : f.Complete)
    (hd : parse f.written = .ok d) : p.blocks d = f.blocksAt p.supported 0 := by
  obtain rfl := Except.ok.inj ((parse_written hf).symm.trans hd)
  rfl

/-- A document in which no block calls for code comes out as it went in. -/
theorem exists_process_refused {content : Text} (filename : Text) {d : Document}
    (hd : parse content = .ok d) (hlight : ∀ b ∈ p.blocks d, p.Highlights b.verdict)
    (hnone : ∀ b ∈ p.blocks d, p.html? b.verdict = none) :
    ∃ q, p.processed content filename = .ok q ∧ q.code = content ∧ q.blocks = [] ∧
      p.Yields content filename d q := by
  have htransform : ∀ b ∈ p.blocks d, p.transform? b.verdict = none := fun b hb =>
    (refusal_of_html? [] (hlight b hb) (hnone b hb)).1
  have hedits : p.editsOf (p.blocks d) = [] :=
    List.filterMap_eq_nil_iff.mpr fun b hb => by rw [htransform b hb, Option.map_none]
  have hcode : Overwrites 0 content (p.editsOf (p.blocks d)) content := by
    rw [hedits]
    exact .done 0 content
  obtain ⟨q, hq, hqcode, hyields⟩ := exists_process filename hd hlight hcode
  refine ⟨q, hq, hqcode, ?_, hyields⟩
  rw [hyields.blocks]
  exact List.filterMap_eq_nil_iff.mpr fun b hb => by rw [htransform b hb, Option.map_none]

/-- The code that a run returns is a document, and each block of it is a refusal that the run has
met before. -/
theorem exists_parse_code {content filename : Text} {r : Processed}
    (h : p.processed content filename = .ok r) (hne : content ≠ []) :
    ∃ d d', parse content = .ok d ∧ p.Yields content filename d r ∧ parse r.code = .ok d' ∧
      r.code ≠ [] ∧ ∀ b ∈ p.blocks d',
        p.html? b.verdict = none ∧ p.Highlights b.verdict ∧
          ∃ c ∈ p.blocks d, c.verdict = b.verdict := by
  obtain ⟨d, hd, hr⟩ := exists_of_process h
  obtain ⟨f, hf, rfl⟩ := exists_complete hd
  have hblocks := blocks_parse_written (p := p) hf hd
  have hcode := hr.code
  rw [editsOf_eq_replacements, hblocks] at hcode
  have hwritten : r.code = (f.rewrite p.supported p.html?).written :=
    hcode.unique (overwrites_rewrite p.supported rfl hf.sound hcode.disjoint)
  obtain ⟨d', hd', hblocks'⟩ : ∃ d', parse r.code = .ok d' ∧
      p.blocks d' = (f.rewrite p.supported p.html?).blocksAt p.supported 0 := by
    rw [hwritten]
    exact ⟨_, parse_written (complete_rewrite p.supported p.html? hf), rfl⟩
  refine ⟨d, d', hd, hr, hd', ?_, fun b hb => ?_⟩
  · rw [hwritten]
    exact written_rewrite_ne_nil p.supported p.html? hf.sound hne
  · rw [hblocks'] at hb
    obtain ⟨hmem, hnone⟩ := mem_refusals.mp
      ((verdicts_rewrite_sublist p.supported rfl hf.sound).subset (List.mem_map_of_mem hb))
    obtain ⟨c, hc, hverdict⟩ := List.mem_map.mp hmem
    rw [← hblocks] at hc
    exact ⟨hnone, hverdict ▸ hr.highlights c hc, c, hc, hverdict⟩

end Preprocessor

open Preprocessor in
/-- The result of a run is a document, and a second run leaves it alone: nothing is replaced, and
what is reported are refusals that were reported before. -/
theorem markup_idempotent {p : Preprocessor} {content : Text} {filename : Option Text}
    {r : Processed} (h : p.markup content filename = .ok (some r)) :
    (∃ d, parse r.code = .ok d) ∧
      ∃ q, p.markup r.code filename = .ok (some q) ∧ q.code = r.code ∧ q.blocks = [] ∧
        ∀ x ∈ q.diagnostics, x ∈ r.diagnostics ∧ (x.isNoCode ∨ x.isInvalidLanguage) := by
  obtain ⟨hshould, hprocess⟩ := markup_eq_ok_some_iff.mp h
  obtain ⟨d, d', hd, hr, hd', hne, hrefused⟩ :=
    exists_parse_code hprocess (ne_nil_of_shouldProcess hshould)
  obtain ⟨q, hq, hcode', hnil, hyields⟩ := exists_process_refused (filename.getD []) hd'
    (fun b hb => (hrefused b hb).2.1) fun b hb => (hrefused b hb).1
  refine ⟨⟨d', hd'⟩, q, markup_eq_ok_some_iff.mpr ⟨shouldProcess_of_ne_nil hshould hne, hq⟩,
    hcode', hnil, fun x hx => ?_⟩
  rw [hyields.diagnostics] at hx
  obtain ⟨b, hb, hx⟩ := List.mem_flatMap.mp hx
  obtain ⟨hnone, hlight, c, hc, hverdict⟩ := hrefused b hb
  refine ⟨?_, (refusal_of_html? _ hlight hnone).2 x hx⟩
  rw [hr.diagnostics]
  exact List.mem_flatMap.mpr ⟨c, hc, hverdict ▸ hx⟩

open Preprocessor in
/-- The code has all that would end a template, a substitution or the element if it were not
escaped. -/
theorem markup_idempotent_css :
    ∃ r, (verbatim "css").markup
        "<pre data-language=\"css\">\x7b'\x60$\x7b</pre>'\x7d</pre>".toList
        (some "page.svelte".toList) = .ok (some r) ∧
      r.code = wrap "\x60$\x7b</pre>".toList ∧
      ∃ q, (verbatim "css").markup (wrap "\x60$\x7b</pre>".toList)
          (some "page.svelte".toList) = .ok (some q) ∧
        q.code = wrap "\x60$\x7b</pre>".toList ∧ q.blocks = [] := by
  have hliteral : IsLiteral "css" "\x60$\x7b</pre>".toList := by decide
  obtain ⟨r, hr, hcode⟩ := exists_markup_verbatim hliteral "page.svelte".toList (by decide)
  obtain ⟨-, q, hq, hqcode, hblocks, -⟩ := markup_idempotent hr
  rw [hcode] at hq hqcode
  exact ⟨r, hr, hcode, q, hq, hqcode, hblocks⟩

end MarkupHighlight
