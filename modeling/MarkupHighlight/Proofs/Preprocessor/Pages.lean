import MarkupHighlight.Proofs.Preprocessor.Concatenation

/-!
Pages of code blocks one after the other, each as one writes it. A page is read as its blocks in
order, which stand apart (`exists_parse_page`), so that it is processed if the highlighter takes
what its blocks call for.
-/
namespace MarkupHighlight
open Markup Script

/-- A page of blocks, given by their languages and their code. -/
def codePage (page : List (String × Text)) : Text :=
  page.flatMap fun (language, code) => codeBlock language (Delimiter.single.enclose code)

/-- What a block of a page calls for. -/
def listingVerdict (supported : SupportedLanguages) : String × Text → Verdict
  | (language, code) =>
      if code = [] then .noCode
      else if supported.contains language then .code code language
      else .invalidLanguage language

/-- Blocks that stand apart in two documents stand apart when the documents are laid end to end. -/
theorem apart_append_shift {n : Nat} {bs cs : List Block}
    (hbs : bs.Pairwise fun a b => a.span.stop ≤ b.span.start)
    (hcs : cs.Pairwise fun a b => a.span.stop ≤ b.span.start) (hn : ∀ b ∈ bs, b.span.stop ≤ n) :
    (bs ++ cs.map (Block.shift n)).Pairwise fun a b => a.span.stop ≤ b.span.start := by
  refine List.pairwise_append.mpr ⟨hbs, List.pairwise_map.mpr (hcs.imp fun hab => ?_), ?_⟩
  · exact Nat.add_le_add_left hab n
  · intro a ha b hb
    obtain ⟨c, -, rfl⟩ := List.mem_map.mp hb
    exact (hn a ha).trans (Nat.le_add_right n c.span.start)

/-- A block ends with a closing tag. -/
theorem not_suffix_codeBlock (language : String) (expression : Text) :
    ∀ w ∈ cutOpenings, ¬ w <:+ codeBlock language expression := by
  intro w hw hsuffix
  have hend : "\x7d</pre>".toList <:+ codeBlock language expression := List.suffix_append _ _
  have hshort : ∀ w ∈ cutOpenings, w.length ≤ "\x7d</pre>".toList.length ∧
      ¬ w <:+ "\x7d</pre>".toList := by decide
  obtain ⟨hlength, hnot⟩ := hshort w hw
  exact hnot (List.suffix_of_suffix_length_le hsuffix hend hlength)

namespace Preprocessor
variable {p : Preprocessor} {page : List (String × Text)}

/-! What is reported about blocks depends on what they call for. -/

theorem map_language_reportsOf (p : Preprocessor) (bs : List Block) :
    (p.reportsOf bs).map (·.language) =
      (bs.map (·.verdict)).filterMap fun v => (p.transform? v).map (·.language) := by
  simp only [reportsOf, List.map_filterMap, List.filterMap_map, Option.map_map]
  rfl

theorem diagnosticsOf_eq_flatMap (p : Preprocessor) (file : Text) (bs : List Block) :
    p.diagnosticsOf file bs = (bs.map (·.verdict)).flatMap (p.diagnose file) := by
  rw [diagnosticsOf, List.flatMap_map]

theorem exists_parse_listing {b : String × Text} (h : IsListing b.1 b.2) :
    ∃ d, parse (codeBlock b.1 (Delimiter.single.enclose b.2)) = .ok d ∧
      p.blocks d = [⟨⟨0, byteSize (codeBlock b.1 (Delimiter.single.enclose b.2))⟩,
        listingVerdict p.supported b⟩] := by
  have hparse := parse_written (Forest.Complete.nil.spelled h.spells h.language_chars)
  have hblocks := blocksAt_spelledForest h.spells p.supported b.1 .nil .nil
  rw [h.spelledVerdict?_eq] at hblocks
  rw [← written_codeBlock]
  exact ⟨_, hparse, hblocks⟩

/-- A page is read as what its blocks call for, in order. -/
theorem exists_parse_page (hpage : ∀ b ∈ page, IsListing b.1 b.2) :
    ∃ d, parse (codePage page) = .ok d ∧
      (p.blocks d).map (·.verdict) = page.map (listingVerdict p.supported) ∧
      (p.blocks d).Pairwise fun a b => a.span.stop ≤ b.span.start := by
  induction page with
  | nil => exact ⟨_, parse_written .nil, rfl, .nil⟩
  | cons b page ih =>
    obtain ⟨hfirst, hrest⟩ := List.forall_mem_cons.mp hpage
    obtain ⟨d, hd, hblocks⟩ := exists_parse_listing (p := p) hfirst
    obtain ⟨d', hd', hverdicts, hapart⟩ := ih hrest
    obtain ⟨e, he, hboth⟩ := exists_parse_append (p := p) hd hd' (not_suffix_codeBlock _ _)
    refine ⟨e, he, ?_, ?_⟩
    · simp only [hboth, hblocks, List.map_append, List.map_map, List.map_cons, ← hverdicts]
      rfl
    · rw [hboth]
      refine apart_append_shift (by rw [hblocks]; exact List.pairwise_singleton ..) hapart ?_
      intro b hb
      exact (isCut_of_parse p.supported hd b hb).stop_le

/-- A page is processed if the highlighter takes what its blocks call for. -/
theorem exists_markup_page {filename : Option Text} (hpage : ∀ b ∈ page, IsListing b.1 b.2)
    (hfile : shouldProcess filename (codePage page) p.ignore = true)
    (hlight : ∀ b ∈ page, p.Highlights (listingVerdict p.supported b)) :
    ∃ r d, p.markup (codePage page) filename = .ok (some r) ∧
      parse (codePage page) = .ok d ∧ p.Yields (codePage page) (filename.getD []) d r ∧
      (p.blocks d).map (·.verdict) = page.map (listingVerdict p.supported) := by
  obtain ⟨d, hd, hverdicts, hapart⟩ := exists_parse_page (p := p) hpage
  have hall : ∀ b ∈ p.blocks d, p.Highlights b.verdict := by
    intro b hb
    have hmem := List.mem_map_of_mem (f := (·.verdict)) hb
    rw [hverdicts] at hmem
    obtain ⟨c, hc, heq⟩ := List.mem_map.mp hmem
    exact heq ▸ hlight c hc
  have hedits : (p.editsOf (p.blocks d)).Pairwise fun x y => x.span.stop ≤ y.span.start :=
    pairwise_editsOf (R := fun s t => s.stop ≤ t.start) hapart
  obtain ⟨r, hr⟩ := exists_process_of_disjoint (filename.getD []) hd hall hedits
  obtain ⟨d', hd', hyields⟩ := exists_of_process hr
  obtain rfl := Except.ok.inj (hd.symm.trans hd')
  exact ⟨r, d, markup_eq_ok_some_iff.mpr ⟨hfile, hr⟩, hd, hyields, hverdicts⟩

end Preprocessor

end MarkupHighlight
