import MarkupHighlight.Proofs.Block.Placement

/-!
A run of the preprocessor, put in terms of the blocks of the document: it succeeds exactly if every
block can be highlighted and no two replaced blocks overlap.
-/
namespace MarkupHighlight
open Markup

namespace Preprocessor

/-- The annotated code blocks that a preprocessor sees in a document. -/
def blocks (p : Preprocessor) (d : Document) : List Block := blocksOf p.supported d.children

/-- How the result of a run follows from the blocks of the document. -/
structure Yields (p : Preprocessor) (content filename : Text) (d : Document) (r : Processed) :
    Prop where
  highlights : ∀ b ∈ p.blocks d, p.Highlights b.verdict
  code : Overwrites 0 content (p.editsOf (p.blocks d)) r.code
  diagnostics : r.diagnostics = p.diagnosticsOf (Path.display filename p.baseDir) (p.blocks d)
  blocks : r.blocks = p.reportsOf (p.blocks d)

variable {p : Preprocessor} {content filename : Text} {d : Document}

theorem editsOf_span_mem {bs : List Block} {e : Edit} (h : e ∈ p.editsOf bs) :
    ∃ b ∈ bs, e.span = b.span := by
  obtain ⟨b, hb, he⟩ := List.mem_filterMap.mp h
  obtain ⟨t, -, rfl⟩ := Option.map_eq_some_iff.mp he
  exact ⟨b, hb, rfl⟩

theorem isCut_editsOf (h : parse content = .ok d) :
    ∀ e ∈ p.editsOf (p.blocks d), IsCut content e.span := by
  intro e he
  obtain ⟨b, hb, hspan⟩ := editsOf_span_mem he
  rw [hspan]
  exact isCut_of_parse p.supported h b hb

/-- The replaced blocks are some of the blocks, in the same order. -/
theorem pairwise_editsOf {R : Span → Span → Prop} {bs : List Block}
    (h : bs.Pairwise fun a b => R a.span b.span) :
    (p.editsOf bs).Pairwise fun x y => R x.span y.span := by
  refine List.pairwise_filterMap.mpr (h.imp ?_)
  intro a b hab x hx y hy
  obtain ⟨t, -, rfl⟩ := Option.map_eq_some_iff.mp hx
  obtain ⟨t', -, rfl⟩ := Option.map_eq_some_iff.mp hy
  exact hab

theorem ordered_editsOf (h : parse content = .ok d) :
    (p.editsOf (p.blocks d)).Pairwise fun x y => x.span.start < y.span.start :=
  pairwise_editsOf (R := fun s t => s.start < t.start) (ordered_of_parse p.supported h)

/-- A run on a document that is not ignored, with the answers of the highlighter. -/
def processed (p : Preprocessor) (content filename : Text) : Except PreprocessFailure Processed :=
  answered p.highlighter.answer (p.process content filename)

theorem processed_eq (p : Preprocessor) (content filename : Text) :
    p.processed content filename = do
      let d ← (parse content).mapError fun e => ⟨.markup e, []⟩
      let s ← p.visited content (Path.display filename p.baseDir) d
      let spliced ← s.splicer.apply.mapError fun e => s.fail (.edit e)
      return ⟨spliced.code, .generate spliced content filename true, s.diagnostics, s.blocks⟩ := by
  simp only [processed, process, answered_bind, answered_ofExcept, answered_pure]
  rfl

theorem exists_of_process {r : Processed} (h : p.processed content filename = .ok r) :
    ∃ d, parse content = .ok d ∧ p.Yields content filename d r := by
  rw [processed_eq] at h
  obtain ⟨d, hparse, h⟩ := bind_eq_ok_iff.mp h
  obtain ⟨s, hvisit, h⟩ := bind_eq_ok_iff.mp h
  obtain ⟨spliced, happly, h⟩ := bind_eq_ok_iff.mp h
  obtain rfl := Except.ok.inj h
  have hd := mapError_eq_ok_iff.mp hparse
  obtain ⟨hlight, rfl⟩ := (visited_eq_ok_iff _ (isCut_of_parse p.supported hd)).mp hvisit
  exact ⟨d, hd, hlight, Splicer.overwrites_of_apply (isCut_editsOf hd) (ordered_editsOf hd)
    (mapError_eq_ok_iff.mp happly), rfl, rfl⟩

/-- A run stops at the first block whose code the highlighter refuses. What was reported for the
blocks before it stays reported. -/
theorem processed_eq_error (filename : Text) (hd : parse content = .ok d) {front back : List Block}
    {b : Block} (hblocks : p.blocks d = front ++ b :: back)
    (hfront : ∀ c ∈ front, p.Highlights c.verdict) {source : Text} {language : String}
    {e : HighlightError} (hb : b.verdict = .code source language)
    (he : p.pipeline.transform source language = .error e) :
    p.processed content filename = .error ⟨.highlight b.span.start e,
      p.diagnosticsOf (Path.display filename p.baseDir) front⟩ := by
  have hcut := isCut_of_parse p.supported hd
  have hsplit : blocksOf p.supported d.children = front ++ b :: back := hblocks
  rw [hsplit] at hcut
  have hbefore : front.foldlM (fun s b => s.settled p (Path.display filename p.baseDir) b)
      ({ splicer := { source := content } } : BlockState) = .ok _ :=
    (BlockState.foldlM_settled_eq_ok_iff fun c hc =>
      hcut c (List.mem_append_left _ hc)).mpr ⟨hfront, rfl⟩
  have hvisit : p.visited content (Path.display filename p.baseDir) d =
      .error ⟨.highlight b.span.start e,
        p.diagnosticsOf (Path.display filename p.baseDir) front⟩ := by
    simp only [visited_eq, hsplit, List.foldlM_append, hbefore, List.foldlM_cons, bind,
      Except.bind, BlockState.settled_eq_error _ _ hb he, BlockState.fail, BlockState.gather,
      List.nil_append]
  simp only [processed_eq, hd, mapError_ok, bind, Except.bind, hvisit]

theorem exists_process (filename : Text) {code : Text} (hd : parse content = .ok d)
    (hlight : ∀ b ∈ p.blocks d, p.Highlights b.verdict)
    (hcode : Overwrites 0 content (p.editsOf (p.blocks d)) code) :
    ∃ r, p.processed content filename = .ok r ∧ r.code = code ∧ p.Yields content filename d r := by
  obtain ⟨spliced, happly, rfl⟩ := Splicer.apply_eq hcode
  have hvisit := (visited_eq_ok_iff (Path.display filename p.baseDir)
    (isCut_of_parse p.supported hd)).mpr ⟨hlight, rfl⟩
  have happly' : (⟨content, p.editsOf (blocksOf p.supported d.children)⟩ : Splicer).apply =
    .ok spliced := happly
  have hprocess : p.processed content filename =
      .ok ⟨spliced.code, .generate spliced content filename true,
        p.diagnosticsOf (Path.display filename p.baseDir) (p.blocks d),
        p.reportsOf (p.blocks d)⟩ := by
    simp only [processed_eq, hd, mapError_ok, bind, Except.bind, hvisit, happly']
    rfl
  exact ⟨_, hprocess, rfl, hlight, hcode, rfl, rfl⟩

/-- If the spans of two replaced blocks overlap, the run fails with the first two that do. -/
theorem exists_process_overlap (filename : Text) (hd : parse content = .ok d)
    (hlight : ∀ b ∈ p.blocks d, p.Highlights b.verdict)
    (h : ¬ (p.editsOf (p.blocks d)).Pairwise fun x y => x.span.stop ≤ y.span.start) :
    ∃ x y, [x, y].Sublist (p.editsOf (p.blocks d)) ∧ y.span.start < x.span.stop ∧
      p.processed content filename = .error ⟨.edit (.overlap x.span y.span),
        p.diagnosticsOf (Path.display filename p.baseDir) (p.blocks d)⟩ := by
  obtain ⟨x, y, hsub, hlt, happly⟩ :=
    Splicer.apply_eq_error (isCut_editsOf hd) (ordered_editsOf hd) h
  have hvisit := (visited_eq_ok_iff (Path.display filename p.baseDir)
    (isCut_of_parse p.supported hd)).mpr ⟨hlight, rfl⟩
  have happly' : (⟨content, p.editsOf (blocksOf p.supported d.children)⟩ : Splicer).apply =
    .error (.overlap x.span y.span) := happly
  refine ⟨x, y, hsub, hlt, ?_⟩
  simp only [processed_eq, hd, mapError_ok, bind, Except.bind, hvisit, happly']
  rfl

theorem exists_process_of_disjoint (filename : Text) (hd : parse content = .ok d)
    (hlight : ∀ b ∈ p.blocks d, p.Highlights b.verdict)
    (h : (p.editsOf (p.blocks d)).Pairwise fun x y => x.span.stop ≤ y.span.start) :
    ∃ r, p.processed content filename = .ok r := by
  obtain ⟨code, hcode⟩ := exists_overwrites (a := []) (s := content)
    (by simpa using isCut_editsOf hd) (by simp) h
  obtain ⟨r, hr, -⟩ := exists_process filename hd hlight hcode
  exact ⟨r, hr⟩

end Preprocessor

theorem ne_nil_of_shouldProcess {filename : Option Text} {content : Text} {rule : IgnoreRule}
    (h : shouldProcess filename content rule = true) : content ≠ [] := by
  rintro rfl
  cases filename <;> simp [shouldProcess] at h

/-- Of the content it only matters that there is some. -/
theorem shouldProcess_of_ne_nil {filename : Option Text} {content content' : Text}
    {rule : IgnoreRule} (h : shouldProcess filename content rule = true) (hne : content' ≠ []) :
    shouldProcess filename content' rule = true := by
  cases filename with
  | none => cases h
  | some name => simp_all [shouldProcess]

theorem markup_eq (p : Preprocessor) (content : Text) (filename : Option Text) :
    p.markup content filename =
      if shouldProcess filename content p.ignore then
        (p.processed content (filename.getD [])).map some
      else .ok none := by
  rw [Preprocessor.markup, Preprocessor.asking]
  split
  next =>
    have hbind := answered_bind p.highlighter.answer (p.process content (filename.getD []))
      fun r => pure (some r)
    rw [← Preprocessor.processed] at hbind
    exact hbind.trans (by cases p.processed content (filename.getD []) <;> rfl)
  next => rfl

theorem markup_eq_map {p : Preprocessor} {content : Text} {filename : Option Text}
    (h : shouldProcess filename content p.ignore = true) :
    p.markup content filename = (p.processed content (filename.getD [])).map some := by
  rw [markup_eq, if_pos h]

theorem markup_eq_ok_some_iff {p : Preprocessor} {content : Text} {filename : Option Text}
    {r : Processed} :
    p.markup content filename = .ok (some r) ↔
      shouldProcess filename content p.ignore = true ∧
        p.processed content (filename.getD []) = .ok r := by
  rw [markup_eq]
  split
  next h =>
    cases p.processed content (filename.getD []) <;> simp [h, Except.map]
  next h => simp [h]

end MarkupHighlight
