import MarkupHighlight.Proofs.Markup.Joining
import MarkupHighlight.Proofs.Preprocessor.Literal

/-!
Documents laid end to end are processed each for itself: the result is that of the first followed
by that of the second, whose blocks stand as many bytes further on as the first document has.
-/
namespace MarkupHighlight
open Markup

def BlockReport.shift (n : Nat) (b : BlockReport) : BlockReport :=
  { b with span := b.span.shift n }

section
variable (supported : SupportedLanguages)

theorem blocksAt_putPlain (s : Text) (g : Forest) :
    (g.putPlain s).blocksAt supported 0 = (g.blocksAt supported 0).map (.shift (byteSize s)) := by
  cases g with
  | plain s' rest =>
    rw [Forest.putPlain, Forest.blocksAt_plain, Forest.blocksAt_plain, map_shift_shift,
      byteSize_append]
  | _ => exact Forest.blocksAt_plain supported s _

theorem blocksAt_join {f : Forest} (hf : f.Complete) (g : Forest) :
    (f.join g).blocksAt supported 0 =
      f.blocksAt supported 0 ++ (g.blocksAt supported 0).map (.shift (byteSize f.written)) := by
  obtain ⟨hsound, hunclosed⟩ := hf
  induction hsound with
  | nil => simp [Forest.join, Forest.written]
  | plain _ _ _ _ ih =>
    rw [Forest.join, blocksAt_putPlain, ih hunclosed, Forest.blocksAt_plain, Forest.written,
      List.map_append, map_shift_shift, byteSize_append]
  | leaf hs _ ih =>
    rw [Forest.join, Forest.blocksAt_leaf supported hs.covers.2, ih hunclosed,
      Forest.blocksAt_leaf supported hs.covers.2, Forest.written, List.map_append,
      map_shift_shift, byteSize_append, List.append_assoc]
  | closed _ _ _ _ _ _ ih =>
    rw [Forest.join, Forest.blocksAt_closed, ih hunclosed, Forest.blocksAt_closed, Forest.written,
      List.map_append, map_shift_shift]
    simp only [List.append_assoc, byteSize_append, Nat.add_assoc]
  | hanging => cases hunclosed

end

namespace Preprocessor
variable {p : Preprocessor}

theorem editsOf_append_shift (n : Nat) (bs cs : List Block) :
    p.editsOf (bs ++ cs.map (.shift n)) = p.editsOf bs ++ (p.editsOf cs).map (.shift n) := by
  simp only [editsOf, List.filterMap_append, List.filterMap_map, List.map_filterMap,
    Option.map_map]
  rfl

theorem reportsOf_append_shift (n : Nat) (bs cs : List Block) :
    p.reportsOf (bs ++ cs.map (.shift n)) = p.reportsOf bs ++ (p.reportsOf cs).map (.shift n) := by
  simp only [reportsOf, List.filterMap_append, List.filterMap_map, List.map_filterMap,
    Option.map_map]
  rfl

theorem diagnosticsOf_append_shift (file : Text) (n : Nat) (bs cs : List Block) :
    p.diagnosticsOf file (bs ++ cs.map (.shift n)) =
      p.diagnosticsOf file bs ++ p.diagnosticsOf file cs := by
  simp [diagnosticsOf, List.flatMap_map]

/-- The blocks of two documents laid end to end. -/
theorem exists_parse_append {first second : Text} {d d' : Document}
    (hd : parse first = .ok d) (hd' : parse second = .ok d')
    (hcut : ∀ w ∈ cutOpenings, ¬ w <:+ first) :
    ∃ e, parse (first ++ second) = .ok e ∧
      p.blocks e = p.blocks d ++ (p.blocks d').map (.shift (byteSize first)) := by
  obtain ⟨f, hf, rfl, rfl⟩ := parse_eq_ok_iff.mp hd
  obtain ⟨g, hg, rfl, rfl⟩ := parse_eq_ok_iff.mp hd'
  have hparse := parse_written (hf.join hg hcut)
  rw [Forest.written_join hf.unclosed] at hparse
  exact ⟨_, hparse, blocksAt_join p.supported hf g⟩

end Preprocessor

open Preprocessor in
/-- A run on two documents laid end to end does to each what a run on it alone does, unless the
first document ends with the start of a comment or a tag. -/
theorem markup_append {p : Preprocessor} {first second : Text} {filename : Option Text}
    {a b : Processed} (ha : p.markup first filename = .ok (some a))
    (hb : p.markup second filename = .ok (some b))
    (hcut : ∀ w ∈ cutOpenings, ¬ w <:+ first) :
    ∃ r, p.markup (first ++ second) filename = .ok (some r) ∧ r.code = a.code ++ b.code ∧
      r.blocks = a.blocks ++ b.blocks.map (.shift (byteSize first)) ∧
      r.diagnostics = a.diagnostics ++ b.diagnostics := by
  obtain ⟨hshould, ha⟩ := markup_eq_ok_some_iff.mp ha
  obtain ⟨-, hb⟩ := markup_eq_ok_some_iff.mp hb
  obtain ⟨d, hd, hyields⟩ := exists_of_process ha
  obtain ⟨d', hd', hyields'⟩ := exists_of_process hb
  obtain ⟨e, he, hblocks⟩ := exists_parse_append (p := p) hd hd' hcut
  have hlight : ∀ x ∈ p.blocks e, p.Highlights x.verdict := by
    intro x hx
    rw [hblocks] at hx
    rcases List.mem_append.mp hx with hx | hx
    · exact hyields.highlights x hx
    · obtain ⟨y, hy, rfl⟩ := List.mem_map.mp hx
      exact hyields'.highlights y hy
  have hcode := hyields.code.concat hyields'.code
  rw [← editsOf_append_shift, ← hblocks] at hcode
  obtain ⟨r, hr, hrcode, hall⟩ := exists_process (filename.getD []) he hlight hcode
  have hne : first ++ second ≠ [] :=
    List.append_ne_nil_of_left_ne_nil (ne_nil_of_shouldProcess hshould) second
  refine ⟨r, markup_eq_ok_some_iff.mpr ⟨shouldProcess_of_ne_nil hshould hne, hr⟩, hrcode, ?_, ?_⟩
  · rw [hall.blocks, hyields.blocks, hyields'.blocks, hblocks, reportsOf_append_shift]
  · rw [hall.diagnostics, hyields.diagnostics, hyields'.diagnostics, hblocks,
      diagnosticsOf_append_shift]

open Preprocessor in
theorem markup_append_css :
    ∃ r, (verbatim "css").markup ("<pre data-language=\"css\">\x7b'a'\x7d</pre>".toList ++
        "<pre data-language=\"css\">\x7b'b'\x7d</pre>".toList) (some "page.svelte".toList) =
      .ok (some r) ∧ r.code = wrap ['a'] ++ wrap ['b'] := by
  have hfirst : IsLiteral "css" ['a'] := by decide
  have hsecond : IsLiteral "css" ['b'] := by decide
  obtain ⟨a, ha, hacode⟩ := exists_markup_verbatim hfirst "page.svelte".toList (by decide)
  obtain ⟨b, hb, hbcode⟩ := exists_markup_verbatim hsecond "page.svelte".toList (by decide)
  obtain ⟨r, hr, hcode, -⟩ := markup_append ha hb (by decide)
  rw [hacode, hbcode] at hcode
  exact ⟨r, hr, hcode⟩

end MarkupHighlight
