import MarkupHighlight.Format.Formatter
import MarkupHighlight.Proofs.Syntax.Problems

/-!
What becomes of the errors in the tree of some code: all of them are listed, the check fails with
the first one, and the formatter refuses the code with the place and the frame of that one
(`faults_reported`).
-/
namespace MarkupHighlight
open Syntax

/-- The tree `t` of the text `source` is what the bundled formatter looks at when it is asked to
format `code`. -/
structure FormatterTree (parse : Syntax.Parser) (code : Text) (parser : String)
    (options : FormatOptions) (source : Text) (t : Tree) : Prop where
  laidOut : Layout.normalize options code = source
  parsed : ∃ grammar, parserGrammar? parser = some grammar ∧ grammar.isMarkup = false ∧
    parse grammar source = .ok t

section
variable {parse : Syntax.Parser} {code : Text} {parser : String} {options : FormatOptions}
  {source : Text} {t : Tree}

theorem FormatterTree.layoutFormatter_ok (h : FormatterTree parse code parser options source t)
    (hcheck : t.check source = .ok ()) :
    ∃ out, layoutFormatter parse code parser options = .ok out := by
  obtain ⟨rfl, grammar, hgrammar, hmarkup, hparse⟩ := h
  simp only [layoutFormatter, hgrammar, hmarkup, hparse, hcheck, Bool.false_eq_true, if_false]
  split
  · exact ⟨_, rfl⟩
  · exact ⟨_, rfl⟩

theorem FormatterTree.layoutFormatter_error (h : FormatterTree parse code parser options source t)
    {f : Failure} (hcheck : t.check source = .error f) :
    layoutFormatter parse code parser options = .error (.ofFailure source f) := by
  obtain ⟨rfl, grammar, hgrammar, hmarkup, hparse⟩ := h
  simp only [layoutFormatter, hgrammar, hmarkup, hparse, hcheck, Bool.false_eq_true, if_false]

end

/-- What is told of the faults in the tree of `source`. -/
structure FaultsReported (source : Text) (t : Tree) : Prop where
  problems : t.problems = t.faults.map Tree.span
  /-- The root tells whether there are any, if a fault there says so of itself and nothing but
  faults makes a node say so. -/
  hasErrors : (t.isFault = true → t.hasErrors = true) → t.FlaggedOnly →
    (t.problems = [] ↔ t.hasErrors = false)
  accepted : t.check source = .ok () ↔ t.faults = []
  rejected : ∀ first rest, t.faults = first :: rest →
    t.check source = .error (.unexpectedToken first.span (lineColumn source first.span.start))
  formatted : ∀ parse code parser options, FormatterTree parse code parser options source t →
    ((∃ out, layoutFormatter parse code parser options = .ok out) ↔ t.faults = [])
  /-- The place in the message and the frame are those of the first fault in the laid out code. -/
  refused : ∀ parse code parser options, FormatterTree parse code parser options source t →
    ∀ first rest, t.faults = first :: rest →
      layoutFormatter parse code parser options = .error
        { message := "SyntaxError: Unexpected token (".toList ++
            decimal (lineColumn source first.span.start).line ++ ':' ::
            decimal (lineColumn source first.span.start).column ++ [')']
          frame := some (codeFrame source first.span) }

/-- No fault is missed where every node above one says so: the search lists them all in preorder,
and the check and the formatter report the first. -/
theorem faults_reported {t : Tree} (h : t.Announced) (source : Text) : FaultsReported source t := by
  have hproblems := t.problems_eq_iff.mpr h
  have hrefused : ∀ parse code parser options, FormatterTree parse code parser options source t →
      ∀ first rest, t.faults = first :: rest →
        layoutFormatter parse code parser options = .error (.ofFailure source
          (.unexpectedToken first.span (lineColumn source first.span.start))) :=
    fun _ _ _ _ htree _ _ hfirst =>
      htree.layoutFormatter_error (t.check_of_faults_eq_cons h hfirst source)
  exact {
    problems := hproblems
    hasErrors := by
      intro hroot honly
      rw [hproblems, List.map_eq_nil_iff]
      exact t.faults_eq_nil_iff h hroot honly
    accepted := by
      refine ⟨fun hok => ?_, fun hnone => t.check_of_faults_eq_nil h hnone source⟩
      cases hfaults : t.faults with
      | nil => rfl
      | cons first rest => cases hok.symm.trans (t.check_of_faults_eq_cons h hfaults source)
    rejected := fun _ _ hfirst => t.check_of_faults_eq_cons h hfirst source
    formatted := by
      intro parse code parser options htree
      constructor
      · rintro ⟨out, hout⟩
        cases hfaults : t.faults with
        | nil => rfl
        | cons first rest => cases hout.symm.trans (hrefused _ _ _ _ htree _ _ hfaults)
      · exact fun hnone => htree.layoutFormatter_ok (t.check_of_faults_eq_nil h hnone source)
    refused := hrefused }

/-! An object in which a key has no quotes. The error in the other one has no children and does not
say that it has an error. -/

def keyTree : Tree :=
  .node ⟨"ERROR", true, true, false, false, ⟨1, 2⟩, []⟩ []

def memberTree : Tree :=
  .node ⟨"ERROR", true, true, false, true, ⟨1, 4⟩, []⟩
    [keyTree, .node ⟨":", false, false, false, false, ⟨2, 3⟩, []⟩ [],
      .node ⟨"number", true, false, false, false, ⟨3, 4⟩, []⟩ []]

def objectTree : Tree :=
  .node ⟨"document", true, false, false, true, ⟨0, 5⟩, []⟩
    [.node ⟨"object", true, false, false, true, ⟨0, 5⟩, []⟩
      [.node ⟨"\x7b", false, false, false, false, ⟨0, 1⟩, []⟩ [], memberTree,
        .node ⟨"\x7d", false, false, false, false, ⟨4, 5⟩, []⟩ []]]

def objectParser : Syntax.Parser := fun _ _ => .ok objectTree

example : keyTree.isFault = true ∧ keyTree.info.hasError = false := by decide

theorem faults_reported_object :
    objectTree.Announced ∧ objectTree.FlaggedOnly ∧
      FormatterTree objectParser "\n  \x7ba:1\x7d".toList "json" {} "\x7ba:1\x7d".toList
        objectTree ∧
      objectTree.problems = [⟨1, 4⟩, ⟨1, 2⟩] ∧ objectTree.hasErrors = true ∧
      objectTree.check "\x7ba:1\x7d".toList = .error (.unexpectedToken ⟨1, 4⟩ ⟨1, 2⟩) ∧
      layoutFormatter objectParser "\n  \x7ba:1\x7d".toList "json" {} = .error
        { message := "SyntaxError: Unexpected token (1:2)".toList
          frame := some "> 1 | \x7ba:1\x7d\n    |  ^^^".toList } := by
  have hannounced : objectTree.Announced := by decide
  have honly : objectTree.FlaggedOnly := by decide
  have htree : FormatterTree objectParser "\n  \x7ba:1\x7d".toList "json" {}
      "\x7ba:1\x7d".toList objectTree :=
    ⟨by decide +kernel, .json, by decide +kernel, rfl, rfl⟩
  have hfaults : objectTree.faults = [memberTree, keyTree] := rfl
  have hplace : lineColumn "\x7ba:1\x7d".toList memberTree.span.start = ⟨1, 2⟩ := by decide
  have hframe : codeFrame "\x7ba:1\x7d".toList memberTree.span =
      "> 1 | \x7ba:1\x7d\n    |  ^^^".toList := by decide
  have h := faults_reported hannounced "\x7ba:1\x7d".toList
  have hproblems : objectTree.problems = [⟨1, 4⟩, ⟨1, 2⟩] := by
    rw [h.problems, hfaults]
    rfl
  refine ⟨hannounced, honly, htree, hproblems, ?_, ?_, ?_⟩
  · rw [← Bool.not_eq_false, ← h.hasErrors (by decide) honly, hproblems]
    decide
  · rw [h.rejected _ _ hfaults, hplace]
    rfl
  · rw [h.refused _ _ _ _ htree _ _ hfaults, hplace, hframe]
    rfl

end MarkupHighlight
