import MarkupHighlight.Proofs.Highlight.Scoring
import MarkupHighlight.Proofs.Highlight.Totality
import Mathlib.Tactic.Choose

/-!
The language that is detected for a code: the first of the candidates with the greatest score, if
that is positive. Asked for by its name, it gives the same result (`detect_firstBest`).
-/
namespace MarkupHighlight
open Syntax

/-! The first element with the greatest score. -/

section
variable {α β : Type}

/-- No element before `c` reaches its score, and none behind it exceeds it. -/
def FirstBest (score : α → Int) (cs : List α) (c : α) : Prop :=
  ∃ before after, cs = before ++ c :: after ∧ (∀ d ∈ before, score d < score c) ∧
    ∀ d ∈ after, score d ≤ score c

theorem FirstBest.mem {score : α → Int} {cs : List α} {c : α} (h : FirstBest score cs c) :
    c ∈ cs := by
  obtain ⟨before, after, rfl, -, -⟩ := h
  exact List.mem_append_right before (List.mem_cons_self ..)

theorem FirstBest.le {score : α → Int} {cs : List α} {c d : α} (h : FirstBest score cs c)
    (hd : d ∈ cs) : score d ≤ score c := by
  obtain ⟨before, after, rfl, hbefore, hafter⟩ := h
  rcases List.mem_append.mp hd with hd | hd
  · exact Int.le_of_lt (hbefore d hd)
  · rcases List.mem_cons.mp hd with rfl | hd
    · exact Int.le_refl _
    · exact hafter d hd

/-- There is but one: of two the one behind would have to exceed the other. -/
theorem FirstBest.unique {score : α → Int} {cs : List α} {c d : α} (hc : FirstBest score cs c)
    (hd : FirstBest score cs d) : c = d := by
  obtain ⟨before, after, rfl, hbefore, hafter⟩ := hc
  obtain ⟨before', after', heq, hbefore', hafter'⟩ := hd
  rcases List.append_eq_append_iff.mp heq with ⟨as, rfl, has⟩ | ⟨as, rfl, has⟩
  · cases as with
    | nil => exact (List.cons.inj has).1
    | cons e as =>
      obtain ⟨rfl, rfl⟩ := List.cons.inj has
      have hlt := hbefore' c (by simp)
      have hle := hafter d (by simp)
      omega
  · cases as with
    | nil => exact (List.cons.inj has).1.symm
    | cons e as =>
      obtain ⟨rfl, rfl⟩ := List.cons.inj has
      have hlt := hbefore d (by simp)
      have hle := hafter' c (by simp)
      omega

/-- One more element at the end is the best only if it exceeds the best before it. -/
theorem FirstBest.concat {score : α → Int} {cs : List α} {c : α} (h : FirstBest score cs c)
    (d : α) : FirstBest score (cs ++ [d]) (if score d > score c then d else c) := by
  split
  next hlt => exact ⟨cs, [], rfl, fun x hx => Int.lt_of_le_of_lt (h.le hx) hlt, nofun⟩
  next hle =>
    obtain ⟨before, after, rfl, hbefore, hafter⟩ := h
    refine ⟨before, after ++ [d], by simp, hbefore, fun x hx => ?_⟩
    rcases List.mem_append.mp hx with hx | hx
    · exact hafter x hx
    · rw [List.mem_singleton.mp hx]
      exact Int.not_lt.mp hle

theorem FirstBest.foldl {score : α → Int} {cs : List α} {c : α} (h : FirstBest score cs c)
    (ds : List α) : FirstBest score (cs ++ ds)
      (ds.foldl (fun best next => if score next > score best then next else best) c) := by
  induction ds generalizing cs c with
  | nil => rwa [List.append_nil]
  | cons d ds ih =>
    rw [List.foldl_cons, List.append_cons]
    exact ih (h.concat d)

theorem FirstBest.of_map {score : α → Int} {score' : β → Int} {f : α → β} {cs : List α} {b : β}
    (h : FirstBest score' (cs.map f) b) (hscore : ∀ a, score' (f a) = score a) :
    ∃ c, f c = b ∧ FirstBest score cs c := by
  obtain ⟨before, after, hcs, hbefore, hafter⟩ := h
  obtain ⟨as, bs, rfl, rfl, hbs⟩ := List.map_eq_append_iff.mp hcs
  obtain ⟨c, cs, rfl, rfl, rfl⟩ := List.map_eq_cons_iff.mp hbs
  simp only [List.forall_mem_map, hscore] at hbefore hafter
  exact ⟨c, rfl, as, cs, rfl, hbefore, hafter⟩

end

theorem firstBest_of_bestCandidate? {cs : List (Language × Rendering)}
    {c : Language × Rendering} (h : bestCandidate? cs = some c) :
    FirstBest (fun c => c.2.relevance) cs c := by
  cases cs with
  | nil => cases h
  | cons d cs =>
    have hfirst : FirstBest (fun c : Language × Rendering => c.2.relevance) [d] d :=
      ⟨[], [], rfl, nofun, nofun⟩
    rw [← Option.some.inj h]
    exact hfirst.foldl cs

theorem bestCandidate?_eq_none {cs : List (Language × Rendering)} (h : bestCandidate? cs = none) :
    cs = [] := by
  cases cs with
  | nil => rfl
  | cons d cs => cases h

/-! Names of languages. -/

/-- No name of a language is another name of one before it. -/
theorem findLanguage?_name : ∀ l ∈ languages, findLanguage? l.name = some l := by
  decide +kernel

/-- The languages that are tried, in order: those of the given names, or all. -/
def candidates : Option (List String) → List Language
  | some names => names.filterMap findLanguage?
  | none => languages

theorem mem_languages_of_mem_candidates {names? : Option (List String)} {l : Language}
    (h : l ∈ candidates names?) : l ∈ languages := by
  cases names? with
  | none => exact h
  | some names =>
    obtain ⟨name, -, hname⟩ := List.mem_filterMap.mp h
    exact List.mem_of_find?_eq_some hname

/-! Detection. -/

theorem detect_eq (parse : Syntax.Parser) (code : Text) (names? : Option (List String)) :
    (grammarHighlighter parse).detect code names? =
      liftFailure (detectAmong parse code (candidates names?)) := by
  cases names? <;> rfl

/-- What is detected if every grammar colours the code. -/
theorem detectAmong_eq {parse : Syntax.Parser} {code : Text} {r : Grammar → Rendering}
    (h : ∀ g, render parse g code = .ok (r g)) (cs : List Language) :
    detectAmong parse code cs =
      match bestCandidate? (cs.map fun l => (l, r l.grammar)) with
      | some (l, r) =>
          if r.relevance > 0 then .ok (r.highlighted l) else .ok ⟨escapeHtml code, none, 0⟩
      | none => .ok ⟨escapeHtml code, none, 0⟩ := by
  have hall : renderCandidates parse code cs = .ok (cs.map fun l => (l, r l.grammar)) := by
    simp only [renderCandidates, h, Except.map]
    exact List.mapM_pure
  rw [detectAmong, hall]
  rfl

/-- A language is detected exactly if one of the candidates has a positive score. It is then the
first one with the greatest score, and the code is coloured as if it had been asked for by name;
else the code is plain text. -/
theorem detect_firstBest {trees : Grammar → Text → Tree}
    (hannounced : ∀ g source, (trees g source).Announced) (code : Text)
    (names? : Option (List String)) :
    ∃ h, (grammarHighlighter (.ofTrees trees)).detect code names? = .ok h ∧
      ((∃ name, h.language = some name) ↔
        ∃ c ∈ candidates names?, 0 < score trees c.grammar code) ∧
      (∀ name, h.language = some name → ∃ c,
        FirstBest (fun l => score trees l.grammar code) (candidates names?) c ∧ c.name = name ∧
          h.relevance = score trees c.grammar code ∧
          (grammarHighlighter (.ofTrees trees)).highlight code name = .ok h) ∧
      (h.language = none → h = ⟨escapeHtml code, none, 0⟩) := by
  choose r hr hrelevance using fun g => exists_render_score hannounced g code
  rw [detect_eq, detectAmong_eq hr]
  cases hbest : bestCandidate? ((candidates names?).map fun l => (l, r l.grammar)) with
  | none =>
    refine ⟨_, rfl, ?_, by simp, fun _ => rfl⟩
    simp [List.map_eq_nil_iff.mp (bestCandidate?_eq_none hbest)]
  | some best =>
    obtain ⟨c, rfl, hc⟩ := (firstBest_of_bestCandidate? hbest).of_map fun l =>
      hrelevance l.grammar
    simp only [hrelevance]
    by_cases hpos : 0 < score trees c.grammar code
    · have hfind := findLanguage?_name c (mem_languages_of_mem_candidates hc.mem)
      have hsame : (grammarHighlighter (.ofTrees trees)).highlight code c.name =
          .ok ((r c.grammar).highlighted c) := by
        simp only [grammarHighlighter, hfind, hr, Except.map, liftFailure]
      rw [if_pos hpos]
      refine ⟨_, rfl, iff_of_true ⟨c.name, rfl⟩ ⟨c, hc.mem, hpos⟩, ?_,
        by simp [Rendering.highlighted]⟩
      rintro name ⟨⟩
      exact ⟨c, hc, rfl, hrelevance c.grammar, hsame⟩
    · rw [if_neg hpos]
      refine ⟨_, rfl, iff_of_false (by simp) ?_, by simp, fun _ => rfl⟩
      rintro ⟨d, hd, hdpos⟩
      exact hpos (Int.lt_of_lt_of_le hdpos (hc.le hd))

/-! A declaration, in two grammars that know it and in one that reads no more of it than the number
at its end. -/

def declarationTree : Tree :=
  namedNode "program" 0 9 [namedNode "lexical_declaration" 0 9
    [.node ⟨"let", false, false, false, false, ⟨0, 3⟩, []⟩ [],
      namedNode "variable_declarator" 4 9
        [.node ⟨"identifier", true, false, false, false, ⟨4, 5⟩, [.name]⟩ [],
          .node ⟨"=", false, false, false, false, ⟨6, 7⟩, []⟩ [], namedNode "number" 8 9 []]]]

/-- The inner error has no children and does not say that it has an error. -/
def strayTree : Tree :=
  .node ⟨"document", true, false, false, true, ⟨0, 9⟩, []⟩
    [.node ⟨"ERROR", true, true, false, true, ⟨0, 7⟩, []⟩
      [.node ⟨"ERROR", true, true, false, false, ⟨0, 7⟩, []⟩ []], namedNode "number" 8 9 []]

def declarationTrees : Grammar → Text → Tree
  | .javaScript, _ | .typeScript, _ => declarationTree
  | .json, _ => strayTree
  | _, source => namedNode "program" (byteSize source) (byteSize source) []

theorem announced_declarationTrees (g : Grammar) (source : Text) :
    (declarationTrees g source).Announced := by
  unfold declarationTrees
  split
  · decide
  · decide
  · decide
  · simp [Tree.Announced, namedNode, Tree.preorder, preorderAmong, Tree.children]

/-- Other names of languages, one that is none, and a language named twice. -/
def declarationNames : List String := ["jsonc", "ts", "?", "jsx", "typescript"]

theorem candidates_declaration : candidates (some declarationNames) =
    [⟨"json", ["jsonc"], .json⟩, ⟨"typescript", ["ts", "mts", "cts"], .typeScript⟩,
      ⟨"javascript", ["js", "jsx", "mjs", "cjs"], .javaScript⟩,
      ⟨"typescript", ["ts", "mts", "cts"], .typeScript⟩] := by
  decide +kernel

/-- Two languages reach the greatest score, and the one that is named first is detected. -/
theorem detect_firstBest_declaration :
    (∀ g source, (declarationTrees g source).Announced) ∧
      ∃ h, (grammarHighlighter (.ofTrees declarationTrees)).detect "let x = 1".toList
          (some declarationNames) = .ok h ∧
        h.language = some "typescript" ∧ h.relevance = 2 ∧
          (grammarHighlighter (.ofTrees declarationTrees)).highlight "let x = 1".toList
            "typescript" = .ok h := by
  refine ⟨announced_declarationTrees, ?_⟩
  obtain ⟨h, hh, hsome, hbest, -⟩ := detect_firstBest announced_declarationTrees
    "let x = 1".toList (some declarationNames)
  have hjson : score declarationTrees .json "let x = 1".toList = -9 := by decide +kernel
  have htyped : score declarationTrees .typeScript "let x = 1".toList = 2 := by decide +kernel
  have hscript : score declarationTrees .javaScript "let x = 1".toList = 2 := by decide +kernel
  have hfirst : FirstBest (fun l => score declarationTrees l.grammar "let x = 1".toList)
      (candidates (some declarationNames))
      ⟨"typescript", ["ts", "mts", "cts"], .typeScript⟩ := by
    refine ⟨[⟨"json", ["jsonc"], .json⟩], _, candidates_declaration, ?_, ?_⟩
    · simp only [List.mem_singleton, forall_eq, hjson, htyped]
      decide
    · simp only [List.forall_mem_cons, hscript, htyped]
      exact ⟨Int.le_refl _, Int.le_refl _, nofun⟩
  obtain ⟨name, hname⟩ := hsome.mpr ⟨_, hfirst.mem, by rw [htyped]; decide⟩
  obtain ⟨c, hc, rfl, hrelevance, hsame⟩ := hbest name hname
  obtain rfl := hc.unique hfirst
  exact ⟨h, hh, hname, hrelevance.trans htyped, hsame⟩

end MarkupHighlight
