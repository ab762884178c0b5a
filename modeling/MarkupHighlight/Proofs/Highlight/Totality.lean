import MarkupHighlight.Highlight.Highlighter

/-!
The bundled highlighter fails only where a parser does: with parsers that give a tree for every
text it colours every text in every language it knows.
-/
namespace MarkupHighlight
open Syntax

/-- Every grammar has a parser that gives a tree for every text. -/
def Syntax.Parser.Total (parse : Syntax.Parser) : Prop := ∀ g source, ∃ t, parse g source = .ok t

section
variable {embedded : EmbeddedRenderer} (g : Grammar) (source : Text)

mutual

theorem exists_renderNode (h : ∀ g source, ∃ r, embedded g source = .ok r)
    (ancestors : List Tree) : (t : Tree) → ∃ r, renderNode embedded g source ancestors t = .ok r
  | .node info children => by
      unfold renderNode
      split
      next inner _ => exact h inner _
      next =>
        obtain ⟨body, hbody⟩ := exists_renderChildren h (.node info children :: ancestors)
          info.span.stop info.span.start children
        simp only [hbody, bind, Except.bind]
        split <;> exact ⟨_, rfl⟩

theorem exists_renderChildren (h : ∀ g source, ∃ r, embedded g source = .ok r)
    (ancestors : List Tree) (stop start : Nat) :
    (ts : List Tree) → ∃ r, renderChildren embedded g source ancestors stop start ts = .ok r
  | [] => ⟨_, rfl⟩
  | t :: ts => by
      obtain ⟨first, hfirst⟩ := exists_renderNode h ancestors t
      obtain ⟨rest, hrest⟩ := exists_renderChildren h ancestors stop (max start t.span.stop) ts
      simp only [renderChildren, hfirst, hrest, bind, Except.bind]
      exact ⟨_, rfl⟩

end

theorem exists_renderTree (h : ∀ g source, ∃ r, embedded g source = .ok r) (t : Tree) :
    ∃ r, renderTree embedded g source t = .ok r := by
  obtain ⟨body, hbody⟩ := exists_renderNode g source h [] t
  simp only [renderTree, hbody, bind, Except.bind]
  exact ⟨_, rfl⟩

end

theorem exists_findLanguage {name : String} (h : name ∈ languageNames) :
    ∃ l, findLanguage? name = some l := by
  obtain ⟨l, hl, rfl⟩ := List.mem_map.mp h
  refine Option.isSome_iff_exists.mp (List.find?_isSome.mpr ⟨l, hl, ?_⟩)
  simp [Language.goesBy]

section
variable {parse : Syntax.Parser} (hparse : parse.Total)
include hparse

theorem exists_render (g : Grammar) (source : Text) : ∃ r, render parse g source = .ok r := by
  have hplain (g : Grammar) (source : Text) : ∃ r, renderPlain parse g source = .ok r := by
    obtain ⟨t, ht⟩ := hparse g source
    simp only [renderPlain, ht, bind, Except.bind]
    exact exists_renderTree g source (fun _ _ => ⟨_, rfl⟩) t
  obtain ⟨t, ht⟩ := hparse g source
  simp only [render, ht, bind, Except.bind]
  exact exists_renderTree g source hplain t

theorem exists_renderCandidates (code : Text) (candidates : List Language) :
    ∃ rs, renderCandidates parse code candidates = .ok rs := by
  unfold renderCandidates
  induction candidates with
  | nil => exact ⟨[], rfl⟩
  | cons l ls ih =>
    obtain ⟨r, hr⟩ := exists_render hparse l.grammar code
    obtain ⟨rs, hrs⟩ := ih
    rw [List.mapM_cons, hr, hrs]
    exact ⟨(l, r) :: rs, rfl⟩

theorem exists_detect (code : Text) (names? : Option (List String)) :
    ∃ h, (grammarHighlighter parse).detect code names? = .ok h := by
  have hamong (candidates : List Language) : ∃ h, detectAmong parse code candidates = .ok h := by
    obtain ⟨rs, hrs⟩ := exists_renderCandidates hparse code candidates
    simp only [detectAmong, hrs, bind, Except.bind]
    split
    next => split <;> exact ⟨_, rfl⟩
    next => exact ⟨_, rfl⟩
  simp only [grammarHighlighter]
  cases names? with
  | none =>
    obtain ⟨h, hh⟩ := hamong languages
    exact ⟨h, by simp only [hh, liftFailure]⟩
  | some names =>
    obtain ⟨h, hh⟩ := hamong (names.filterMap findLanguage?)
    exact ⟨h, by simp only [hh, liftFailure]⟩

theorem exists_highlight (code : Text) {name : String} (h : name ∈ languageNames) :
    ∃ h, (grammarHighlighter parse).highlight code name = .ok h := by
  obtain ⟨l, hl⟩ := exists_findLanguage h
  obtain ⟨r, hr⟩ := exists_render hparse l.grammar code
  exact ⟨r.highlighted l, by simp only [grammarHighlighter, hl, hr, Except.map, liftFailure]⟩

end

end MarkupHighlight
