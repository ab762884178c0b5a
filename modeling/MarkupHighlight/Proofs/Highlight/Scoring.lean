import MarkupHighlight.Proofs.Highlight.Coverage
import MarkupHighlight.Proofs.Syntax.Problems
import Mathlib.Algebra.Ring.Int.Defs

/-!
The relevance of coloured code, counted on the trees: a point for each node with a scope, in the
text itself and in the parts embedded in it, and a penalty for each error node and each missing
node (`relevance_of_render`).
-/
namespace MarkupHighlight
open Syntax

namespace Syntax

mutual

/-- The number of nodes with a scope, without those in embedded parts. -/
def Tree.scopedNodes (g : Grammar) (source : Text) (ancestors : List Tree) : Tree → Nat
  | .node info children =>
      match embeddedGrammar? g source info ancestors.head? with
      | some _ => 0
      | none =>
          scopedAmong g source (.node info children :: ancestors) children +
            (if (Scope.ofNode g info (ancestors.map Tree.info)).isSome then 1 else 0)

def scopedAmong (g : Grammar) (source : Text) (ancestors : List Tree) : List Tree → Nat
  | [] => 0
  | t :: ts => t.scopedNodes g source ancestors + scopedAmong g source ancestors ts

end

/-- What the tree of a text is worth, without those of embedded parts. -/
def Tree.ownScore (g : Grammar) (source : Text) (t : Tree) : Int :=
  t.scopedNodes g source [] - errorPenalty * t.faults.length

end Syntax

/-- The parser that gives the trees of a family. -/
def Syntax.Parser.ofTrees (trees : Grammar → Text → Tree) : Syntax.Parser :=
  fun g source => .ok (trees g source)

/-- What a text is worth in a grammar, by its tree and the trees of the parts embedded in it. -/
def score (trees : Grammar → Text → Tree) (g : Grammar) (code : Text) : Int :=
  (trees g code).ownScore g code +
    (((trees g code).embeddedParts g code none).map fun part =>
      (trees part.1 part.2).ownScore part.1 part.2).sum

theorem relevance_add (html : List Html) (r r' : Rendering) :
    (Rendering.mk html (r.scopes + r'.scopes) (r.errors + r'.errors)).relevance =
      r.relevance + r'.relevance := by
  simp only [Rendering.relevance, errorPenalty]
  omega

theorem relevance_span (html : List Html) (r : Rendering) :
    (Rendering.mk html (r.scopes + 1) r.errors).relevance = r.relevance + 1 := by
  simp only [Rendering.relevance]
  omega

section
variable {embedded : EmbeddedRenderer} {g : Grammar} {source : Text} {worth : Grammar × Text → Int}

/-- The colouring of each embedded part succeeds, and has the relevance the part is worth. -/
def WorthParts (embedded : EmbeddedRenderer) (worth : Grammar × Text → Int)
    (parts : List (Grammar × Text)) : Prop :=
  ∀ part ∈ parts, ∃ r, embedded part.1 part.2 = .ok r ∧ r.relevance = worth part

mutual

theorem renderNode_relevance (ancestors : List Tree) : (t : Tree) →
    WorthParts embedded worth (t.embeddedParts g source ancestors.head?) →
    ∃ r, renderNode embedded g source ancestors t = .ok r ∧
      r.relevance = t.scopedNodes g source ancestors +
        ((t.embeddedParts g source ancestors.head?).map worth).sum
  | .node info children, hparts => by
      unfold renderNode Tree.scopedNodes Tree.embeddedParts
      unfold Tree.embeddedParts at hparts
      cases hinner : embeddedGrammar? g source info ancestors.head? with
      | some inner =>
        rw [hinner] at hparts
        obtain ⟨r, hr, hworth⟩ := hparts _ (List.mem_singleton_self _)
        refine ⟨r, hr, ?_⟩
        simp [hworth]
      | none =>
        rw [hinner] at hparts
        obtain ⟨body, hbody, hworth⟩ := renderChildren_relevance
          (.node info children :: ancestors) info.span.stop info.span.start children hparts
        simp only [hbody, bind, Except.bind]
        cases Scope.ofNode g info (ancestors.map Tree.info) with
        | some scope =>
          refine ⟨_, rfl, ?_⟩
          rw [relevance_span, hworth]
          simp only [List.head?_cons, Option.isSome_some, if_true]
          omega
        | none => exact ⟨body, rfl, by simpa using hworth⟩

theorem renderChildren_relevance (ancestors : List Tree) (stop start : Nat) : (ts : List Tree) →
    WorthParts embedded worth (embeddedAmong g source ancestors.head? ts) →
    ∃ r, renderChildren embedded g source ancestors stop start ts = .ok r ∧
      r.relevance = scopedAmong g source ancestors ts +
        ((embeddedAmong g source ancestors.head? ts).map worth).sum
  | [], _ => by
      refine ⟨_, rfl, ?_⟩
      simp [Rendering.relevance, scopedAmong, embeddedAmong]
  | t :: ts, hparts => by
      obtain ⟨first, hfirst, hworth⟩ := renderNode_relevance ancestors t
        fun part h => hparts part (List.mem_append_left _ h)
      obtain ⟨rest, hrest, hworth'⟩ := renderChildren_relevance ancestors stop
        (max start t.span.stop) ts fun part h => hparts part (List.mem_append_right _ h)
      rw [renderChildren, hfirst, hrest]
      refine ⟨_, rfl, ?_⟩
      rw [relevance_add, hworth, hworth', scopedAmong, embeddedAmong, List.map_append,
        List.sum_append]
      omega

end

theorem renderTree_relevance {t : Tree} (hannounced : t.Announced)
    (hparts : WorthParts embedded worth (t.embeddedParts g source none)) :
    ∃ r, renderTree embedded g source t = .ok r ∧
      r.relevance = t.ownScore g source + ((t.embeddedParts g source none).map worth).sum := by
  obtain ⟨body, hbody, hworth⟩ := renderNode_relevance [] t hparts
  have hproblems : t.problems.length = t.faults.length := by
    rw [t.problems_eq_iff.mpr hannounced, List.length_map]
  rw [renderTree, hbody]
  refine ⟨_, rfl, ?_⟩
  simp only [Rendering.relevance, hproblems, Tree.ownScore, errorPenalty,
    List.head?_nil] at hworth ⊢
  omega

end

/-- The relevance of code is its score, if the grammars give a tree for every text. -/
theorem exists_render_score {trees : Grammar → Text → Tree}
    (hannounced : ∀ g source, (trees g source).Announced) (g : Grammar) (code : Text) :
    ∃ r, render (.ofTrees trees) g code = .ok r ∧ r.relevance = score trees g code := by
  refine renderTree_relevance (hannounced g code) fun part hpart => ?_
  have hplain : WorthParts (fun _ _ => .ok ⟨[], 0, 0⟩) (fun _ => 0)
      ((trees part.1 part.2).embeddedParts part.1 part.2 none) := by
    rw [Tree.embeddedParts_eq_nil (Tree.ne_html_of_mem_embeddedParts _ hpart)]
    nofun
  obtain ⟨r, hr, hworth⟩ := renderTree_relevance (hannounced part.1 part.2) hplain
  refine ⟨r, hr, ?_⟩
  rw [hworth, Tree.embeddedParts_eq_nil (Tree.ne_html_of_mem_embeddedParts _ hpart)]
  simp

end MarkupHighlight
