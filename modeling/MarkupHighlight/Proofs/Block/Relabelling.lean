import MarkupHighlight.Proofs.Block.Verdict
import MarkupHighlight.Proofs.Edit.Exchanging

/-!
The blocks of a document before and after a part of it has become longer or shorter and one block
has got another verdict.
-/
namespace MarkupHighlight
open Markup

/-- The verdict on an element with the given code that asks for a language. -/
def Verdict.labelled (language : String) : Option Payload → Verdict
  | none => .noCode
  | some payload => .code payload.source language

def Block.moved (m old new : Nat) (b : Block) : Block := { b with span := b.span.moved m old new }

/-- The block where it is now; that at `s` has the given verdict. -/
def Block.relabelled (m old new : Nat) (s : Span) (w : Verdict) (b : Block) : Block :=
  ⟨b.span.moved m old new, if b.span = s then w else b.verdict⟩

/-- The blocks of a document before and after the `old` bytes from byte `m` on, which belong to the
block at `s`, have become `new` bytes. -/
structure Relabelled (m old new : Nat) (s : Span) (w w' : Verdict) (bs bs' : List Block) :
    Prop where
  clear : ∀ b ∈ bs, b.span.Clear m old
  parts : ∃ as cs, bs = as ++ ⟨s, w⟩ :: cs ∧
    bs' = as.map (.moved m old new) ++ ⟨s.moved m old new, w'⟩ :: cs.map (.moved m old new)

namespace Relabelled
variable {m old new : Nat} {s : Span} {w w' : Verdict} {bs bs' : List Block}

theorem shift (h : Relabelled m old new s w w' bs bs') (i : Nat) :
    Relabelled (i + m) old new (s.shift i) w w' (bs.map (.shift i)) (bs'.map (.shift i)) where
  clear := by
    intro b hb
    obtain ⟨c, hc, rfl⟩ := List.mem_map.mp hb
    exact (h.clear c hc).shift i
  parts := by
    obtain ⟨as, cs, rfl, rfl⟩ := h.parts
    have hmoved : Block.moved (i + m) old new ∘ Block.shift i =
        Block.shift i ∘ Block.moved m old new := by
      funext b
      simp only [Function.comp_apply, Block.moved, Block.shift, Span.moved_shift]
    refine ⟨as.map (.shift i), cs.map (.shift i), ?_, ?_⟩
    · simp [Block.shift]
    · rw [List.map_map, List.map_map, hmoved, ← List.map_map, ← List.map_map, Span.moved_shift]
      simp [Block.shift]

theorem front (h : Relabelled m old new s w w' bs bs') {l : List Block}
    (hl : ∀ b ∈ l, b.span.Clear m old) :
    Relabelled m old new s w w' (l ++ bs) (l.map (.moved m old new) ++ bs') where
  clear := List.forall_mem_append.mpr ⟨hl, h.clear⟩
  parts := by
    obtain ⟨as, cs, rfl, rfl⟩ := h.parts
    exact ⟨l ++ as, cs, by simp, by simp⟩

/-- Blocks in front of the attribute. -/
theorem before (h : Relabelled m old new s w w' bs bs') (hold : 0 < old) {l : List Block}
    (hl : ∀ b ∈ l, b.span.start ≤ b.span.stop ∧ b.span.stop ≤ m) :
    Relabelled m old new s w w' (l ++ bs) (l ++ bs') := by
  have hsame : l.map (.moved m old new) = l := by
    calc l.map (.moved m old new) = l.map id := by
          apply List.map_congr_left
          intro b hb
          have := hl b hb
          rw [Block.moved, Span.moved_of_lt (by omega) (by omega), id]
      _ = l := List.map_id l
  have hfront := h.front fun b hb => .inl (hl b hb).2
  rwa [hsame] at hfront

/-- The block, if it is one, of an element around the one that the attribute belongs to. -/
theorem around (h : Relabelled m old new s w w' bs bs') (hold : 0 < old)
    (verdict? : Option Verdict) (i : Nat) :
    Relabelled m old new s w w' ((verdict?.map (Block.mk ⟨0, m + old + i⟩)).toList ++ bs)
      ((verdict?.map (Block.mk ⟨0, m + new + i⟩)).toList ++ bs') := by
  cases verdict? with
  | none => exact h
  | some verdict =>
    have hcovers : (⟨0, m + old + i⟩ : Span).Clear m old :=
      .inr (.inr ⟨Nat.zero_le m, Nat.le_add_right _ _⟩)
    have hfront := h.front (l := [⟨⟨0, m + old + i⟩, verdict⟩])
      fun b hb => List.mem_singleton.mp hb ▸ hcovers
    rwa [List.map_singleton, Block.moved, Span.moved_around (show 0 < m + old by omega)] at hfront

/-- Blocks behind the attribute. -/
theorem behind (h : Relabelled m old new s w w' bs bs') (cs : List Block) (i : Nat) :
    Relabelled m old new s w w' (bs ++ cs.map (.shift (m + old + i)))
      (bs' ++ cs.map (.shift (m + new + i))) where
  clear := by
    refine List.forall_mem_append.mpr ⟨h.clear, fun b hb => .inr (.inl ?_)⟩
    obtain ⟨c, -, rfl⟩ := List.mem_map.mp hb
    simp only [Block.shift, Span.shift]
    omega
  parts := by
    obtain ⟨as, cs', rfl, rfl⟩ := h.parts
    have hmoved : (cs.map (Block.shift (m + old + i))).map (Block.moved m old new) =
        cs.map (Block.shift (m + new + i)) := by
      rw [List.map_map]
      congr 1
      funext b
      simp only [Function.comp_apply, Block.moved, Block.shift, Span.moved_behind]
    refine ⟨as, cs' ++ cs.map (.shift (m + old + i)), ?_, ?_⟩
    · simp
    · simp [hmoved]

/-- The block itself. -/
theorem own (hold : 0 < old) (i : Nat) (w w' : Verdict) :
    Relabelled m old new ⟨0, m + old + i⟩ w w' [⟨⟨0, m + old + i⟩, w⟩]
      [⟨⟨0, m + new + i⟩, w'⟩] where
  clear := by
    intro b hb
    rw [List.mem_singleton.mp hb]
    exact .inr (.inr ⟨Nat.zero_le m, Nat.le_add_right _ _⟩)
  parts := by
    refine ⟨[], [], rfl, ?_⟩
    rw [Span.moved_around (show 0 < m + old by omega)]
    rfl

/-- Block by block, where the blocks of the document start at different bytes. -/
theorem eq_map (h : Relabelled m old new s w w' bs bs')
    (hordered : bs.Pairwise fun a b => a.span.start < b.span.start) :
    bs' = bs.map (.relabelled m old new s w') ∧ ∀ b ∈ bs, b.span = s → b.verdict = w := by
  obtain ⟨as, cs, rfl, rfl⟩ := h.parts
  obtain ⟨-, hbehind, hbefore⟩ := List.pairwise_append.mp hordered
  have has : ∀ a ∈ as, a.span ≠ s := by
    intro a ha hspan
    have hlt := hbefore a ha _ (List.mem_cons_self ..)
    simp [hspan] at hlt
  have hcs : ∀ c ∈ cs, c.span ≠ s := by
    intro c hc hspan
    have hlt := (List.pairwise_cons.mp hbehind).1 c hc
    simp [hspan] at hlt
  have hother (b : Block) (hb : b.span ≠ s) :
      b.moved m old new = b.relabelled m old new s w' := by
    rw [Block.moved, Block.relabelled, if_neg hb]
  constructor
  · rw [List.map_append, List.map_cons, Block.relabelled, if_pos rfl,
      List.map_congr_left fun a ha => hother a (has a ha),
      List.map_congr_left fun c hc => hother c (hcs c hc)]
  · intro b hb hspan
    rcases List.mem_append.mp hb with hb | hb
    · exact absurd hspan (has b hb)
    · rcases List.mem_cons.mp hb with rfl | hb
      · rfl
      · exact absurd hspan (hcs b hb)

end Relabelled

end MarkupHighlight
