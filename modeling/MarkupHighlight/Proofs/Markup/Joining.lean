import MarkupHighlight.Proofs.Markup.Forest

/-!
Laying two documents end to end. Constructs are read alike whatever follows them, so only a text
at the end of the first and a text at the start of the second come together, and they are one text
then unless a comment or a tag starts across the seam.
-/
namespace MarkupHighlight.Markup

namespace Forest

/-- Puts a text before a forest, into the first text of it if there is one in front. -/
def putPlain (s : Text) : Forest → Forest
  | plain s' rest => plain (s ++ s') rest
  | g => plain s g

/-- The forest of two texts one after the other. Nothing must hang in the first one. -/
def join : Forest → Forest → Forest
  | nil, g => g
  | plain s rest, g => putPlain s (rest.join g)
  | leaf s v rest, g => leaf s v (rest.join g)
  | closed opening name attributes children closing rest, g =>
      closed opening name attributes children closing (rest.join g)
  | hanging opening name attributes children, _ => hanging opening name attributes children

@[simp] theorem written_putPlain (s : Text) (g : Forest) :
    (putPlain s g).written = s ++ g.written := by
  cases g <;> simp [putPlain, written]

@[simp] theorem unclosed_putPlain (s : Text) (g : Forest) :
    (putPlain s g).unclosed = g.unclosed := by
  cases g <;> rfl

theorem written_join {f : Forest} (hf : f.unclosed = []) (g : Forest) :
    (f.join g).written = f.written ++ g.written := by
  induction f with
  | nil => rfl
  | plain s rest ih => simp [join, written, ih hf]
  | leaf s v rest ih => simp [join, written, ih hf]
  | closed opening name attributes children closing rest _ ih => simp [join, written, ih hf]
  | hanging => cases hf

theorem unclosed_join {f : Forest} (hf : f.unclosed = []) (g : Forest) :
    (f.join g).unclosed = g.unclosed := by
  induction f with
  | nil => rfl
  | plain s rest ih => rw [join, unclosed_putPlain, ih hf]
  | leaf s v rest ih => exact ih hf
  | closed opening name attributes children closing rest _ ih => exact ih hf
  | hanging => cases hf

theorem Sound.putPlain {s : Text} {g : Forest} (hne : s ≠ []) (hs : isPlain s = true)
    (hg : g.Sound) (hcut : g.startsPlain = true → ∀ w ∈ cutOpenings, ¬ w <:+ s) :
    (g.putPlain s).Sound := by
  cases hg with
  | plain hne' hs' hrest hsound =>
    refine .plain (by simp [hne]) ?_ hrest hsound
    rw [isPlain_append_of_not_cut (hcut rfl), hs, hs']
    rfl
  | nil => exact .plain hne hs rfl .nil
  | leaf h hrest => exact .plain hne hs rfl (.leaf h hrest)
  | closed h h₁ h₂ h₃ h₄ => exact .plain hne hs rfl (.closed h h₁ h₂ h₃ h₄)
  | hanging h h₁ => exact .plain hne hs rfl (.hanging h h₁)

theorem startsPlain_join {f g : Forest} (hf : f.startsPlain = false) (hne : f ≠ nil) :
    (f.join g).startsPlain = false := by
  cases f with
  | nil => exact absurd rfl hne
  | plain => cases hf
  | _ => rfl

theorem Sound.join {f g : Forest} (hf : f.Sound) (hg : g.Sound)
    (hcut : ∀ w ∈ cutOpenings, ¬ w <:+ f.written) : (f.join g).Sound := by
  induction hf with
  | nil => exact hg
  | @plain s rest hne hs hrest _ ih =>
    have hsuffix : rest.written <:+ s ++ rest.written := List.suffix_append ..
    refine Sound.putPlain hne hs (ih fun w hw h => hcut w hw (h.trans hsuffix)) ?_
    intro hstart
    by_cases hnil : rest = .nil
    · subst hnil
      simpa [written] using hcut
    · rw [startsPlain_join hrest hnil] at hstart
      cases hstart
  | leaf hs _ ih =>
    exact .leaf hs (ih fun w hw h => hcut w hw (h.trans (List.suffix_append ..)))
  | @closed opening name closing attributes children rest h h₁ h₂ h₃ _ _ ih =>
    have hsuffix : rest.written <:+ opening ++ (children.written ++ (closing ++ rest.written)) :=
      ⟨opening ++ (children.written ++ closing), by simp⟩
    exact .closed h h₁ h₂ h₃ (ih fun w hw h => hcut w hw (h.trans hsuffix))
  | hanging h h₁ => exact .hanging h h₁

theorem Complete.join {f g : Forest} (hf : f.Complete) (hg : g.Complete)
    (hcut : ∀ w ∈ cutOpenings, ¬ w <:+ f.written) : (f.join g).Complete where
  sound := hf.sound.join hg.sound hcut
  unclosed := by rw [unclosed_join hf.unclosed, hg.unclosed]

end Forest

end MarkupHighlight.Markup
