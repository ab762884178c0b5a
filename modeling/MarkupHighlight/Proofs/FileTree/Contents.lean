import MarkupHighlight.FileTree
import Mathlib.Data.Finset.Card

/-!
What a file tree holds after a file was written: that file has the new content, and every other
place has what it had (`content?_put`). Writing to a file that is there makes no new place.
-/
namespace MarkupHighlight.FileTree

variable {t : FileTree} {p q : FilePlace} {content : Text}

theorem content?_map_self (files : List (FilePlace × Text))
    (h : (files.find? (·.1 == p)).isSome = true) (content : Text) :
    (files.map fun (q, old) => if q = p then (q, content) else (q, old)).find? (·.1 == p) =
      some (p, content) := by
  induction files with
  | nil => simp at h
  | cons f files ih =>
    by_cases hf : f.1 = p
    · simp [hf]
    · simp only [List.map_cons, List.find?_cons, hf, if_false, beq_eq_false_iff_ne.mpr hf] at h ⊢
      exact ih h

theorem content?_map_of_ne (files : List (FilePlace × Text)) (h : q ≠ p) (content : Text) :
    (files.map fun (q, old) => if q = p then (q, content) else (q, old)).find? (·.1 == q) =
      files.find? (·.1 == q) := by
  induction files with
  | nil => rfl
  | cons f files ih =>
    by_cases hf : f.1 = p
    · have hq : (p == q) = false := beq_eq_false_iff_ne.mpr (Ne.symm h)
      simp [hf, hq, ih]
    · simp [hf, List.find?_cons, ih]

theorem hasFile_eq (t : FileTree) (p : FilePlace) :
    t.hasFile p = (t.files.find? (·.1 == p)).isSome :=
  Option.isSome_map

theorem content?_put_self (t : FileTree) (p : FilePlace) (content : Text) :
    (t.put p content).content? p = some content := by
  unfold put
  split
  next h =>
    rw [hasFile_eq] at h
    rw [content?, content?_map_self _ h, Option.map_some]
  next h =>
    rw [hasFile_eq, Option.not_isSome_iff_eq_none] at h
    simp [content?, List.find?_append, h]

theorem content?_put_of_ne (t : FileTree) (h : q ≠ p) (content : Text) :
    (t.put p content).content? q = t.content? q := by
  unfold put
  split
  next => rw [content?, content?, content?_map_of_ne _ h]
  next =>
    have hp : (p == q) = false := beq_eq_false_iff_ne.mpr (Ne.symm h)
    simp [content?, List.find?_append, hp]

theorem content?_put (t : FileTree) (p q : FilePlace) (content : Text) :
    (t.put p content).content? q = if q = p then some content else t.content? q := by
  split
  next h => rw [h, content?_put_self]
  next h => exact content?_put_of_ne t h content

/-- The places of all files, in the order of the tree. -/
def places (t : FileTree) : List FilePlace := t.files.map (·.1)

theorem places_put (h : t.hasFile p = true) (content : Text) :
    (t.put p content).places = t.places := by
  rw [put, if_pos h, places, places, List.map_map]
  refine List.map_congr_left fun f _ => ?_
  by_cases hf : f.1 = p <;> simp [hf]

/-- Which directories there are depends on the places of the files alone. -/
theorem hasDirectory_eq_of_places {t' : FileTree} (h : t'.places = t.places) (p : FilePlace) :
    t'.hasDirectory p = t.hasDirectory p := by
  have hany (u : FileTree) : (u.files.any fun (q, _) => (below? p q).isSome) =
      u.places.any fun q => (below? p q).isSome := by
    rw [places, List.any_map]
    rfl
  rw [hasDirectory, hasDirectory, hany, hany, h]

theorem write_eq_ok_iff {t' : FileTree} :
    t.write p content = .ok t' ↔ t.hasDirectory p = false ∧ t' = t.put p content := by
  unfold write
  cases t.hasDirectory p <;> simp [eq_comm]

theorem content?_ne_none_iff : t.content? p ≠ none ↔ p ∈ t.places := by
  simp [content?, places]

/-- The places whose content is not the same in two trees. -/
def changedPlaces (old new : FileTree) : Finset FilePlace :=
  (old.places ++ new.places).toFinset.filter fun p => new.content? p ≠ old.content? p

theorem mem_changedPlaces {old new : FileTree} :
    p ∈ old.changedPlaces new ↔ new.content? p ≠ old.content? p := by
  rw [changedPlaces, Finset.mem_filter, List.mem_toFinset, List.mem_append]
  refine ⟨fun h => h.2, fun h => ⟨?_, h⟩⟩
  by_contra hnot
  rw [not_or, ← content?_ne_none_iff, ← content?_ne_none_iff, not_not, not_not] at hnot
  exact h (hnot.2.trans hnot.1.symm)

/-- A file that holds what it held is given a content that is new. -/
theorem card_changedPlaces_put {old new : FileTree} (h : new.content? p = old.content? p)
    (hne : old.content? p ≠ some content) :
    (old.changedPlaces (new.put p content)).card = (old.changedPlaces new).card + 1 := by
  have hinsert : old.changedPlaces (new.put p content) = insert p (old.changedPlaces new) := by
    ext q
    rw [Finset.mem_insert, mem_changedPlaces, mem_changedPlaces, content?_put]
    by_cases hq : q = p
    · subst hq
      simp [hne.symm]
    · simp [hq]
  rw [hinsert, Finset.card_insert_of_notMem]
  rw [mem_changedPlaces]
  exact fun hnot => hnot h

theorem changedPlaces_self (t : FileTree) : t.changedPlaces t = ∅ :=
  Finset.eq_empty_of_forall_notMem fun _ h => mem_changedPlaces.mp h rfl

end MarkupHighlight.FileTree
