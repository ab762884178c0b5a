import MarkupHighlight.Block.Transform

/-!
Which names a block may give, that a valid annotation gives one of them, and which of them are no
names of the highlighter: those are for code whose language is to be detected.
-/
namespace MarkupHighlight
open Markup

theorem mem_dropRepeats {a : String} {l : List String} : a ∈ dropRepeats l ↔ a ∈ l := by
  fun_induction dropRepeats l with
  | case1 b rest ih => simp [ih]
  | case2 b c rest _ ih => simp only [List.mem_cons, ih]
  | case3 => rfl

theorem contains_ofNames {names : List String} {name : String} :
    (SupportedLanguages.ofNames names).contains name = true ↔
      name ∈ names ∨ name ∈ alwaysSupported := by
  simp only [SupportedLanguages.contains, SupportedLanguages.ofNames, List.contains_iff_mem,
    mem_dropRepeats, List.mem_mergeSort, List.mem_append]

/-- A valid annotation gives a name as the first part of its value. -/
theorem exists_of_explicit {supported : SupportedLanguages} {attributes : List Attribute}
    {name : String} (h : Annotation.ofAttributes supported attributes = .explicit name) :
    ∃ a rest, findAttribute? languageAttribute.toList attributes = some a ∧
      a.value = some (.text name.toList :: rest) ∧ supported.contains name = true := by
  unfold Annotation.ofAttributes at h
  split at h
  next => cases h
  next a ha =>
    split at h
    next => cases h
    next raw rest hvalue =>
      split at h
      next => cases h
      next =>
        dsimp only at h
        split at h
        next hcontains =>
          obtain rfl := Annotation.explicit.inj h
          rw [String.toList_ofList]
          exact ⟨a, rest, ha, hvalue, hcontains⟩
        next => cases h
    next => cases h

theorem contains_of_explicit {supported : SupportedLanguages} {attributes : List Attribute}
    {name : String} (h : Annotation.ofAttributes supported attributes = .explicit name) :
    supported.contains name = true := by
  obtain ⟨_, _, _, _, hcontains⟩ := exists_of_explicit h
  exact hcontains

theorem isMarkupDialect_eq (name : String) :
    isMarkupDialect name =
      ((splitOnFirst? "svelte".toList (lowerAscii name.toList)).isSome ||
        (splitOnFirst? "html".toList (lowerAscii name.toList)).isSome) := by
  unfold isMarkupDialect String.toLower
  simp only [String.toList_map]
  rfl

/-- The names that are valid for every highlighter ask for detection. -/
theorem mem_names_of_contains {names : List String} {name : String}
    (h : (SupportedLanguages.ofNames names).contains name = true) (hauto : name ≠ autoName)
    (hdialect : ¬ isMarkupDialect name = true) : name ∈ names := by
  rcases contains_ofNames.mp h with h | h
  · exact h
  · simp only [alwaysSupported, List.mem_cons, List.not_mem_nil, or_false] at h
    rcases h with rfl | rfl | rfl
    · exact absurd (by rw [isMarkupDialect_eq]; decide) hdialect
    · exact absurd (by rw [isMarkupDialect_eq]; decide) hdialect
    · exact absurd rfl hauto

end MarkupHighlight
