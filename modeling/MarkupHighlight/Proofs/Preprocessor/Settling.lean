import MarkupHighlight.Proofs.Preprocessor.Idempotence

/-!
What a run means for the file alone. The code does not depend on the name of the file, except that
files of some names are left alone, and code that a run has returned is treated under every name as
the content that it came from (`codeFor_code`).
-/
namespace MarkupHighlight.Preprocessor

variable {p : Preprocessor} {content code : Text} {name other : Text} {r : Processed}

/-- The code that a document of the given name comes out as: nothing if the run fails, and no code
if the document is left alone. -/
def codeFor (p : Preprocessor) (content name : Text) : Option (Option Text) :=
  (p.markup content (some name)).toOption.map (Option.map (·.code))

theorem codeFor_of_markup {result : Option Processed}
    (h : p.markup content (some name) = .ok result) :
    p.codeFor content name = some (result.map (·.code)) := by
  rw [codeFor, h]
  rfl

theorem exists_of_codeFor {result : Option Text} (h : p.codeFor content name = some result) :
    ∃ q, p.markup content (some name) = .ok q ∧ q.map (·.code) = result := by
  unfold codeFor at h
  cases hmarkup : p.markup content (some name) with
  | error f =>
    rw [hmarkup] at h
    cases h
  | ok q =>
    rw [hmarkup] at h
    exact ⟨q, rfl, Option.some.inj h⟩

theorem exists_markup_of_codeFor (h : p.codeFor content name = some (some code)) :
    ∃ r, p.markup content (some name) = .ok (some r) ∧ r.code = code := by
  obtain ⟨q, hq, hcode⟩ := exists_of_codeFor h
  obtain ⟨r, rfl, rfl⟩ := Option.map_eq_some_iff.mp hcode
  exact ⟨r, hq, rfl⟩

theorem codeFor_eq_some_none (hsucceeded : p.codeFor content name ≠ none)
    (h : ∀ r, p.markup content (some name) ≠ .ok (some r)) :
    p.codeFor content name = some none := by
  obtain ⟨result, hresult⟩ := Option.ne_none_iff_exists'.mp hsucceeded
  obtain ⟨processed, hprocessed, rfl⟩ := exists_of_codeFor hresult
  cases processed with
  | none => exact hresult
  | some r => exact absurd hprocessed (h r)

theorem codeFor_ignored (h : shouldProcess (some name) content p.ignore = false) :
    p.codeFor content name = some none := by
  have hignored : p.markup content (some name) = .ok none := by
    rw [markup_eq, if_neg (by rw [h]; decide)]
  rw [codeFor_of_markup hignored, Option.map_none]

theorem codeFor_eq_some_some_iff :
    p.codeFor content name = some (some code) ↔
      shouldProcess (some name) content p.ignore = true ∧
        ∃ r, p.processed content name = .ok r ∧ r.code = code := by
  constructor
  · intro h
    obtain ⟨r, hr, rfl⟩ := exists_markup_of_codeFor h
    obtain ⟨hshould, hprocess⟩ := markup_eq_ok_some_iff.mp hr
    exact ⟨hshould, r, hprocess, rfl⟩
  · rintro ⟨hshould, r, hr, rfl⟩
    rw [codeFor_of_markup (markup_eq_ok_some_iff.mpr ⟨hshould, hr⟩), Option.map_some]

theorem exists_process_renamed (h : p.processed content name = .ok r) (other : Text) :
    ∃ q, p.processed content other = .ok q ∧ q.code = r.code := by
  obtain ⟨d, hd, hyields⟩ := exists_of_process h
  obtain ⟨q, hq, hcode, -⟩ := exists_process other hd hyields.highlights hyields.code
  exact ⟨q, hq, hcode⟩

theorem exists_process_settled (h : p.processed content name = .ok r) (hne : content ≠ [])
    (other : Text) : r.code ≠ [] ∧ ∃ q, p.processed r.code other = .ok q ∧ q.code = r.code := by
  obtain ⟨_, d', _, _, hd', hne', hrefused⟩ := exists_parse_code h hne
  obtain ⟨q, hq, hcode, -⟩ := exists_process_refused other hd'
    (fun b hb => (hrefused b hb).2.1) fun b hb => (hrefused b hb).1
  exact ⟨hne', q, hq, hcode⟩

theorem ne_nil_of_codeFor (h : p.codeFor content name = some (some code)) :
    content ≠ [] ∧ code ≠ [] := by
  obtain ⟨hshould, r, hr, rfl⟩ := codeFor_eq_some_some_iff.mp h
  have hne := ne_nil_of_shouldProcess hshould
  exact ⟨hne, (exists_process_settled hr hne name).1⟩

/-- A document has one code, whatever it is called. -/
theorem codeFor_unique {code' : Text} (h : p.codeFor content name = some (some code))
    (h' : p.codeFor content other = some (some code')) : code = code' := by
  obtain ⟨-, r, hr, rfl⟩ := codeFor_eq_some_some_iff.mp h
  obtain ⟨-, r', hr', rfl⟩ := codeFor_eq_some_some_iff.mp h'
  obtain ⟨q, hq, hcode⟩ := exists_process_renamed hr other
  obtain rfl := Except.ok.inj (hq.symm.trans hr')
  exact hcode.symm

/-- A file that has been rewritten is treated as it would have been before. -/
theorem codeFor_code (h : p.codeFor content name = some (some code)) (other : Text) :
    p.codeFor code other = p.codeFor content other := by
  obtain ⟨hne, hne'⟩ := ne_nil_of_codeFor h
  obtain ⟨-, r, hr, rfl⟩ := codeFor_eq_some_some_iff.mp h
  by_cases hother : shouldProcess (some other) content p.ignore = true
  · obtain ⟨q, hq, hcode⟩ := exists_process_renamed hr other
    obtain ⟨-, q', hq', hcode'⟩ := exists_process_settled hr hne other
    rw [codeFor_eq_some_some_iff.mpr ⟨hother, q, hq, hcode⟩,
      codeFor_eq_some_some_iff.mpr ⟨shouldProcess_of_ne_nil hother hne', q', hq', hcode'⟩]
  · have hother' : ¬ shouldProcess (some other) r.code p.ignore = true :=
      fun h => hother (shouldProcess_of_ne_nil h hne)
    rw [codeFor_ignored (Bool.eq_false_iff.mpr hother),
      codeFor_ignored (Bool.eq_false_iff.mpr hother')]

end MarkupHighlight.Preprocessor
