import MarkupHighlight.Proofs.Command.Steps
import MarkupHighlight.Proofs.FileTree.Contents
import MarkupHighlight.Proofs.Preprocessor.Settling

/-!
Files that are processed and written one after the other, some of them more than once. `Settled`
says what the files hold after some of the steps, in terms of what they held before the run; a file
that was rewritten is processed again as it would have been before, so the steps keep it
(`Settled.step`), and the order of the files is of no account (`execute_process_write`).
-/
namespace MarkupHighlight.Command

/-! One step. -/

theorem content?_of_ne_nil {tree : FileTree} {q : FilePlace} (h : contentAt tree q ≠ []) :
    tree.content? q = some (contentAt tree q) := by
  unfold contentAt at h ⊢
  cases hq : tree.content? q with
  | none => simp [hq] at h
  | some content => rfl

theorem contentAt_of_content? {tree : FileTree} {q : FilePlace} {content : Text}
    (h : tree.content? q = some content) : contentAt tree q = content := by
  rw [contentAt, h, Option.getD_some]

section
variable {p : Preprocessor} {map : Bool} {tally tally' : Tally} {t : Target}
  {tree tree' : FileTree}

/-- A step leaves the tree alone, or stores a result. -/
theorem fileStep_eq_some (h : fileStep p map tally t tree = some (tally', tree')) :
    (p.codeFor (contentAt tree t.place) t.path = some none ∧ tree' = tree ∧
      tally'.changed = tally.changed) ∨
    ∃ r, p.markup (contentAt tree t.place) (some t.path) = .ok (some r) ∧
      storeIn map t (contentAt tree t.place) r tree = some tree' ∧
      tally'.changed = tally.changed + if r.code ≠ contentAt tree t.place then 1 else 0 := by
  unfold fileStep resultStep at h
  split at h
  next => cases h
  next hmarkup =>
    obtain ⟨rfl, rfl⟩ := Prod.mk.inj (Option.some.inj h)
    exact .inl ⟨Preprocessor.codeFor_of_markup hmarkup, rfl, rfl⟩
  next r hmarkup =>
    obtain ⟨tree₁, hstore, he⟩ := Option.map_eq_some_iff.mp h
    obtain ⟨rfl, rfl⟩ := Prod.mk.inj he
    exact .inr ⟨r, hmarkup, hstore, rfl⟩

theorem fileStep_succeeded (h : fileStep p map tally t tree = some (tally', tree')) :
    p.codeFor (contentAt tree t.place) t.path ≠ none := by
  rcases fileStep_eq_some h with ⟨hnone, -⟩ | ⟨r, hmarkup, -⟩
  · rw [hnone]
    exact Option.some_ne_none _
  · rw [Preprocessor.codeFor_of_markup hmarkup]
    exact Option.some_ne_none _

theorem toOption_write_eq_some {q : FilePlace} {content : Text} :
    (tree.write q content).toOption = some tree' ↔
      tree.hasDirectory q = false ∧ tree' = tree.put q content := by
  rw [← FileTree.write_eq_ok_iff]
  cases tree.write q content <;> simp [Except.toOption]

/-- What a result that was stored leaves in the tree. -/
theorem storeIn_eq_some {content : Text} {r : Processed}
    (h : storeIn map t content r tree = some tree') :
    (r.code ≠ content → tree.hasDirectory t.place = false) ∧
      ∃ tree₁, tree₁ = (if r.code ≠ content then tree.put t.place r.code else tree) ∧
        tree' = if map then tree₁.put (mapPlace t.place) r.map.toJson else tree₁ := by
  obtain ⟨tree₁, hcode, hmap⟩ := Option.bind_eq_some_iff.mp h
  have hfirst : (r.code ≠ content → tree.hasDirectory t.place = false) ∧
      tree₁ = if r.code ≠ content then tree.put t.place r.code else tree := by
    split at hcode
    next hne =>
      rw [if_pos hne]
      obtain ⟨hfree, rfl⟩ := toOption_write_eq_some.mp hcode
      exact ⟨fun _ => hfree, rfl⟩
    next heq =>
      rw [if_neg heq]
      exact ⟨fun hne => absurd hne heq, (Option.some.inj hcode).symm⟩
  refine ⟨hfirst.1, tree₁, hfirst.2, ?_⟩
  split at hmap
  next hwanted =>
    rw [if_pos hwanted]
    exact (toOption_write_eq_some.mp hmap).2
  next hwanted =>
    rw [if_neg hwanted]
    exact (Option.some.inj hmap).symm

/-- After a step the file holds its code, and all other places but that of a map what they held. -/
theorem content?_storeIn {r : Processed}
    (h : storeIn map t (contentAt tree t.place) r tree = some tree')
    (hne : contentAt tree t.place ≠ []) {q : FilePlace} (hq : map = true → q ≠ mapPlace t.place) :
    tree'.content? q = if q = t.place then some r.code else tree.content? q := by
  obtain ⟨-, tree₁, hcode, hmap⟩ := storeIn_eq_some h
  have hkept : tree'.content? q = tree₁.content? q := by
    rw [hmap]
    split
    next hwanted => exact FileTree.content?_put_of_ne _ (hq hwanted) _
    next => rfl
  rw [hkept, hcode]
  split
  next => exact FileTree.content?_put tree t.place q r.code
  next heq =>
    split
    next hplace => rw [hplace, content?_of_ne_nil hne, not_not.mp heq]
    next => rfl

end

/-! What the steps so far have made of the tree. -/

/-- What `new` holds after the targets `done` have been processed, starting from `old`. Nothing is
said of exempt places. -/
structure Settled (p : Preprocessor) (exempt : FilePlace → Prop) (old : FileTree)
    (done : List Target) (new : FileTree) : Prop where
  succeeded : ∀ t ∈ done, ¬ exempt t.place → p.codeFor (contentAt old t.place) t.path ≠ none
  rewritten : ∀ t ∈ done, ¬ exempt t.place → ∀ code,
    p.codeFor (contentAt old t.place) t.path = some (some code) →
      new.content? t.place = some code
  kept : ∀ q, ¬ exempt q →
    (∀ t ∈ done, t.place = q → p.codeFor (contentAt old q) t.path = some none) →
      new.content? q = old.content? q

namespace Settled
variable {p : Preprocessor} {exempt : FilePlace → Prop} {old tree : FileTree}
  {done : List Target}

theorem start (p : Preprocessor) (exempt : FilePlace → Prop) (tree : FileTree) :
    Settled p exempt tree [] tree :=
  ⟨by simp, by simp, fun _ _ _ => rfl⟩

/-- A file holds what it held, or code that it has come out as. -/
theorem cases (h : Settled p exempt old done tree) {q : FilePlace} (hq : ¬ exempt q) :
    tree.content? q = old.content? q ∨
      ∃ t ∈ done, t.place = q ∧ ∃ code,
        p.codeFor (contentAt old q) t.path = some (some code) ∧ tree.content? q = some code := by
  by_cases hall : ∀ t ∈ done, t.place = q → p.codeFor (contentAt old q) t.path = some none
  · exact .inl (h.kept q hq hall)
  · simp only [not_forall] at hall
    obtain ⟨t, ht, rfl, hsome⟩ := hall
    rcases hcode : p.codeFor (contentAt old t.place) t.path with _ | _ | code
    · exact absurd hcode (h.succeeded t ht hq)
    · exact absurd hcode hsome
    · exact .inr ⟨t, ht, rfl, code, hcode, h.rewritten t ht hq code hcode⟩

/-- A file that comes out as `code` holds what it held, or that code. -/
theorem cases_of_code (h : Settled p exempt old done tree) {q : FilePlace} (hq : ¬ exempt q)
    {name code : Text} (hcode : p.codeFor (contentAt old q) name = some (some code)) :
    tree.content? q = old.content? q ∨
      contentAt tree q = code ∧
        ∃ t ∈ done, t.place = q ∧ p.codeFor (contentAt old q) t.path = some (some code) := by
  rcases h.cases hq with hkept | ⟨t, ht, hplace, code', hcode', hcontent⟩
  · exact .inl hkept
  · obtain rfl := Preprocessor.codeFor_unique hcode hcode'
    exact .inr ⟨contentAt_of_content? hcontent, t, ht, hplace, hcode'⟩

/-- What the files hold depends on which targets there are, and on nothing else. -/
theorem content?_eq {done' : List Target} {tree' : FileTree} (h : Settled p exempt old done tree)
    (h' : Settled p exempt old done' tree') (hmem : ∀ t, t ∈ done ↔ t ∈ done') {q : FilePlace}
    (hq : ¬ exempt q) : tree'.content? q = tree.content? q := by
  by_cases hall : ∀ t ∈ done, t.place = q → p.codeFor (contentAt old q) t.path = some none
  · rw [h.kept q hq hall, h'.kept q hq fun t ht => hall t ((hmem t).mpr ht)]
  · simp only [not_forall] at hall
    obtain ⟨t, ht, rfl, hsome⟩ := hall
    rcases hcode : p.codeFor (contentAt old t.place) t.path with _ | _ | code
    · exact absurd hcode (h.succeeded t ht hq)
    · exact absurd hcode hsome
    · rw [h.rewritten t ht hq code hcode, h'.rewritten t ((hmem t).mp ht) hq code hcode]

/-- Every file is processed as it would have been before the run. -/
theorem codeFor_eq (h : Settled p exempt old done tree) {q : FilePlace} (hq : ¬ exempt q)
    (name : Text) : p.codeFor (contentAt tree q) name = p.codeFor (contentAt old q) name := by
  rcases h.cases hq with hkept | ⟨t, -, -, code, hcode, hcontent⟩
  · rw [contentAt, hkept, ← contentAt]
  · rw [contentAt_of_content? hcontent, Preprocessor.codeFor_code hcode]

/-- The next step; a map that it writes goes to an exempt place. -/
theorem step {map : Bool} {tally tally' : Tally} {t : Target} {tree' : FileTree}
    (h : Settled p exempt old done tree)
    (hmap : map = true → p.codeFor (contentAt tree t.place) t.path ≠ some none →
      exempt (mapPlace t.place))
    (hstep : fileStep p map tally t tree = some (tally', tree')) :
    Settled p exempt old (done ++ [t]) tree' := by
  have hbefore := fun hq => h.codeFor_eq (q := t.place) hq t.path
  have hsucceeded : ∀ u ∈ done ++ [t], ¬ exempt u.place →
      p.codeFor (contentAt old u.place) u.path ≠ none := by
    intro u hu hq
    rcases List.mem_append.mp hu with hu | hu
    · exact h.succeeded u hu hq
    · obtain rfl := List.mem_singleton.mp hu
      rw [← hbefore hq]
      exact fileStep_succeeded hstep
  have hlast := List.mem_append_right done (List.mem_singleton_self t)
  rcases fileStep_eq_some hstep with ⟨hnone, rfl, -⟩ | ⟨r, hmarkup, hstore, -⟩
  · refine ⟨hsucceeded, fun u hu hq code hcode => ?_, fun q hq hall =>
      h.kept q hq fun u hu => hall u (List.mem_append_left _ hu)⟩
    rcases List.mem_append.mp hu with hu | hu
    · exact h.rewritten u hu hq code hcode
    · obtain rfl := List.mem_singleton.mp hu
      rw [← hbefore hq, hnone] at hcode
      cases hcode
  · have hcode : p.codeFor (contentAt tree t.place) t.path = some (some r.code) :=
      Preprocessor.codeFor_of_markup hmarkup
    have hcontent (q : FilePlace) (hq : ¬ exempt q) :
        tree'.content? q = if q = t.place then some r.code else tree.content? q := by
      refine content?_storeIn hstore (Preprocessor.ne_nil_of_codeFor hcode).1
        fun hwanted hmapPlace => hq (hmapPlace ▸ hmap hwanted ?_)
      rw [hcode]
      exact fun h => by cases h
    refine ⟨hsucceeded, fun u hu hq code hu' => ?_, fun q hq hall => ?_⟩
    · rw [hcontent u.place hq]
      split
      next hplace =>
        rw [hplace] at hq hu'
        rw [hbefore hq] at hcode
        rw [Preprocessor.codeFor_unique hcode hu']
      next hplace =>
        rcases List.mem_append.mp hu with hu | hu
        · exact h.rewritten u hu hq code hu'
        · exact absurd (congrArg Target.place (List.mem_singleton.mp hu)) hplace
    · rw [hcontent q hq]
      split
      next hplace =>
        subst hplace
        have hnone := hall t hlast rfl
        rw [← hbefore hq, hcode] at hnone
        cases hnone
      next => exact h.kept q hq fun u hu => hall u (List.mem_append_left _ hu)

end Settled

/-! All steps. -/

section
variable {p : Preprocessor} {map : Bool} {tally tally' : Tally} {tree tree' : FileTree}

/-- What each step keeps, all steps keep. -/
theorem filesRun_induct {I : List Target → Tally → FileTree → Prop} {ts : List Target}
    (hstep : ∀ done t tally tally' tree tree', t ∈ ts → I done tally tree →
      fileStep p map tally t tree = some (tally', tree') → I (done ++ [t]) tally' tree')
    {done : List Target} (h : I done tally tree)
    (hrun : filesRun p map tally tree ts = some (tally', tree')) :
    I (done ++ ts) tally' tree' := by
  induction ts generalizing done tally tree with
  | nil =>
    obtain ⟨rfl, rfl⟩ := Prod.mk.inj (Option.some.inj hrun)
    rwa [List.append_nil]
  | cons t ts ih =>
    obtain ⟨⟨tally₁, tree₁⟩, hfirst, hrest⟩ := Option.bind_eq_some_iff.mp hrun
    have hnext := hstep done t tally tally₁ tree tree₁ (List.mem_cons_self ..) h hfirst
    have hall := ih (fun done t tally tally' tree tree' ht =>
      hstep done t tally tally' tree tree' (List.mem_cons_of_mem _ ht)) hnext hrest
    rwa [List.append_assoc, List.singleton_append] at hall

/-- If each step can be taken, all can. -/
theorem exists_filesRun {I : List Target → Tally → FileTree → Prop} {ts : List Target}
    (hstep : ∀ done t tally tree, t ∈ ts → I done tally tree →
      ∃ tally' tree', fileStep p map tally t tree = some (tally', tree') ∧
        I (done ++ [t]) tally' tree')
    {done : List Target} (h : I done tally tree) :
    ∃ tally' tree', filesRun p map tally tree ts = some (tally', tree') ∧
      I (done ++ ts) tally' tree' := by
  induction ts generalizing done tally tree with
  | nil => exact ⟨tally, tree, rfl, by rwa [List.append_nil]⟩
  | cons t ts ih =>
    obtain ⟨tally₁, tree₁, hfirst, hnext⟩ := hstep done t tally tree (List.mem_cons_self ..) h
    obtain ⟨tally₂, tree₂, hrest, hall⟩ := ih (fun done t tally tree ht =>
      hstep done t tally tree (List.mem_cons_of_mem _ ht)) hnext
    refine ⟨tally₂, tree₂, ?_, by rwa [List.append_assoc, List.singleton_append] at hall⟩
    rw [filesRun, hfirst]
    exact hrest

end

end MarkupHighlight.Command
