import MarkupHighlight.Proofs.Command.Rewriting
import MarkupHighlight.Proofs.Preprocessor.Overlap

/-!
Runs that write files and no source maps. Whatever the paths name more than once, each file holds
its own code in the end (`execute_process_write`), and each file that has changed is counted once.
-/
namespace MarkupHighlight.Command

/-- What `new` is after the targets `done` have been processed, starting from `old`, if no maps are
written: no file is added, and each file that has changed was counted once. -/
structure Written (p : Preprocessor) (old : FileTree) (done : List Target) (tally : Tally)
    (new : FileTree) : Prop extends Settled p (fun _ => False) old done new where
  places : new.places = old.places
  writable : ∀ t ∈ done, ∀ code, p.codeFor (contentAt old t.place) t.path = some (some code) →
    code ≠ contentAt old t.place → old.hasDirectory t.place = false
  counted : tally.changed = (old.changedPlaces new).card

namespace Written
variable {p : Preprocessor} {old tree tree' : FileTree} {done : List Target}
  {tally tally' : Tally} {t : Target}

theorem start (p : Preprocessor) (tree : FileTree) : Written p tree [] {} tree where
  toSettled := .start p _ tree
  places := rfl
  writable := by simp
  counted := by simp [FileTree.changedPlaces_self]

theorem step (h : Written p old done tally tree)
    (hstep : fileStep p false tally t tree = some (tally', tree')) :
    Written p old (done ++ [t]) tally' tree' := by
  have hsettled := h.toSettled.step (by simp) hstep
  have hbefore := h.codeFor_eq (q := t.place) id t.path
  have hwritable (hlast : ∀ code, p.codeFor (contentAt old t.place) t.path = some (some code) →
      code ≠ contentAt old t.place → old.hasDirectory t.place = false) :
      ∀ u ∈ done ++ [t], ∀ code, p.codeFor (contentAt old u.place) u.path = some (some code) →
        code ≠ contentAt old u.place → old.hasDirectory u.place = false := by
    intro u hu
    rcases List.mem_append.mp hu with hu | hu
    · exact h.writable u hu
    · obtain rfl := List.mem_singleton.mp hu
      exact hlast
  rcases fileStep_eq_some hstep with ⟨hnone, rfl, hcount⟩ | ⟨r, hmarkup, hstore, hcount⟩
  · refine ⟨hsettled, h.places, hwritable fun code hcode => ?_, hcount.trans h.counted⟩
    rw [← hbefore, hnone] at hcode
    cases hcode
  · have hcode : p.codeFor (contentAt tree t.place) t.path = some (some r.code) :=
      Preprocessor.codeFor_of_markup hmarkup
    have hne := (Preprocessor.ne_nil_of_codeFor hcode).1
    rw [hbefore] at hcode
    obtain ⟨hfree, tree₁, htree₁, htree'⟩ := storeIn_eq_some hstore
    obtain rfl : tree' = tree₁ := htree'
    by_cases hsame : r.code = contentAt tree t.place
    · -- the file holds its code already, perhaps from an earlier step
      rw [if_neg (not_not.mpr hsame)] at htree₁ hcount
      subst htree₁
      refine ⟨hsettled, h.places, hwritable fun code hcode' hchanged => ?_, hcount.trans h.counted⟩
      obtain rfl := Preprocessor.codeFor_unique hcode hcode'
      rcases h.cases_of_code id hcode with hkept | ⟨-, u, hu, hplace, hucode⟩
      · exact absurd (hsame.trans (by rw [contentAt, hkept, ← contentAt])) hchanged
      · rw [← hplace] at hucode hchanged ⊢
        exact h.writable u hu r.code hucode hchanged
    · -- so far the file holds what it held before the run
      have hkept : tree.content? t.place = old.content? t.place :=
        (h.cases_of_code id hcode).resolve_right fun hcontent => hsame hcontent.1.symm
      rw [if_pos hsame] at htree₁ hcount
      have hfile : tree.hasFile t.place = true := by
        rw [FileTree.hasFile, content?_of_ne_nil hne]
        rfl
      have hne' : old.content? t.place ≠ some r.code := by
        rw [← hkept, content?_of_ne_nil hne, Ne, Option.some.injEq]
        exact Ne.symm hsame
      refine ⟨hsettled, by rw [htree₁, FileTree.places_put hfile, h.places],
        hwritable fun _ _ _ => ?_, ?_⟩
      · rw [← FileTree.hasDirectory_eq_of_places h.places]
        exact hfree hsame
      · rw [hcount, htree₁, FileTree.card_changedPlaces_put hkept hne', h.counted]

/-- A step can be taken if the file can be processed and written in the state before the run. -/
theorem exists_step (h : Written p old done tally tree)
    (hsucceeded : p.codeFor (contentAt old t.place) t.path ≠ none)
    (hwritable : ∀ code, p.codeFor (contentAt old t.place) t.path = some (some code) →
      code ≠ contentAt old t.place → old.hasDirectory t.place = false) :
    ∃ tally' tree', fileStep p false tally t tree = some (tally', tree') := by
  have hbefore := h.codeFor_eq (q := t.place) id t.path
  obtain ⟨result, hresult⟩ := Option.ne_none_iff_exists'.mp hsucceeded
  obtain ⟨q, hq, rfl⟩ := Preprocessor.exists_of_codeFor (hbefore.trans hresult)
  cases q with
  | none => exact ⟨_, _, by rw [fileStep, hq]; rfl⟩
  | some r =>
    have hfree : r.code ≠ contentAt tree t.place → tree.hasDirectory t.place = false := by
      intro hne
      rw [FileTree.hasDirectory_eq_of_places h.places]
      refine hwritable r.code hresult fun hsame => hne ?_
      rcases h.cases_of_code id hresult with hkept | ⟨hcontent, -⟩
      · rw [hsame, contentAt, contentAt, hkept]
      · exact hcontent.symm
    have hstore : ∃ tree', storeIn false t (contentAt tree t.place) r tree = some tree' := by
      by_cases hne : r.code ≠ contentAt tree t.place
      · have hwrite : (tree.write t.place r.code).toOption = some (tree.put t.place r.code) :=
          toOption_write_eq_some.mpr ⟨hfree hne, rfl⟩
        exact ⟨_, by rw [storeIn, if_pos hne, hwrite]; rfl⟩
      · exact ⟨_, by rw [storeIn, if_neg hne]; rfl⟩
    obtain ⟨tree', hstore⟩ := hstore
    exact ⟨_, tree', by rw [fileStep, hq, resultStep, hstore]; rfl⟩

end Written

section
variable {p : Preprocessor} {tree tree' : FileTree} {ts : List Target} {tally : Tally}

theorem written_of_filesRun (h : filesRun p false {} tree ts = some (tally, tree')) :
    Written p tree ts tally tree' :=
  filesRun_induct (I := Written p tree)
    (fun _ _ _ _ _ _ _ hwritten hstep => hwritten.step hstep) (.start p tree) h

theorem exists_written
    (hsucceeded : ∀ t ∈ ts, p.codeFor (contentAt tree t.place) t.path ≠ none)
    (hwritable : ∀ t ∈ ts, ∀ code, p.codeFor (contentAt tree t.place) t.path = some (some code) →
      code ≠ contentAt tree t.place → tree.hasDirectory t.place = false) :
    ∃ tally tree', filesRun p false {} tree ts = some (tally, tree') ∧
      Written p tree ts tally tree' := by
  refine exists_filesRun (I := Written p tree) (fun _ t _ _ ht hwritten => ?_) (.start p tree)
  obtain ⟨tally', tree', hstep⟩ := hwritten.exists_step (hsucceeded t ht) (hwritable t ht)
  exact ⟨tally', tree', hstep, hwritten.step hstep⟩

end

/-- A run that writes and succeeds leaves each file that one of the paths has processed with the
code for what it held before, and every other file as it was. It tells how many files have changed.
Any other run over the same paths, in whatever order and however often each is named, leaves the
same files. -/
theorem execute_process_write {parse : Syntax.Parser} {env : Environment} {tree : FileTree}
    {args paths : List Text} {config : Option Text}
    (hargs : Request.ofArguments args = .run config (.process ⟨true, false, false⟩ paths))
    (hstatus : (execute parse tree args env).status = 0) :
    ∃ c ts, loadConfig env tree config = .ok c ∧ targets env tree paths = .ok ts ∧
      (∀ t ∈ ts, ∀ r,
        (preprocessor parse env c).markup (contentAt tree t.place) (some t.path) = .ok (some r) →
          (execute parse tree args env).tree.content? t.place = some r.code) ∧
      (∀ q, (∀ t ∈ ts, t.place = q → ∀ r,
        (preprocessor parse env c).markup (contentAt tree q) (some t.path) ≠ .ok (some r)) →
          (execute parse tree args env).tree.content? q = tree.content? q) ∧
      (∃ notes skipped, (execute parse tree args env).messages = notes ++
        doneLine ⟨(tree.changedPlaces (execute parse tree args env).tree).card, skipped⟩) ∧
      ∀ args' paths', Request.ofArguments args' =
          .run config (.process ⟨true, false, false⟩ paths') →
        (∀ path, path ∈ paths' ↔ path ∈ paths) →
          (execute parse tree args' env).status = 0 ∧
            ∀ q, (execute parse tree args' env).tree.content? q =
              (execute parse tree args env).tree.content? q := by
  obtain ⟨c, ts, tally, notes, hc, hts, hrun, hmessages⟩ :=
    exists_filesRun_of_status hargs hstatus
  have hwritten := written_of_filesRun hrun
  refine ⟨c, ts, hc, hts, fun t ht r hr => ?_, fun q hq => ?_, ?_,
    fun args' paths' hargs' hsame => ?_⟩
  · exact hwritten.rewritten t ht id r.code (Preprocessor.codeFor_of_markup hr)
  · refine hwritten.kept q id fun t ht hplace => ?_
    have hsucceeded := hwritten.succeeded t ht id
    rw [hplace] at hsucceeded
    exact Preprocessor.codeFor_eq_some_none hsucceeded (hq t ht hplace)
  · refine ⟨notes, tally.skipped, ?_⟩
    rw [hmessages, ← hwritten.counted]
  · obtain ⟨ts', hts'⟩ := exists_targets_iff.mpr fun path hpath =>
      exists_targets_iff.mp ⟨ts, hts⟩ path ((hsame path).mp hpath)
    have hmem : ∀ t, t ∈ ts ↔ t ∈ ts' := by
      intro t
      rw [mem_targets hts, mem_targets hts']
      simp only [hsame]
    obtain ⟨tally', tree', hrun', hwritten'⟩ := exists_written (p := preprocessor parse env c)
      (fun t ht => hwritten.succeeded t ((hmem t).mpr ht) id)
      fun t ht => hwritten.writable t ((hmem t).mpr ht)
    obtain ⟨hstatus', rfl⟩ := execute_of_filesRun hargs' hc hts' hrun'
    exact ⟨hstatus', fun q => hwritten.content?_eq hwritten'.toSettled hmem id⟩

/-! A page with one block, which goes by two paths. -/

def pageText : Text := "<pre data-language=\"css\">\x7b' '\x7d</pre>".toList

/-- The page is replaced under any name that is not ignored. -/
theorem exists_markup_page (env : Environment) (name : Text)
    (hname : shouldProcess (some name) (literalForest "css" [' '] .nil .nil).written .standard =
      true) :
    ∃ r, (preprocessor blankStyles env {}).markup pageText (some name) = .ok (some r) ∧
      r.code ≠ pageText := by
  have htotal : blankStyles.Total := fun _ _ => ⟨_, rfl⟩
  have hliteral : IsLiteral "css" [' '] := by decide
  have hlanguage : (preprocessor blankStyles env {}).supported.contains "css" = true :=
    contains_ofNames.mpr (.inl (by decide : "css" ∈ languageNames))
  obtain ⟨d, hd, hblocks⟩ := exists_parse_literal hliteral hlanguage .nil
  obtain ⟨t, ht⟩ := highlights_bundled htotal .standard ({} : Config).formatter.resolve
    (({} : Config).baseDir.or env.runDir?) d _ (hblocks ▸ List.mem_cons_self ..)
  obtain ⟨r, hr, hcode, -⟩ := exists_markup_literal hliteral hlanguage hname ht
  have hmarkup := Preprocessor.markup_transform? (p := preprocessor blankStyles env {})
    (.code [' '] "css")
  obtain ⟨html, -, hwrap⟩ : ∃ html, _ ∧ wrap html = t.markup :=
    Option.map_eq_some_iff.mp (hmarkup.symm.trans (by
      rw [Preprocessor.transform?]
      exact congrArg (fun result => (Except.toOption result).map (·.markup)) ht))
  refine ⟨r, hr, fun hsame => ?_⟩
  -- the two texts differ behind the name of the element
  have htake : (wrap html).take 5 = pageText.take 5 := by
    rw [← hsame, hcode, hwrap]
  have hwrapped : (wrap html).take 5 = "<pre>".toList := rfl
  rw [hwrapped] at htake
  exact absurd htake (by decide)

def sitePlace : FilePlace := ["site".toList, "page.svelte".toList]

/-- The page, seen from the root. -/
def siteTree : FileTree := ⟨[(sitePlace, pageText)]⟩

def siteEnvironment : Environment := { runDir? := some "/site".toList }

def siteTargets : List Target :=
  [⟨"page.svelte".toList, sitePlace⟩, ⟨"/site/page.svelte".toList, sitePlace⟩]

def siteArguments : List Text :=
  ["process".toList, "--write".toList, "page.svelte".toList, "/site/page.svelte".toList]

def reorderedArguments : List Text :=
  ["process".toList, "/site/page.svelte".toList, "-w".toList, "page.svelte".toList,
    "page.svelte".toList]

theorem status_site : (execute blankStyles siteTree siteArguments siteEnvironment).status = 0 := by
  have hargs : Request.ofArguments siteArguments = .run none
      (.process ⟨true, false, false⟩ ["page.svelte".toList, "/site/page.svelte".toList]) := by
    decide
  have hsucceeded : ∀ t ∈ siteTargets, (preprocessor blankStyles siteEnvironment {}).codeFor
      (contentAt siteTree t.place) t.path ≠ none := by
    have hsome (name : Text) (hname : shouldProcess (some name)
        (literalForest "css" [' '] .nil .nil).written .standard = true) :
        (preprocessor blankStyles siteEnvironment {}).codeFor (contentAt siteTree sitePlace)
          name ≠ none := by
      obtain ⟨r, hr, -⟩ := exists_markup_page siteEnvironment name hname
      have hcontent : contentAt siteTree sitePlace = pageText := rfl
      rw [hcontent, Preprocessor.codeFor_of_markup hr]
      exact Option.some_ne_none _
    simp only [siteTargets, List.forall_mem_cons]
    exact ⟨hsome _ (by decide), hsome _ (by decide), by simp⟩
  have hfree : ∀ t ∈ siteTargets, siteTree.hasDirectory t.place = false := by decide
  obtain ⟨tally, tree', hrun, -⟩ := exists_written hsucceeded fun t ht _ _ _ => hfree t ht
  exact (execute_of_filesRun hargs rfl rfl hrun).1

/-- The page goes by a path from the run directory and by one from the root. -/
theorem execute_process_write_twice :
    (execute blankStyles siteTree siteArguments siteEnvironment).status = 0 ∧
      (∃ r, (preprocessor blankStyles siteEnvironment {}).markup (contentAt siteTree sitePlace)
          (some "page.svelte".toList) = .ok (some r) ∧
        (execute blankStyles siteTree siteArguments siteEnvironment).tree.content? sitePlace =
          some r.code) ∧
      (∃ notes skipped, (execute blankStyles siteTree siteArguments siteEnvironment).messages =
        notes ++ doneLine ⟨(siteTree.changedPlaces
          (execute blankStyles siteTree siteArguments siteEnvironment).tree).card, skipped⟩) ∧
      (execute blankStyles siteTree reorderedArguments siteEnvironment).status = 0 ∧
      ∀ q, (execute blankStyles siteTree reorderedArguments siteEnvironment).tree.content? q =
        (execute blankStyles siteTree siteArguments siteEnvironment).tree.content? q := by
  have hargs : Request.ofArguments siteArguments = .run none
      (.process ⟨true, false, false⟩ ["page.svelte".toList, "/site/page.svelte".toList]) := by
    decide
  obtain ⟨c, ts, hc, hts, hrewritten, -, hmessages, hothers⟩ :=
    execute_process_write hargs status_site
  obtain rfl : {} = c := Except.ok.inj hc
  obtain rfl : siteTargets = ts := Except.ok.inj hts
  obtain ⟨r, hr, -⟩ := exists_markup_page siteEnvironment "page.svelte".toList (by decide)
  have hothers := hothers reorderedArguments
    ["/site/page.svelte".toList, "page.svelte".toList, "page.svelte".toList] (by decide)
    fun path => by
      simp only [List.mem_cons, List.not_mem_nil, or_false, or_self]
      exact or_comm
  exact ⟨status_site, ⟨r, hr, hrewritten _ (List.mem_cons_self ..) r hr⟩, hmessages, hothers⟩

end MarkupHighlight.Command
