import MarkupHighlight.Proofs.Command.Writing
import MarkupHighlight.Proofs.FileTree.Locating

/-!
The source maps that a run leaves beside the files. A map is written whenever its file is
processed, so the one that stays is that of the last time: of the original content if the file was
processed once, and of the code that was written first if it was processed again
(`execute_process_map`).
-/
namespace MarkupHighlight.Command

/-! Places of maps. -/

theorem mapPlace_concat (dir : FilePlace) (name : Text) :
    mapPlace (dir ++ [name]) = dir ++ [name ++ ".map".toList] := by
  rw [mapPlace, List.dropLast_concat, List.getLast?_concat, Option.getD_some]

theorem mapPlace_ne (q : FilePlace) : mapPlace q ≠ q := by
  rcases List.eq_nil_or_concat q with rfl | ⟨dir, name, rfl⟩
  · exact List.cons_ne_nil _ _
  · rw [List.concat_eq_append, mapPlace_concat]
    intro h
    obtain ⟨-, hname⟩ := List.append_inj' h rfl
    have hlength := congrArg List.length (List.cons.inj hname).1
    rw [List.length_append] at hlength
    exact absurd hlength (by simp)

/-- Files with a name have maps of their own. -/
theorem mapPlace_injective {q q' : FilePlace} (hq : q.getLast? ≠ some [])
    (hq' : q'.getLast? ≠ some []) (h : mapPlace q = mapPlace q') : q = q' := by
  have hroot {dir : FilePlace} {name : Text} (hname : (dir ++ [name]).getLast? ≠ some []) :
      mapPlace (dir ++ [name]) ≠ mapPlace [] := by
    rw [mapPlace_concat]
    intro h
    have hsame : dir ++ [name ++ ".map".toList] = [] ++ [".map".toList] := h
    obtain ⟨-, hlast⟩ := List.append_inj' hsame rfl
    refine hname ?_
    rw [List.getLast?_concat, List.append_left_eq_self.mp (List.cons.inj hlast).1]
  rcases List.eq_nil_or_concat q with rfl | ⟨dir, name, rfl⟩ <;>
    rcases List.eq_nil_or_concat q' with rfl | ⟨dir', name', rfl⟩
  · rfl
  · exact absurd h.symm (by simpa using hroot (by simpa using hq'))
  · exact absurd h (by simpa using hroot (by simpa using hq))
  · rw [List.concat_eq_append, List.concat_eq_append, mapPlace_concat, mapPlace_concat] at h
    obtain ⟨rfl, hname⟩ := List.append_inj' h rfl
    rw [List.append_cancel_right (List.cons.inj hname).1]

/-- The files that paths stand for have names. -/
theorem getLast?_place_ne {env : Environment} {tree : FileTree} {paths : List Text}
    {ts : List Target} (h : targets env tree paths = .ok ts) {t : Target} (ht : t ∈ ts) :
    t.place.getLast? ≠ some [] := by
  obtain ⟨path, -, us, hus, ht⟩ := (mem_targets h).mp ht
  unfold targetsAt at hus
  split at hus
  next => cases hus
  next place hplace =>
    split at hus
    next =>
      obtain rfl := Except.ok.inj hus
      obtain rfl := List.mem_singleton.mp ht
      exact fun hlast => FileTree.named_locate hplace _ (List.mem_of_getLast? hlast) rfl
    next =>
      obtain rfl := Except.ok.inj hus
      obtain ⟨found, hfound, rfl⟩ := List.mem_map.mp ht
      have hname := (List.mem_filter.mp hfound).2
      rcases List.eq_nil_or_concat found with rfl | ⟨dir, name, rfl⟩
      · cases hname
      · rw [List.concat_eq_append, List.getLast?_concat] at hname
        rw [List.concat_eq_append, ← List.append_assoc, List.getLast?_concat]
        rintro ⟨⟩
        cases hname

/-! The last step for a file. -/

theorem filesRun_append {p : Preprocessor} {map : Bool} {tally : Tally} {tree : FileTree}
    (ts us : List Target) :
    filesRun p map tally tree (ts ++ us) =
      (filesRun p map tally tree ts).bind fun (tally', tree') =>
        filesRun p map tally' tree' us := by
  induction ts generalizing tally tree with
  | nil => rfl
  | cons t ts ih =>
    simp only [List.cons_append, filesRun, ih]
    cases fileStep p map tally t tree <;> rfl

/-- A map holds the content that it leads back to. -/
theorem sourcesContent_of_process {p : Preprocessor} {content filename : Text} {r : Processed}
    (h : p.processed content filename = .ok r) : r.map.sourcesContent = some [content] := by
  rw [Preprocessor.processed_eq] at h
  obtain ⟨d, -, h⟩ := bind_eq_ok_iff.mp h
  obtain ⟨s, -, h⟩ := bind_eq_ok_iff.mp h
  obtain ⟨spliced, -, h⟩ := bind_eq_ok_iff.mp h
  obtain rfl := Except.ok.inj h
  rfl

section
variable {p : Preprocessor} {exempt : FilePlace → Prop} {map : Bool} {tally tally' : Tally}
  {tree tree' : FileTree} {ts : List Target}

theorem settled_of_filesRun (hmap : map = true → ∀ t ∈ ts, exempt (mapPlace t.place))
    (h : filesRun p map tally tree ts = some (tally', tree')) :
    Settled p exempt tree ts tree' :=
  filesRun_induct (I := fun done _ => Settled p exempt tree done)
    (fun _ t _ _ _ _ ht hsettled hstep => hsettled.step (fun hwanted _ => hmap hwanted t ht) hstep)
    (.start p exempt tree) h

end

/-- One target among all, and what is known of it: it is processed, none of those behind it is at
the same place, and that place is not one of a map. -/
structure LastTarget (p : Preprocessor) (tree : FileTree) (before : List Target) (t : Target)
    (after : List Target) (code : Text) : Prop where
  processed : p.codeFor (contentAt tree t.place) t.path = some (some code)
  last : ∀ u ∈ after, u.place = t.place → p.codeFor (contentAt tree t.place) u.path = some none
  file : ∀ u ∈ before ++ t :: after, mapPlace u.place ≠ t.place
  named : ∀ u ∈ before ++ t :: after, u.place.getLast? ≠ some []

namespace LastTarget
variable {p : Preprocessor} {tree tree₁ tree₂ final : FileTree} {before after : List Target}
  {t : Target} {code : Text} {tally tally' : Tally}

/-- When the target is reached, its file holds what it held before the run, or the code that it has
come out as already. -/
theorem contentAt_eq (h : LastTarget p tree before t after code) {exempt : FilePlace → Prop}
    (hplace : ¬ exempt t.place) (hsettled : Settled p exempt tree before tree₁) :
    contentAt tree₁ t.place = contentAt tree t.place ∨
      contentAt tree₁ t.place = code ∧
        ∃ u ∈ before, u.place = t.place ∧
          p.codeFor (contentAt tree t.place) u.path = some (some code) := by
  rcases hsettled.cases_of_code hplace h.processed with hkept | hcode
  · exact .inl (by rw [contentAt, contentAt, hkept])
  · exact .inr hcode

/-- The step for the target writes the map. -/
theorem exists_map (h : LastTarget p tree before t after code) {exempt : FilePlace → Prop}
    (hplace : ¬ exempt t.place) (hsettled : Settled p exempt tree before tree₁)
    (hstep : fileStep p true tally t tree₁ = some (tally', tree₂)) :
    ∃ r, p.markup (contentAt tree₁ t.place) (some t.path) = .ok (some r) ∧ r.code = code ∧
      tree₂.content? (mapPlace t.place) = some r.map.toJson := by
  have hcode := (hsettled.codeFor_eq hplace t.path).trans h.processed
  rcases fileStep_eq_some hstep with ⟨hnone, -⟩ | ⟨r, hr, hstore, -⟩
  · rw [hcode] at hnone
    cases hnone
  · obtain ⟨-, tree₃, -, rfl⟩ := storeIn_eq_some hstore
    have hrcode := (Preprocessor.codeFor_of_markup hr).symm.trans hcode
    exact ⟨r, hr, Option.some.inj (Option.some.inj hrcode), FileTree.content?_put_self _ _ _⟩

/-- The steps behind it leave the map alone, unless they rewrite the map itself. -/
theorem content?_mapPlace (h : LastTarget p tree before t after code)
    (hsettled : Settled p (fun q => ∃ u ∈ before ++ t :: after, mapPlace u.place = q) tree
      (before ++ [t]) tree₂)
    (hrun : filesRun p true tally tree₂ after = some (tally', final))
    (hmap : ∀ u ∈ after, u.place = mapPlace t.place →
      ∀ c, p.codeFor (contentAt tree₂ (mapPlace t.place)) u.path ≠ some (some c)) :
    final.content? (mapPlace t.place) = tree₂.content? (mapPlace t.place) := by
  -- maps of other files; the target's own map is not written again
  let others (q : FilePlace) : Prop := ∃ u ∈ after, u.place ≠ t.place ∧ mapPlace u.place = q
  have hplace : ¬ ∃ u ∈ before ++ t :: after, mapPlace u.place = t.place := by
    rintro ⟨u, hu, heq⟩
    exact h.file u hu heq
  have hsub : ∀ u ∈ after, u ∈ before ++ t :: after := fun u hu =>
    List.mem_append_right _ (List.mem_cons_of_mem _ hu)
  have hinv : Settled p (fun q => ∃ u ∈ before ++ t :: after, mapPlace u.place = q) tree
      (before ++ [t] ++ after) final ∧ Settled p others tree₂ after final := by
    refine filesRun_induct (I := fun done _ tree' =>
      Settled p (fun q => ∃ u ∈ before ++ t :: after, mapPlace u.place = q) tree
        (before ++ [t] ++ done) tree' ∧ Settled p others tree₂ done tree')
      (fun done u _ _ tree' tree'' hu ⟨hall, hrest⟩ hstep => ⟨?_, ?_⟩)
      ⟨by rwa [List.append_nil], .start p others tree₂⟩ hrun
    · rw [← List.append_assoc]
      exact hall.step (fun _ _ => ⟨u, hsub u hu, rfl⟩) hstep
    · refine hrest.step (fun _ hsome => ⟨u, hu, fun heq => hsome ?_, rfl⟩) hstep
      rw [heq, hall.codeFor_eq hplace]
      exact h.last u hu heq
  have hfree : ¬ others (mapPlace t.place) := by
    rintro ⟨u, hu, hne, heq⟩
    exact hne (mapPlace_injective (h.named u (hsub u hu)) (h.named t (by simp)) heq)
  refine hinv.2.kept _ hfree fun u hu heq => ?_
  have hsucceeded := hinv.2.succeeded u hu (heq ▸ hfree)
  rw [heq] at hsucceeded
  rcases hcode : p.codeFor (contentAt tree₂ (mapPlace t.place)) u.path with _ | _ | c
  · exact absurd hcode hsucceeded
  · rfl
  · exact absurd hcode (hmap u hu heq c)

end LastTarget

/-- What a run that writes maps leaves beside a file, given the last of the targets at which the
file is processed. The map is that of the content before the run only if the file is not processed
before; otherwise it leads from the code for the file back to that code. -/
theorem execute_process_map {parse : Syntax.Parser} {env : Environment} {tree : FileTree}
    {args paths : List Text} {config : Option Text} {diff : Bool}
    (hargs : Request.ofArguments args = .run config (.process ⟨true, true, diff⟩ paths))
    (hstatus : (execute parse tree args env).status = 0) :
    ∃ c ts, loadConfig env tree config = .ok c ∧ targets env tree paths = .ok ts ∧
      ∀ before t after r, ts = before ++ t :: after →
        (∀ u ∈ ts, mapPlace u.place ≠ t.place) →
        (preprocessor parse env c).markup (contentAt tree t.place) (some t.path) = .ok (some r) →
        (∀ u ∈ after, u.place = t.place → ∀ q,
          (preprocessor parse env c).markup (contentAt tree t.place) (some u.path) ≠ .ok (some q)) →
        (execute parse tree args env).tree.content? t.place = some r.code ∧
        ∃ content m,
          (preprocessor parse env c).markup content (some t.path) = .ok (some m) ∧ m.code = r.code ∧
          m.map.sourcesContent = some [content] ∧
          ((∀ u ∈ before, u.place = t.place → ∀ q,
              (preprocessor parse env c).markup (contentAt tree t.place) (some u.path) ≠
                .ok (some q)) →
            content = contentAt tree t.place) ∧
          (∀ u ∈ before, u.place = t.place → ∀ q,
            (preprocessor parse env c).markup (contentAt tree t.place) (some u.path) =
              .ok (some q) →
            content = r.code) ∧
          ((∀ u ∈ after, u.place = mapPlace t.place → ∀ q,
              (preprocessor parse env c).markup m.map.toJson (some u.path) ≠ .ok (some q)) →
            (execute parse tree args env).tree.content? (mapPlace t.place) = some m.map.toJson) := by
  obtain ⟨c, ts, tally, notes, hc, hts, hrun, -⟩ := exists_filesRun_of_status hargs hstatus
  refine ⟨c, ts, hc, hts, fun before t after r hsplit hfile hr hlast => ?_⟩
  generalize (execute parse tree args env).tree = final at hrun
  generalize preprocessor parse env c = p at hrun hr hlast
  subst hsplit
  have hplace : ¬ ∃ u ∈ before ++ t :: after, mapPlace u.place = t.place := by
    rintro ⟨u, hu, heq⟩
    exact hfile u hu heq
  have hfinal : Settled p (fun q => ∃ u ∈ before ++ t :: after, mapPlace u.place = q) tree
      (before ++ t :: after) final :=
    settled_of_filesRun (fun _ u hu => ⟨u, hu, rfl⟩) hrun
  have hcode := Preprocessor.codeFor_of_markup hr
  have htarget : LastTarget p tree before t after r.code :=
    { processed := hcode
      last := fun u hu heq => by
        have hsucceeded := hfinal.succeeded u (by simp [hu]) (heq ▸ hplace)
        rw [heq] at hsucceeded
        exact Preprocessor.codeFor_eq_some_none hsucceeded (hlast u hu heq)
      file := hfile
      named := fun u hu => getLast?_place_ne hts hu }
  rw [filesRun_append] at hrun
  obtain ⟨⟨tally₁, tree₁⟩, hbefore, hrun⟩ := Option.bind_eq_some_iff.mp hrun
  obtain ⟨⟨tally₂, tree₂⟩, hstep, hafter⟩ := Option.bind_eq_some_iff.mp hrun
  have hsettled : Settled p (fun q => ∃ u ∈ before ++ t :: after, mapPlace u.place = q) tree
      before tree₁ :=
    settled_of_filesRun (fun _ u hu => ⟨u, List.mem_append_left _ hu, rfl⟩) hbefore
  obtain ⟨m, hm, hmcode, hmap⟩ := htarget.exists_map hplace hsettled hstep
  refine ⟨hfinal.rewritten t (by simp) hplace r.code hcode, contentAt tree₁ t.place, m, hm, hmcode,
    sourcesContent_of_process (markup_eq_ok_some_iff.mp hm).2, fun hnone => ?_,
    fun u hu heq q hq => ?_, fun hkept => ?_⟩
  · rcases htarget.contentAt_eq hplace hsettled with h | ⟨-, u, hu, heq, hucode⟩
    · exact h
    · obtain ⟨q, hq, -⟩ := Preprocessor.exists_markup_of_codeFor hucode
      exact absurd hq (hnone u hu heq q)
  · have hucode := Preprocessor.codeFor_of_markup hq
    rw [← heq] at hucode hcode hplace ⊢
    rw [contentAt_of_content? (hsettled.rewritten u hu hplace q.code hucode)]
    exact Preprocessor.codeFor_unique hucode hcode
  · rw [← hmap]
    refine htarget.content?_mapPlace (hsettled.step (fun _ _ => ⟨t, by simp, rfl⟩) hstep) hafter
      fun u hu heq code hucode => ?_
    rw [contentAt_of_content? hmap] at hucode
    obtain ⟨q, hq, -⟩ := Preprocessor.exists_markup_of_codeFor hucode
    exact hkept u hu heq q hq

/-! A page that is named twice. -/

/-- In a directory without directories files can be written. -/
theorem hasDirectory_flat {tree : FileTree} (hflat : ∀ q ∈ tree.places, q.length = 1)
    {q : FilePlace} (hq : q.length = 1) : tree.hasDirectory q = false := by
  obtain ⟨name, rfl⟩ := List.length_eq_one_iff.mp hq
  simp only [FileTree.hasDirectory, List.isEmpty_cons, Bool.false_or, List.any_eq_false]
  rintro ⟨place, content⟩ hmem
  obtain ⟨name', rfl⟩ := List.length_eq_one_iff.mp (hflat place (List.mem_map_of_mem hmem))
  simp only [FileTree.below?]
  split <;> simp

theorem flat_put {tree : FileTree} (hflat : ∀ q ∈ tree.places, q.length = 1) {q : FilePlace}
    (hq : q.length = 1) (content : Text) : ∀ q' ∈ (tree.put q content).places, q'.length = 1 := by
  intro q' hq'
  rw [← FileTree.content?_ne_none_iff, FileTree.content?_put] at hq'
  by_cases heq : q' = q
  · rw [heq, hq]
  · rw [if_neg heq, FileTree.content?_ne_none_iff] at hq'
    exact hflat q' hq'

theorem exists_storeIn_flat {tree : FileTree} (hflat : ∀ q ∈ tree.places, q.length = 1)
    {t : Target} (ht : t.place.length = 1) (content : Text) (r : Processed) :
    ∃ tree', storeIn true t content r tree = some tree' ∧ ∀ q ∈ tree'.places, q.length = 1 := by
  have hwrite {tree : FileTree} (hflat : ∀ q ∈ tree.places, q.length = 1) {q : FilePlace}
      (hq : q.length = 1) (text : Text) : (tree.write q text).toOption = some (tree.put q text) :=
    toOption_write_eq_some.mpr ⟨hasDirectory_flat hflat hq, rfl⟩
  have hmapPlace : (mapPlace t.place).length = 1 := by simp [mapPlace, ht]
  by_cases hne : r.code ≠ content
  · have hput := flat_put hflat ht r.code
    exact ⟨_, by rw [storeIn, if_pos hne, hwrite hflat ht, Option.bind_some, if_pos rfl,
      hwrite hput hmapPlace], flat_put hput hmapPlace _⟩
  · exact ⟨_, by rw [storeIn, if_neg hne, Option.bind_some, if_pos rfl,
      hwrite hflat hmapPlace], flat_put hflat hmapPlace _⟩

theorem exists_fileStep_flat {p : Preprocessor} {tree : FileTree}
    (hflat : ∀ q ∈ tree.places, q.length = 1) {t : Target} (ht : t.place.length = 1) {r : Processed}
    (hr : p.markup (contentAt tree t.place) (some t.path) = .ok (some r)) (tally : Tally) :
    ∃ tally' tree', fileStep p true tally t tree = some (tally', tree') ∧
      ∀ q ∈ tree'.places, q.length = 1 := by
  obtain ⟨tree', hstore, hflat'⟩ := exists_storeIn_flat hflat ht (contentAt tree t.place) r
  exact ⟨_, tree', by rw [fileStep, hr, resultStep, hstore]; rfl, hflat'⟩

def pageTarget : Target := ⟨"page.svelte".toList, ["page.svelte".toList]⟩

def pageTree : FileTree := ⟨[(pageTarget.place, pageText)]⟩

theorem contentAt_page : contentAt pageTree pageTarget.place = pageText := rfl

def repeatedArguments : List Text :=
  ["process".toList, "--write".toList, "--map".toList, "page.svelte".toList, "page.svelte".toList]

theorem status_repeated : (execute blankStyles pageTree repeatedArguments).status = 0 := by
  have hargs : Request.ofArguments repeatedArguments = .run none
      (.process ⟨true, true, false⟩ ["page.svelte".toList, "page.svelte".toList]) := by decide
  obtain ⟨r, hr, -⟩ := exists_markup_page {} pageTarget.path (by decide)
  rw [← contentAt_page] at hr
  obtain ⟨tally₁, tree₁, hfirst, hflat⟩ :=
    exists_fileStep_flat (t := pageTarget) (by decide) rfl hr {}
  have hsettled := (Settled.start _ (· = mapPlace pageTarget.place) pageTree).step
    (fun _ _ => rfl) hfirst
  have hagain := (hsettled.codeFor_eq (mapPlace_ne _).symm pageTarget.path).trans
    (Preprocessor.codeFor_of_markup hr)
  obtain ⟨m, hm, -⟩ := Preprocessor.exists_markup_of_codeFor hagain
  obtain ⟨tally₂, tree₂, hsecond, -⟩ := exists_fileStep_flat (t := pageTarget) hflat rfl hm tally₁
  have hrun : filesRun (preprocessor blankStyles {} {}) true {} pageTree [pageTarget, pageTarget] =
      some (tally₂, tree₂) := by
    simp only [filesRun, hfirst, hsecond, Option.bind_some]
  exact (execute_of_filesRun hargs rfl rfl hrun).1

/-- The map that stays leads from the code back to the code, not to what the file held. -/
theorem execute_process_map_repeated :
    (execute blankStyles pageTree repeatedArguments).status = 0 ∧
      ∃ r m : Processed, (preprocessor blankStyles {} {}).markup
          (contentAt pageTree pageTarget.place) (some pageTarget.path) = .ok (some r) ∧
        r.code ≠ contentAt pageTree pageTarget.place ∧
        (execute blankStyles pageTree repeatedArguments).tree.content? pageTarget.place =
          some r.code ∧
        m.map.sourcesContent = some [r.code] ∧
        (execute blankStyles pageTree repeatedArguments).tree.content?
          (mapPlace pageTarget.place) = some m.map.toJson := by
  have hargs : Request.ofArguments repeatedArguments = .run none
      (.process ⟨true, true, false⟩ ["page.svelte".toList, "page.svelte".toList]) := by decide
  obtain ⟨c, ts, hc, hts, hmaps⟩ := execute_process_map hargs status_repeated
  obtain rfl : {} = c := Except.ok.inj hc
  obtain rfl : [pageTarget, pageTarget] = ts := Except.ok.inj hts
  obtain ⟨r, hr, hne⟩ := exists_markup_page {} pageTarget.path (by decide)
  rw [← contentAt_page] at hr hne
  obtain ⟨hfile, content, m, -, -, hcontent, -, hagain, hmap⟩ := hmaps [pageTarget] pageTarget [] r
    rfl (by decide) hr (by simp)
  obtain rfl := hagain pageTarget (by simp) rfl r hr
  exact ⟨status_repeated, r, m, hr, hne, hfile, hcontent, hmap (by simp)⟩

end MarkupHighlight.Command
