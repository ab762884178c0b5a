import MarkupHighlight.Command.Run

/-!
Runs seen from the files alone. `Acts` says what a run makes of a file tree and when it fails, and
leaves out all that it prints; `acts_processFiles` gives the processing of files, one after the
other, as a function on trees.
-/
namespace MarkupHighlight.Command

section
variable {α β : Type}

/-- The result of a run from a session, and the session that it leaves. -/
def exec (x : Run α) (s : Session) : Except Report α × Session := x.run.run s

theorem exec_bind (x : Run α) (f : α → Run β) (s : Session) :
    exec (x >>= f) s =
      match exec x s with
      | (.ok a, s') => exec (f a) s'
      | (.error e, s') => (.error e, s') := by
  simp only [exec, ExceptT.run_bind, StateT.run_bind]
  obtain ⟨_ | _, s'⟩ := x.run.run s <;> rfl

/-- The run makes of the tree what `f` does. It fails exactly if `f` gives nothing. -/
def Acts (x : Run α) (f : FileTree → Option (α × FileTree)) : Prop :=
  ∀ s, ((exec x s).1.toOption.map fun a => (a, (exec x s).2.tree)) = f s.tree

theorem Acts.ok {x : Run α} {f : FileTree → Option (α × FileTree)} (h : Acts x f) {a : α}
    {s s' : Session} (hx : exec x s = (.ok a, s')) : f s.tree = some (a, s'.tree) := by
  rw [← h s, hx]
  rfl

theorem Acts.exists_ok {x : Run α} {f : FileTree → Option (α × FileTree)} (h : Acts x f) {a : α}
    {s : Session} {tree : FileTree} (hf : f s.tree = some (a, tree)) :
    ∃ s', exec x s = (.ok a, s') ∧ s'.tree = tree := by
  rw [← h s] at hf
  obtain ⟨b, hb, he⟩ := Option.map_eq_some_iff.mp hf
  obtain ⟨rfl, rfl⟩ := Prod.mk.inj he
  cases hx : (exec x s).1 with
  | error e =>
    rw [hx] at hb
    cases hb
  | ok a =>
    rw [hx] at hb
    obtain rfl := Option.some.inj hb
    exact ⟨(exec x s).2, Prod.ext hx rfl, rfl⟩

theorem acts_pure (a : α) : Acts (pure a) fun tree => some (a, tree) := fun _ => rfl

theorem acts_throw (e : Report) : Acts (throw e : Run α) fun _ => none := fun _ => rfl

theorem acts_print (text : Text) : Acts (print text) fun tree => some ((), tree) := fun _ => rfl

theorem acts_tell (text : Text) : Acts (tell text) fun tree => some ((), tree) := fun _ => rfl

theorem Acts.bind {x : Run α} {f : FileTree → Option (α × FileTree)} {k : α → Run β}
    {g : α → FileTree → Option (β × FileTree)} (hx : Acts x f) (hk : ∀ a, Acts (k a) (g a)) :
    Acts (x >>= k) fun tree => (f tree).bind fun (a, tree') => g a tree' := by
  intro s
  have hs := hx s
  change _ = (f s.tree).bind _
  rw [exec_bind, ← hs]
  obtain ⟨_ | a, s'⟩ := exec x s
  · rfl
  · exact hk a s'

theorem Acts.congr {x : Run α} {f g : FileTree → Option (α × FileTree)} (h : Acts x f)
    (hfg : ∀ tree, f tree = g tree) : Acts x g :=
  fun s => (h s).trans (hfg s.tree)

/-- A step that is taken or not. -/
def onlyIf (c : Prop) [Decidable c] (x : Run Unit) : Run Unit := if c then x else pure ()

theorem Acts.onlyIf {x : Run Unit} {f : FileTree → Option (Unit × FileTree)} (h : Acts x f)
    (c : Prop) [Decidable c] :
    Acts (onlyIf c x) fun tree => if c then f tree else some ((), tree) := by
  unfold Command.onlyIf
  split
  · exact h
  · exact acts_pure ()

theorem acts_writeFile (p : FilePlace) (content : Text) (onFault : FileTree.Fault → Report) :
    Acts (writeFile p content onFault) fun tree =>
      ((tree.write p content).toOption.map fun tree' => ((), tree')) := by
  intro s
  have hget : exec (get : Run Session) s = (.ok s, s) := rfl
  unfold writeFile
  rw [exec_bind, hget]
  dsimp only
  cases s.tree.write p content <;> rfl

theorem acts_warnings (ds : List Diagnostic) :
    Acts (ds.forM fun d => warn d.warning) fun tree => some ((), tree) := by
  induction ds with
  | nil => exact acts_pure ()
  | cons d ds ih => exact (acts_tell _).bind fun _ => ih

end

/-! One file. -/

/-- All that is done with the code for a file. -/
def store (flags : ProcessFlags) (t : Target) (content : Text) (r : Processed) : Run Unit := do
  onlyIf (flags.diff ∧ r.code ≠ content) (print (diffText t.path content r.code))
  onlyIf (flags.write ∧ r.code ≠ content)
    (writeFile t.place r.code (.ofFault "failed to write" t.path))
  onlyIf (¬flags.write ∧ ¬flags.diff) (print r.code)
  onlyIf flags.map
    (writeFile (mapPlace t.place) r.map.toJson (.ofFault "failed to write source map for" t.path))

/-- What is done with the result for a file, whose content is given. -/
def finish (flags : ProcessFlags) (tally : Tally) (t : Target) (content : Text) :
    Except PreprocessFailure (Option Processed) → Run Tally
  | .error f => do
      f.diagnostics.forM fun d => warn d.warning
      throw (.ofPreprocessError t.path f.error)
  | .ok none => do
      tell ("Skipped ".toList ++ t.path ++ ['\n'])
      return { tally with skipped := tally.skipped + 1 }
  | .ok (some r) => do
      r.diagnostics.forM fun d => warn d.warning
      store flags t content r
      return { tally with
        changed := tally.changed + if flags.write ∧ r.code ≠ content then 1 else 0 }

theorem processFile_eq (p : Preprocessor) (flags : ProcessFlags) (tally : Tally) (t : Target) :
    processFile p flags tally t =
      highlightFile p t >>= fun (content, result) => finish flags tally t content result := by
  unfold processFile
  refine bind_congr fun ⟨content, result⟩ => ?_
  match result with
  | .error f => rfl
  | .ok none => rfl
  | .ok (some r) =>
    refine bind_congr fun _ => ?_
    unfold store onlyIf
    cases flags.diff <;> cases flags.write <;> cases flags.map <;>
      by_cases h : r.code = content <;> simp [h]

/-- The content of a file; a place without a file counts as empty. -/
def contentAt (tree : FileTree) (p : FilePlace) : Text := (tree.content? p).getD []

/-- The tree with the code for a file in it, and with the map beside the file if it is wanted. -/
def storeIn (map : Bool) (t : Target) (content : Text) (r : Processed) (tree : FileTree) :
    Option FileTree :=
  (if r.code ≠ content then (tree.write t.place r.code).toOption else some tree).bind fun tree =>
    if map then (tree.write (mapPlace t.place) r.map.toJson).toOption else some tree

/-- What becomes of the tree with the result for one file, whose content is given. -/
def resultStep (map : Bool) (tally : Tally) (t : Target) (content : Text)
    (result : Except PreprocessFailure (Option Processed)) (tree : FileTree) :
    Option (Tally × FileTree) :=
  match result with
  | .error _ => none
  | .ok none => some ({ tally with skipped := tally.skipped + 1 }, tree)
  | .ok (some r) =>
      (storeIn map t content r tree).map fun tree' =>
        ({ tally with changed := tally.changed + if r.code ≠ content then 1 else 0 }, tree')

/-- What becomes of the tree when one file is processed and written. -/
def fileStep (p : Preprocessor) (map : Bool) (tally : Tally) (t : Target) (tree : FileTree) :
    Option (Tally × FileTree) :=
  resultStep map tally t (contentAt tree t.place)
    (p.markup (contentAt tree t.place) (some t.path)) tree

theorem acts_store (map diff : Bool) (t : Target) (content : Text) (r : Processed) :
    Acts (store ⟨true, map, diff⟩ t content r) fun tree =>
      (storeIn map t content r tree).map fun tree' => ((), tree') := by
  have hsteps : Acts (store ⟨true, map, diff⟩ t content r) _ :=
    .bind (.onlyIf (acts_print _) _) fun _ => .bind (.onlyIf (acts_writeFile _ _ _) _) fun _ =>
      .bind (.onlyIf (acts_print _) _) fun _ => .onlyIf (acts_writeFile _ _ _) _
  refine hsteps.congr fun tree => ?_
  unfold storeIn
  by_cases hcode : r.code = content
  · cases map <;> simp [hcode]
  · cases hwrite : (tree.write t.place r.code).toOption <;> cases map <;> simp [hcode, hwrite]

theorem acts_finish (map diff : Bool) (tally : Tally) (t : Target) (content : Text)
    (result : Except PreprocessFailure (Option Processed)) :
    Acts (finish ⟨true, map, diff⟩ tally t content result)
      (resultStep map tally t content result) := by
  match result with
  | .error f => exact (acts_warnings _).bind fun _ => acts_throw _
  | .ok none => exact (acts_tell _).bind fun _ => acts_pure _
  | .ok (some r) =>
    refine ((acts_warnings _).bind fun _ => (acts_store map diff t content r).bind fun _ =>
      acts_pure _).congr fun tree => ?_
    cases hstore : storeIn map t content r tree <;> simp [resultStep, hstore]

theorem acts_highlightFile (p : Preprocessor) (t : Target) :
    Acts (highlightFile p t) fun tree =>
      some ((contentAt tree t.place, p.markup (contentAt tree t.place) (some t.path)), tree) :=
  fun _ => rfl

theorem acts_processFile (p : Preprocessor) (map diff : Bool) (tally : Tally) (t : Target) :
    Acts (processFile p ⟨true, map, diff⟩ tally t) (fileStep p map tally t) := by
  rw [processFile_eq]
  exact ((acts_highlightFile p t).bind fun read =>
    acts_finish map diff tally t read.1 read.2).congr fun _ => rfl

/-- What becomes of the tree when files are processed and written one after the other. -/
def filesRun (p : Preprocessor) (map : Bool) (tally : Tally) (tree : FileTree) :
    List Target → Option (Tally × FileTree)
  | [] => some (tally, tree)
  | t :: ts => (fileStep p map tally t tree).bind fun (tally', tree') =>
      filesRun p map tally' tree' ts

theorem acts_processFiles (p : Preprocessor) (map diff : Bool) (ts : List Target) (tally : Tally) :
    Acts (ts.foldlM (processFile p ⟨true, map, diff⟩) tally)
      fun tree => filesRun p map tally tree ts := by
  induction ts generalizing tally with
  | nil => exact acts_pure tally
  | cons t ts ih => exact (acts_processFile p map diff tally t).bind fun tally' => ih tally'

/-! All of a run. -/

theorem exec_liftM {α : Type} (x : Except Report α) (s : Session) :
    exec (liftM x : Run α) s = (x, s) := by
  cases x <;> rfl

/-- The line that a run which writes ends with. -/
def doneLine (tally : Tally) : Text :=
  "Done: ".toList ++ decimal tally.changed ++ " rewritten, ".toList ++ decimal tally.skipped ++
    " skipped\n".toList

theorem exec_process (env : Environment) (p : Preprocessor) (map diff : Bool) (paths : List Text)
    (s : Session) :
    exec (process env p ⟨true, map, diff⟩ paths) s =
      match targets env s.tree paths with
      | .error e => (.error e, s)
      | .ok ts =>
          match exec (ts.foldlM (processFile p ⟨true, map, diff⟩) {}) s with
          | (.error e, s') => (.error e, s')
          | (.ok tally, s') => (.ok 0, { s' with messages := s'.messages ++ doneLine tally }) := by
  have hget : exec (process env p ⟨true, map, diff⟩ paths) s =
      exec ((liftM (targets env s.tree paths) : Run (List Target)) >>= fun ts =>
        ts.foldlM (processFile p ⟨true, map, diff⟩) {} >>= fun tally =>
          tell (doneLine tally) >>= fun _ => pure 0) s := rfl
  rw [hget, exec_bind, exec_liftM]
  cases targets env s.tree paths with
  | error e => rfl
  | ok ts =>
    dsimp only
    rw [exec_bind]
    obtain ⟨_ | tally, s'⟩ := exec (ts.foldlM (processFile p ⟨true, map, diff⟩) {}) s <;> rfl

theorem exec_perform (parse : Syntax.Parser) (env : Environment) (config : Option Text)
    (flags : ProcessFlags) (paths : List Text) (s : Session) :
    exec (perform parse env config (.process flags paths)) s =
      match loadConfig env s.tree config with
      | .error e => (.error (.ofConfigError e), s)
      | .ok c => exec (process env (preprocessor parse env c) flags paths) s := by
  have hget : exec (perform parse env config (.process flags paths)) s =
      exec (match loadConfig env s.tree config with
        | .error e => throw (.ofConfigError e)
        | .ok c => process env (preprocessor parse env c) flags paths) s := rfl
  rw [hget]
  cases loadConfig env s.tree config <;> rfl

/-- How the program ends, by the result of its run. -/
def outcome : Except Report Nat × Session → Outcome
  | (.ok status, s) => ⟨status, s.output, s.messages, s.tree⟩
  | (.error report, s) => ⟨1, s.output, s.messages ++ report.display, s.tree⟩

theorem execute_eq {parse : Syntax.Parser} {env : Environment} {tree : FileTree} {args : List Text}
    {config : Option Text} {action : Action}
    (hargs : Request.ofArguments args = .run config action) :
    execute parse tree args env = outcome (exec (perform parse env config action) { tree }) := by
  unfold execute exec
  rw [hargs]
  dsimp only
  obtain ⟨_ | _, s⟩ := (perform parse env config action).run.run { tree } <;> rfl

section
variable {parse : Syntax.Parser} {env : Environment} {tree : FileTree} {args paths : List Text}
  {config : Option Text} {map diff : Bool}
  (hargs : Request.ofArguments args = .run config (.process ⟨true, map, diff⟩ paths))
include hargs

/-- What a run that succeeds has done. -/
theorem exists_filesRun_of_status (hstatus : (execute parse tree args env).status = 0) :
    ∃ c ts tally notes, loadConfig env tree config = .ok c ∧ targets env tree paths = .ok ts ∧
      filesRun (preprocessor parse env c) map {} tree ts =
        some (tally, (execute parse tree args env).tree) ∧
      (execute parse tree args env).messages = notes ++ doneLine tally := by
  rw [execute_eq hargs, exec_perform] at hstatus ⊢
  dsimp only at hstatus ⊢
  cases hc : loadConfig env tree config with
  | error e =>
    rw [hc] at hstatus
    cases hstatus
  | ok c =>
    rw [hc] at hstatus
    dsimp only at hstatus ⊢
    rw [exec_process] at hstatus ⊢
    dsimp only at hstatus ⊢
    cases hts : targets env tree paths with
    | error e =>
      rw [hts] at hstatus
      cases hstatus
    | ok ts =>
      rw [hts] at hstatus
      dsimp only at hstatus ⊢
      rcases hrun : exec (ts.foldlM (processFile (preprocessor parse env c) ⟨true, map, diff⟩) {})
        { tree } with ⟨_ | tally, s⟩
      · rw [hrun] at hstatus
        cases hstatus
      · exact ⟨c, ts, tally, s.messages, rfl, rfl, (acts_processFiles _ map diff ts {}).ok hrun,
          rfl⟩

theorem execute_of_filesRun {c : Config} {ts : List Target} {tally : Tally} {tree' : FileTree}
    (hc : loadConfig env tree config = .ok c) (hts : targets env tree paths = .ok ts)
    (hrun : filesRun (preprocessor parse env c) map {} tree ts = some (tally, tree')) :
    (execute parse tree args env).status = 0 ∧ (execute parse tree args env).tree = tree' := by
  obtain ⟨s, hs, rfl⟩ :=
    (acts_processFiles (preprocessor parse env c) map diff ts {}).exists_ok (s := { tree }) hrun
  rw [execute_eq hargs, exec_perform]
  dsimp only
  rw [hc]
  dsimp only
  rw [exec_process]
  dsimp only
  rw [hts]
  dsimp only
  rw [hs]
  exact ⟨rfl, rfl⟩

end

/-! The files that paths stand for. -/

theorem targets_cons (env : Environment) (tree : FileTree) (path : Text) (paths : List Text) :
    targets env tree (path :: paths) =
      match targetsAt env tree path with
      | .error e => .error e
      | .ok us => (targets env tree paths).map (us ++ ·) := by
  unfold targets
  rw [List.mapM_cons]
  cases targetsAt env tree path with
  | error e => rfl
  | ok us => cases paths.mapM (targetsAt env tree) <;> rfl

theorem exists_targets_iff {env : Environment} {tree : FileTree} {paths : List Text} :
    (∃ ts, targets env tree paths = .ok ts) ↔
      ∀ path ∈ paths, ∃ us, targetsAt env tree path = .ok us := by
  induction paths with
  | nil => exact ⟨fun _ => by simp, fun _ => ⟨[], rfl⟩⟩
  | cons path paths ih =>
    rw [targets_cons, List.forall_mem_cons, ← ih]
    cases targetsAt env tree path with
    | error e => simp
    | ok us => cases targets env tree paths <;> simp [Except.map]

theorem mem_targets {env : Environment} {tree : FileTree} {paths : List Text} {ts : List Target}
    (h : targets env tree paths = .ok ts) {t : Target} :
    t ∈ ts ↔ ∃ path ∈ paths, ∃ us, targetsAt env tree path = .ok us ∧ t ∈ us := by
  induction paths generalizing ts with
  | nil =>
    obtain rfl : [] = ts := Except.ok.inj h
    simp
  | cons path paths ih =>
    rw [targets_cons] at h
    cases hpath : targetsAt env tree path with
    | error e =>
      rw [hpath] at h
      cases h
    | ok us =>
      cases hrest : targets env tree paths with
      | error e =>
        rw [hpath, hrest] at h
        cases h
      | ok rest =>
        rw [hpath, hrest] at h
        obtain rfl : us ++ rest = ts := Except.ok.inj h
        rw [List.mem_append, ih hrest]
        simp [hpath]

end MarkupHighlight.Command
