import MarkupHighlight.FileTree
import MarkupHighlight.Proofs.Text.Lines

/-!
Where paths lead. The names on the way to a place are not empty (`named_locate`), and a relative
path leads where it leads with the path of the run directory in front (`locate_append`).
-/
namespace MarkupHighlight.FileTree

variable {t : FileTree} {runDir? : Option Text}

/-! Names. -/

theorem named_follow {here there : FilePlace} {piece : Text}
    (h : t.follow runDir? here piece = .ok there) (hhere : ∀ n ∈ here, n ≠ []) :
    ∀ n ∈ there, n ≠ [] := by
  unfold follow at h
  split at h
  next => cases h
  split at h
  next =>
    obtain rfl := Except.ok.inj h
    exact hhere
  next hname =>
    split at h
    next =>
      split at h
      next => cases h
      next =>
        obtain rfl := Except.ok.inj h
        exact fun n hn => hhere n ((List.dropLast_sublist here).mem hn)
    next =>
      dsimp only at h
      split at h
      next =>
        obtain rfl := Except.ok.inj h
        intro n hn
        rcases List.mem_append.mp hn with hn | hn
        · exact hhere n hn
        · obtain rfl := List.mem_singleton.mp hn
          rintro rfl
          exact hname rfl
      next => cases h

theorem named_runPlace (runDir? : Option Text) : ∀ n ∈ runPlace runDir?, n ≠ [] := by
  cases runDir? with
  | none => nofun
  | some dir =>
    intro n hn
    rintro rfl
    exact absurd (List.mem_filter.mp hn).2 (by decide)

theorem named_locate {path : Text} {place : FilePlace}
    (h : t.locate path runDir? = .ok place) : ∀ n ∈ place, n ≠ [] := by
  have hfold (pieces : List Text) {here : FilePlace} (hhere : ∀ n ∈ here, n ≠ [])
      (h : pieces.foldlM (t.follow runDir?) here = .ok place) : ∀ n ∈ place, n ≠ [] := by
    induction pieces generalizing here with
    | nil =>
      obtain rfl := Except.ok.inj h
      exact hhere
    | cons piece pieces ih =>
      rw [List.foldlM_cons] at h
      cases hfirst : t.follow runDir? here piece with
      | error e =>
        rw [hfirst] at h
        cases h
      | ok there =>
        rw [hfirst] at h
        exact ih (named_follow hfirst hhere) h
  unfold locate at h
  split at h
  next => cases h
  next =>
    refine hfold _ (fun n hn => ?_) h
    split at hn
    next => cases hn
    next => exact named_runPlace runDir? n hn

/-! Paths from the root. -/

/-- Pieces that name directories on the way to the run directory are followed all the way. -/
theorem foldlM_follow_of_prefix {pieces : List Text} {here : FilePlace}
    (h : here ++ pieces.filter Path.isName <+: runPlace runDir?)
    (hup : ∀ n ∈ pieces.filter Path.isName, n ≠ ['.', '.']) :
    pieces.foldlM (t.follow runDir?) here = .ok (here ++ pieces.filter Path.isName) := by
  induction pieces generalizing here with
  | nil => simp [pure, Except.pure]
  | cons piece pieces ih =>
    have hhere : t.isDirectory runDir? here = true := by
      have hprefix : here <+: runPlace runDir? := (List.prefix_append _ _).trans h
      rw [isDirectory, List.isPrefixOf_iff_prefix.mpr hprefix, Bool.or_true]
    rw [List.foldlM_cons]
    by_cases hname : Path.isName piece = true
    · rw [List.filter_cons_of_pos hname] at h hup ⊢
      obtain ⟨hpiece, hrest⟩ := List.forall_mem_cons.mp hup
      rw [List.append_cons] at h ⊢
      have hthere : t.isDirectory runDir? (here ++ [piece]) = true := by
        have hprefix : here ++ [piece] <+: runPlace runDir? := (List.prefix_append _ _).trans h
        rw [isDirectory, List.isPrefixOf_iff_prefix.mpr hprefix, Bool.or_true]
      have hstep : t.follow runDir? here piece = .ok (here ++ [piece]) := by
        simp [follow, hhere, hname, hpiece, hthere]
      rw [hstep]
      exact ih h hrest
    · rw [List.filter_cons_of_neg hname] at h hup ⊢
      have hstep : t.follow runDir? here piece = .ok here := by
        simp [follow, hhere, hname]
      rw [hstep]
      exact ih h hup

/-- A relative path is meant from the run directory. -/
theorem locate_append {dir path : Text} (hdir : Path.isAbsolute dir = true)
    (hup : ∀ n ∈ Path.namesOf dir, n ≠ ['.', '.']) (hpath : path ≠ [])
    (hrelative : Path.isAbsolute path = false) :
    t.locate (dir ++ '/' :: path) (some dir) = t.locate path (some dir) := by
  have habsolute : Path.isAbsolute (dir ++ '/' :: path) = true := by
    cases dir with
    | nil => cases hdir
    | cons => exact hdir
  have hfollow : (splitOnChar '/' dir).foldlM (t.follow (some dir)) [] =
      .ok (runPlace (some dir)) :=
    foldlM_follow_of_prefix (List.prefix_refl (Path.namesOf dir)) hup
  have hleft : t.locate (dir ++ '/' :: path) (some dir) =
      (splitOnChar '/' (dir ++ '/' :: path)).foldlM (t.follow (some dir)) [] := by
    simp [locate, habsolute]
  have hright : t.locate path (some dir) =
      (splitOnChar '/' path).foldlM (t.follow (some dir)) (runPlace (some dir)) := by
    simp [locate, hrelative, hpath]
  rw [hleft, hright, splitOnChar_append_cons, List.foldlM_append, hfollow]
  rfl

end MarkupHighlight.FileTree
