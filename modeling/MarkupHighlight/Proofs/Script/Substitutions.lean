import MarkupHighlight.Proofs.Script.BraceMatching

/-!
Templates with substitutions. An expression is a template exactly if it is made of static parts in
which nothing is opened and of substitutions between them, each of which ends at the brace that the
scanner finds for it. The fragments are the static parts, so nothing of the expression but the
substitutions is left out (`classify_eq_template_iff`).
-/
namespace MarkupHighlight.Script

/-- The body of a template: a static part, then substitutions with the static parts behind them. -/
def templateBody (raw : Text) : List (Text × Text) → Text
  | [] => raw
  | (e, next) :: more => raw ++ '$' :: '{' :: (e ++ '}' :: templateBody next more)

/-- The text is closed by a `}` right behind it, whatever follows. -/
def ClosedByBrace (e : Text) : Prop := ∀ t, afterBrace (e ++ '}' :: t) = some t

theorem templateBody_append (lead raw : Text) (more : List (Text × Text)) :
    templateBody (lead ++ raw) more = lead ++ templateBody raw more := by
  cases more with
  | nil => rfl
  | cons p more => exact List.append_assoc lead raw _

theorem ClosedByBrace.takes {e : Text} (h : ClosedByBrace e) : Takes [.code 0] (e ++ ['}']) := by
  intro t
  rw [List.append_assoc]
  exact h t

theorem takes_backtick : Takes [.template] ['\x60'] := fun t => by simp [resume]

theorem takes_substitution {e u : Text} (he : ClosedByBrace e) (hu : Takes [.template] u) :
    Takes [.template] ('$' :: '{' :: (e ++ '}' :: u)) := by
  have hinner : Takes [.code 0, .template] (e ++ ['}'] ++ u) := he.takes.append hu
  have hopened : Takes [.template] (['$', '{'] ++ (e ++ ['}'] ++ u)) :=
    hinner.lead fun t => Opens.substitution.resume [] _
  simpa using hopened

section
variable {raw : Text} {more : List (Text × Text)}
  (hraw : ∀ r ∈ raw :: more.map (·.2), Flat .template r)
  (hclosed : ∀ e ∈ more.map (·.1), ClosedByBrace e)
include hraw hclosed

/-- The scanner takes the body of a template with its backtick. -/
theorem takes_templateBody : Takes [.template] (templateBody raw more ++ ['\x60']) := by
  have hflat := hraw raw (List.mem_cons_self ..)
  induction more generalizing raw with
  | nil => exact takes_backtick.lead fun t => hflat.resume_template (by simp) []
  | cons p more ih =>
    obtain ⟨e, next⟩ := p
    obtain ⟨he, hmore⟩ := List.forall_mem_cons.mp hclosed
    have hnext := (List.forall_mem_cons.mp hraw).2
    have hrest := ih hnext hmore (hnext next (List.mem_cons_self ..))
    have hlead : Takes [.template]
        (raw ++ '$' :: '{' :: (e ++ '}' :: (templateBody next more ++ ['\x60']))) :=
      (takes_substitution he hrest).lead fun t => hflat.resume_template (by simp) []
    simpa [templateBody] using hlead

/-- The fragments of a template are its static parts. -/
theorem splitFragments_templateBody (held : Text) :
    splitFragments held (templateBody raw more) = (held.reverse ++ raw) :: more.map (·.2) := by
  have hflat := hraw raw (List.mem_cons_self ..)
  induction more generalizing raw held with
  | nil => exact hflat.splitFragments held
  | cons p more ih =>
    obtain ⟨e, next⟩ := p
    obtain ⟨he, hmore⟩ := List.forall_mem_cons.mp hclosed
    have hnext := (List.forall_mem_cons.mp hraw).2
    have hrest := ih hnext hmore [] (hnext next (List.mem_cons_self ..))
    have hbrace := he (templateBody next more)
    rw [templateBody, hflat.splitFragments_append (by simp), splitFragments]
    split
    next r hr =>
      obtain rfl := Option.some.inj (hbrace.symm.trans hr)
      rw [hrest, List.reverse_append, List.reverse_reverse]
      rfl
    next hr => cases hbrace.symm.trans hr

end

theorem templateBody_eq_append (raw : Text) (more : List (Text × Text)) :
    templateBody raw more = raw ++ templateBody [] more := by
  have hsplit := templateBody_append raw [] more
  rwa [List.append_nil] at hsplit

/-- What the scanner reads in a template up to its backtick is a row of static parts with
substitutions between them. -/
theorem Leads.exists_templateBody {strict : Bool} {m m' : Mode} {w : Text}
    (h : Leads strict m w m') (hm : m = .template) :
    ∃ raw more, w = templateBody raw more ∧ (∀ r ∈ raw :: more.map (·.2), Flat .template r) ∧
      ∀ e ∈ more.map (·.1), ClosedByBrace e := by
  induction h with
  | nil => exact ⟨[], [], rfl, by simpa using Flat.nil, by simp⟩
  | @pass _ _ _ c s hc _ ih =>
    obtain ⟨raw, more, rfl, hraw, hclosed⟩ := ih hm
    obtain ⟨hfirst, hrest⟩ := List.forall_mem_cons.mp hraw
    subst hm
    rw [templateBody_eq_append] at hc
    have hflat := Flat.pass (Mode.passes_of_append hc) hfirst
    exact ⟨c :: raw, more, (templateBody_append [c] raw more).symm,
      List.forall_mem_cons.mpr ⟨hflat, hrest⟩, hclosed⟩
  | escape c _ _ ih =>
    obtain ⟨raw, more, rfl, hraw, hclosed⟩ := ih hm
    obtain ⟨hfirst, hrest⟩ := List.forall_mem_cons.mp hraw
    exact ⟨'\\' :: c :: raw, more, (templateBody_append ['\\', c] raw more).symm,
      List.forall_mem_cons.mpr ⟨.escape c hfirst, hrest⟩, hclosed⟩
  | opening | closing => cases hm
  | @nested _ _ _ _ _ inner _ s hopening hinner hclosing _ _ ih =>
    obtain ⟨raw, more, rfl, hraw, hclosed⟩ := ih hm
    subst hm
    cases hopening
    cases hclosing
    exact ⟨[], (inner, raw) :: more, rfl, List.forall_mem_cons.mpr ⟨.nil, hraw⟩,
      List.forall_mem_cons.mpr ⟨afterBrace_of_strict hinner, hclosed⟩⟩

theorem exists_templateBody_of_afterTemplate {t : Text} (h : afterTemplate t = some []) :
    ∃ raw more, t = templateBody raw more ++ ['\x60'] ∧
      (∀ r ∈ raw :: more.map (·.2), Flat .template r) ∧
      ∀ e ∈ more.map (·.1), ClosedByBrace e := by
  cases unwinds_of_resume h with
  | close hw hclosing hs =>
    cases hclosing
    cases hs
    obtain ⟨raw, more, rfl, hraw, hclosed⟩ := hw.exists_templateBody rfl
    exact ⟨raw, more, rfl, hraw, hclosed⟩

/-- A text is classified as a template exactly if it is one literal in backticks. -/
theorem classify_eq_template {s : Text} {fs : List Fragment} :
    Expression.classify s = .template fs ↔
      ∃ t, s = '\x60' :: t ∧ afterTemplate t = some [] ∧
        fs = (splitFragments [] t.dropLast).map .ofRaw := by
  constructor
  · intro h
    unfold Expression.classify at h
    split at h
    next => cases h
    next c t =>
      split at h
      next => cases h
      next =>
        split at h
        next hc =>
          simp only [Bool.and_eq_true, beq_iff_eq] at hc
          obtain ⟨rfl, hafter⟩ := hc
          exact ⟨t, rfl, hafter, (Expression.template.inj h).symm⟩
        next => cases h
  · rintro ⟨t, rfl, hafter, rfl⟩
    simp [Expression.classify, isQuote, hafter]

/-- An expression is a template exactly if it is, between backticks, a row of static parts with
substitutions between them, each closed by the brace that the scanner finds. Its fragments are the
static parts with their decoded forms, so there is one more of them than there are substitutions. -/
theorem classify_eq_template_iff {s : Text} {fs : List Fragment} :
    Expression.classify s = .template fs ↔
      ∃ raw more, s = Delimiter.backtick.enclose (templateBody raw more) ∧
        (∀ r ∈ raw :: more.map (·.2), Flat .template r) ∧
        (∀ e ∈ more.map (·.1), ClosedByBrace e) ∧
        fs = (raw :: more.map (·.2)).map Fragment.ofRaw := by
  rw [classify_eq_template]
  constructor
  · rintro ⟨t, rfl, hafter, rfl⟩
    obtain ⟨raw, more, rfl, hraw, hclosed⟩ := exists_templateBody_of_afterTemplate hafter
    have hsplit := splitFragments_templateBody hraw hclosed []
    refine ⟨raw, more, rfl, hraw, hclosed, ?_⟩
    rw [List.dropLast_concat, hsplit]
    rfl
  · rintro ⟨raw, more, rfl, hraw, hclosed, rfl⟩
    have hafter := takes_templateBody hraw hclosed []
    have hsplit := splitFragments_templateBody hraw hclosed []
    rw [List.append_nil] at hafter
    refine ⟨_, rfl, hafter, ?_⟩
    rw [List.dropLast_concat, hsplit]
    rfl

end MarkupHighlight.Script
