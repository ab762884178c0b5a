import MarkupHighlight.Syntax.Tree

/-!
Errors in syntax trees. A tree is searched for them only below nodes that say they have an error,
and this misses none exactly if every node says so that has one below it (`problems_eq_iff`).
-/
namespace MarkupHighlight.Syntax

mutual

/-- A tree and the trees below it, each one before those below it. -/
def Tree.preorder : Tree → List Tree
  | .node info children => .node info children :: preorderAmong children

def preorderAmong : List Tree → List Tree
  | [] => []
  | t :: ts => t.preorder ++ preorderAmong ts

end

/-- The node is an error or is missing. -/
def Tree.isFault (t : Tree) : Bool := t.info.isError || t.info.isMissing

/-- All error nodes and missing nodes, in the order of `preorder`. -/
def Tree.faults (t : Tree) : List Tree := t.preorder.filter Tree.isFault

/-- Every node with an error node or a missing node below it says that it has an error. A fault
need not say so of itself, as there are error nodes without children that do not. -/
def Tree.Announced (t : Tree) : Prop :=
  ∀ u ∈ t.preorder, (∃ v ∈ preorderAmong u.children, v.isFault = true) → u.info.hasError = true

instance : DecidablePred Tree.Announced := fun t =>
  inferInstanceAs (Decidable (∀ u ∈ t.preorder,
    (∃ v ∈ preorderAmong u.children, v.isFault = true) → u.info.hasError = true))

/-- Only errors and missing nodes and the nodes above them say that they have an error. -/
def Tree.FlaggedOnly (t : Tree) : Prop :=
  ∀ u ∈ t.preorder, u.info.hasError = true → ∃ v ∈ u.preorder, v.isFault = true

instance : DecidablePred Tree.FlaggedOnly := fun t =>
  inferInstanceAs (Decidable (∀ u ∈ t.preorder, u.info.hasError = true →
    ∃ v ∈ u.preorder, v.isFault = true))

theorem Tree.preorder_eq_cons (t : Tree) : t.preorder = t :: preorderAmong t.children := by
  cases t
  rfl

theorem mem_preorderAmong {u : Tree} {ts : List Tree} :
    u ∈ preorderAmong ts ↔ ∃ t ∈ ts, u ∈ t.preorder := by
  induction ts with
  | nil => simp [preorderAmong]
  | cons t ts ih => simp [preorderAmong, ih]

theorem Tree.announced_node_iff {info : NodeInfo} {children : List Tree} :
    (Tree.node info children).Announced ↔
      ((∃ v ∈ preorderAmong children, v.isFault = true) → info.hasError = true) ∧
        ∀ t ∈ children, t.Announced := by
  simp only [Announced, preorder, List.forall_mem_cons, Tree.children, Tree.info]
  refine and_congr_right fun _ => ⟨fun h t ht u hu => h u (mem_preorderAmong.mpr ⟨t, ht, hu⟩), ?_⟩
  intro h u hu
  obtain ⟨t, ht, hu⟩ := mem_preorderAmong.mp hu
  exact h t ht u hu

/-! The search. -/

theorem Tree.map_span_faults (info : NodeInfo) (children : List Tree) :
    (Tree.node info children).faults.map Tree.span =
      (if info.isError || info.isMissing then [info.span] else []) ++
        ((preorderAmong children).filter Tree.isFault).map Tree.span := by
  rw [faults, preorder, List.filter_cons, isFault, Tree.info]
  split <;> rfl

theorem map_span_filter_preorderAmong (t : Tree) (ts : List Tree) :
    ((preorderAmong (t :: ts)).filter Tree.isFault).map Tree.span =
      t.faults.map Tree.span ++ ((preorderAmong ts).filter Tree.isFault).map Tree.span := by
  rw [preorderAmong, List.filter_append, List.map_append, Tree.faults]

mutual

/-- Whatever the nodes say, only faults are listed, and in their order. -/
theorem Tree.problems_sublist : (t : Tree) → t.problems.Sublist (t.faults.map Tree.span)
  | .node info children => by
      rw [Tree.problems, Tree.map_span_faults]
      refine (List.Sublist.refl _).append ?_
      split
      · exact problemsAmong_sublist children
      · exact List.nil_sublist _

theorem problemsAmong_sublist : (ts : List Tree) →
    (problemsAmong ts).Sublist (((preorderAmong ts).filter Tree.isFault).map Tree.span)
  | [] => List.nil_sublist _
  | t :: ts => by
      rw [problemsAmong, map_span_filter_preorderAmong]
      exact t.problems_sublist.append (problemsAmong_sublist ts)

end

/-- Two lists lose nothing together exactly if neither of them loses anything. -/
theorem append_eq_append_iff_of_sublist {α : Type} {a b c d : List α} (hac : a.Sublist c)
    (hbd : b.Sublist d) : a ++ b = c ++ d ↔ a = c ∧ b = d := by
  constructor
  · intro h
    have hlength := congrArg List.length h
    rw [List.length_append, List.length_append] at hlength
    have := hac.length_le
    have := hbd.length_le
    exact List.append_inj h (by omega)
  · rintro ⟨rfl, rfl⟩
    rfl

mutual

/-- The search misses no fault exactly if every node above a fault says that there is one. -/
theorem Tree.problems_eq_iff : (t : Tree) →
    (t.problems = t.faults.map Tree.span ↔ t.Announced)
  | .node info children => by
      rw [Tree.problems, Tree.map_span_faults, List.append_cancel_left_eq, Tree.announced_node_iff,
        ← problemsAmong_eq_iff children]
      cases info.hasError with
      | true => simp
      | false =>
        -- Nothing below is listed, which is right exactly if there is nothing.
        have hlisted := problemsAmong_sublist children
        constructor
        · intro h
          have hnone := List.map_eq_nil_iff.mp h.symm
          rw [hnone] at hlisted ⊢
          exact ⟨fun ⟨v, hv, hfault⟩ => absurd hfault (List.filter_eq_nil_iff.mp hnone v hv),
            List.sublist_nil.mp hlisted⟩
        · rintro ⟨h, -⟩
          have hnone : (preorderAmong children).filter Tree.isFault = [] :=
            List.filter_eq_nil_iff.mpr fun v hv hfault => Bool.false_ne_true (h ⟨v, hv, hfault⟩)
          rw [hnone]
          rfl

theorem problemsAmong_eq_iff : (ts : List Tree) →
    (problemsAmong ts = ((preorderAmong ts).filter Tree.isFault).map Tree.span ↔
      ∀ t ∈ ts, t.Announced)
  | [] => by simp [problemsAmong, preorderAmong]
  | t :: ts => by
      rw [problemsAmong, map_span_filter_preorderAmong, List.forall_mem_cons,
        ← t.problems_eq_iff, ← problemsAmong_eq_iff ts]
      exact append_eq_append_iff_of_sublist t.problems_sublist (problemsAmong_sublist ts)

end

/-! What the root and the first fault tell. -/

/-- Where a fault at the root says so of itself, the root knows whether there are any. -/
theorem Tree.faults_eq_nil_iff {t : Tree} (h : t.Announced)
    (hroot : t.isFault = true → t.hasErrors = true) (honly : t.FlaggedOnly) :
    t.faults = [] ↔ t.hasErrors = false := by
  rw [faults, List.filter_eq_nil_iff]
  have hself : t ∈ t.preorder := by
    rw [t.preorder_eq_cons]
    exact List.mem_cons_self
  constructor
  · intro hnone
    rw [Bool.eq_false_iff]
    intro hflag
    obtain ⟨v, hv, hfault⟩ := honly t hself hflag
    exact hnone v hv hfault
  · intro hflag v hv hfault
    rw [t.preorder_eq_cons] at hv
    have hflagged : t.hasErrors = true := by
      obtain rfl | hbelow := List.mem_cons.mp hv
      · exact hroot hfault
      · exact h t hself ⟨v, hbelow, hfault⟩
    rw [hflag] at hflagged
    cases hflagged

theorem Tree.check_of_faults_eq_nil {t : Tree} (h : t.Announced) (hnone : t.faults = [])
    (source : Text) : t.check source = .ok () := by
  rw [check, t.problems_eq_iff.mpr h, hnone]
  rfl

theorem Tree.check_of_faults_eq_cons {t first : Tree} {rest : List Tree} (h : t.Announced)
    (hfirst : t.faults = first :: rest) (source : Text) :
    t.check source = .error (.unexpectedToken first.span (lineColumn source first.span.start)) := by
  rw [check, t.problems_eq_iff.mpr h, hfirst]
  rfl

end MarkupHighlight.Syntax
