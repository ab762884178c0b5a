import MarkupHighlight.Highlight.Asking

/-!
Runs of computations that ask a highlighter. With all answers given, a computation is the same one
on plain results: `answered` goes along with sequencing and with loops (`answered_bind`,
`answered_foldlM`), and what is asked is `asked`, in order. A `Trace` has the questions of a run
with their answers, and the trace of a sequence is that of its parts (`Trace.of_bind`).
-/
namespace MarkupHighlight

namespace Asking

variable {α β : Type}

/-- The questions that are put if each has one answer. -/
def calls (answer : Call → Answer) : Asking α → List Call
  | .done _ => []
  | .ask call next => call :: (next (answer call)).calls answer

/-- A run with its questions and answers in order. A question that is put twice may get two
answers. -/
inductive Trace : Asking α → List (Call × Answer) → α → Prop
  | done (a : α) : Trace (.done a) [] a
  | ask {call : Call} {next : Answer → Asking α} {t : List (Call × Answer)} {r : α}
      (answer : Answer) (h : Trace (next answer) t r) :
      Trace (.ask call next) ((call, answer) :: t) r

theorem run_bind (answer : Call → Answer) (x : Asking α) (f : α → Asking β) :
    (x >>= f).run answer = (f (x.run answer)).run answer := by
  induction x with
  | done a => rfl
  | ask call next ih => exact ih (answer call)

theorem calls_bind (answer : Call → Answer) (x : Asking α) (f : α → Asking β) :
    (x >>= f).calls answer = x.calls answer ++ (f (x.run answer)).calls answer := by
  induction x with
  | done a => rfl
  | ask call next ih => exact congrArg (call :: ·) (ih (answer call))

theorem Trace.of_bind {x : Asking α} {f : α → Asking β} {t : List (Call × Answer)} {r : β}
    (h : (x >>= f).Trace t r) :
    ∃ t₁ a t₂, t = t₁ ++ t₂ ∧ x.Trace t₁ a ∧ (f a).Trace t₂ r := by
  induction x generalizing t with
  | done a => exact ⟨[], a, t, rfl, .done a, h⟩
  | ask call next ih =>
    cases h with
    | ask answer h =>
      obtain ⟨t₁, a, t₂, rfl, hx, hf⟩ := ih answer h
      exact ⟨(call, answer) :: t₁, a, t₂, rfl, .ask answer hx, hf⟩

theorem trace_run (answer : Call → Answer) (x : Asking α) :
    x.Trace ((x.calls answer).map fun call => (call, answer call)) (x.run answer) := by
  induction x with
  | done a => exact .done a
  | ask call next ih => exact .ask (answer call) (ih (answer call))

end Asking

/-! Results. -/

section
variable {ε ε' α β : Type}

theorem bind_eq_ok_iff {x : Except ε α} {f : α → Except ε β} {b : β} :
    x >>= f = .ok b ↔ ∃ a, x = .ok a ∧ f a = .ok b := by
  cases x with
  | error e => exact ⟨nofun, nofun⟩
  | ok a => exact ⟨fun h => ⟨a, rfl, h⟩, fun ⟨_, rfl, h⟩ => h⟩

@[simp] theorem mapError_ok (g : ε → ε') (a : α) :
    (.ok a : Except ε α).mapError g = .ok a := rfl

theorem mapError_eq_ok_iff {x : Except ε α} {g : ε → ε'} {a : α} :
    x.mapError g = .ok a ↔ x = .ok a := by
  cases x with
  | error e => exact ⟨nofun, nofun⟩
  | ok b => simp only [mapError_ok, Except.ok.injEq]

end

/-! Computations with all answers given. -/

section
variable {ε ε' α β : Type} (answer : Call → Answer)

@[simp] theorem answered_pure (a : α) : answered answer (pure a : ExceptT ε Asking α) = .ok a := rfl

@[simp] theorem answered_ofExcept (r : Except ε α) :
    answered answer (MonadExcept.ofExcept r : ExceptT ε Asking α) = r := by
  cases r <;> rfl

@[simp] theorem answered_put (call : Call) : answered answer call.put = answer call := rfl

theorem answered_bind (x : ExceptT ε Asking α) (f : α → ExceptT ε Asking β) :
    answered answer (x >>= f) = answered answer x >>= fun a => answered answer (f a) := by
  change (x.run >>= ExceptT.bindCont f).run answer = _
  rw [Asking.run_bind]
  unfold answered
  cases x.run.run answer <;> rfl

theorem answered_adapt (g : ε → ε') (x : ExceptT ε Asking α) :
    answered answer (x.adapt g) = (answered answer x).mapError g := by
  change (x.run >>= fun r => pure (Except.mapError g r)).run answer = _
  rw [Asking.run_bind]
  rfl

/-- The questions of a computation whose questions get the given answers. -/
def asked (x : ExceptT ε Asking α) : List Call := x.run.calls answer

@[simp] theorem asked_ofExcept (r : Except ε α) :
    asked answer (MonadExcept.ofExcept r : ExceptT ε Asking α) = [] := by
  cases r <;> rfl

@[simp] theorem asked_put (call : Call) : asked answer call.put = [call] := rfl

theorem asked_bind (x : ExceptT ε Asking α) (f : α → ExceptT ε Asking β) :
    asked answer (x >>= f) = asked answer x ++
      match answered answer x with
      | .ok a => asked answer (f a)
      | .error _ => [] := by
  change (x.run >>= ExceptT.bindCont f).calls answer = _
  rw [Asking.calls_bind]
  unfold asked answered
  cases x.run.run answer <;> rfl

/-- What comes after the last question asks no more. -/
theorem asked_bind_of_forall {x : ExceptT ε Asking α} {f : α → ExceptT ε Asking β}
    (h : ∀ a, asked answer (f a) = []) : asked answer (x >>= f) = asked answer x := by
  rw [asked_bind]
  cases answered answer x with
  | error e => exact List.append_nil _
  | ok a =>
    dsimp only
    rw [h a, List.append_nil]

theorem asked_adapt (g : ε → ε') (x : ExceptT ε Asking α) :
    asked answer (x.adapt g) = asked answer x := by
  change (x.run >>= fun r => pure (Except.mapError g r)).calls answer = _
  rw [Asking.calls_bind]
  exact List.append_nil _

theorem answered_foldlM (f : β → α → ExceptT ε Asking β) (b : β) (as : List α) :
    answered answer (as.foldlM f b) = as.foldlM (fun b a => answered answer (f b a)) b := by
  induction as generalizing b with
  | nil => rfl
  | cons a as ih =>
    rw [List.foldlM_cons, answered_bind, List.foldlM_cons]
    simp only [ih]

end

end MarkupHighlight
