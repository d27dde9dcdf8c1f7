import HotRename.Proofs.Except
import HotRename.Rename.Engine

/-!
# Results of inquiries

The questions that an inquiry asks have no influence on its result. `Inquiry.result` forgets them:
it takes every step of an inquiry to the same step of a computation that may fail.
-/

namespace HotRename

namespace Inquiry

/-- What an inquiry gives. -/
def result (x : Inquiry α) : Except RenameError α :=
  x.run.answer

/-- The answer of a run is the result. -/
theorem run_answer (x : Inquiry α) : x.run.answer = x.result := rfl

/-- An inquiry that asks nothing gives its value. -/
@[simp] theorem result_pure (a : α) : (pure a : Inquiry α).result = .ok a := rfl

/-- An inquiry that gives up gives its error. -/
@[simp] theorem result_throw (err : RenameError) :
    (throw err : Inquiry α).result = .error err := rfl

/-- Inquiries one after the other stop at the first error. -/
@[simp] theorem result_bind (x : Inquiry α) (f : α → Inquiry β) :
    (x >>= f).result = x.result >>= fun a => (f a).result := by
  show (ExceptT.bindCont f x.run.answer).answer = _
  unfold result
  cases x.run.answer <;> rfl

/-- A condition may be decided first. -/
@[simp] theorem result_ite (c : Prop) [Decidable c] (x y : Inquiry α) :
    (if c then x else y).result = if c then x.result else y.result := by
  split <;> rfl

/-- A question without an answer counts as the default, and a failure ends the inquiry. -/
@[simp] theorem result_ask (q : Question) (answer : Answer α) (default : α) :
    (ask q answer default).result =
      (Answer.orDefault default answer).mapError RenameError.collaborator := rfl

/-- A question without an answer is told apart from the others. -/
@[simp] theorem result_askSupported (q : Question) (answer : Answer α) :
    (askSupported q answer).result = answer.supported.mapError RenameError.collaborator := rfl

/-- An error of another kind is passed on as an error of a rename. -/
@[simp] theorem result_ofExcept (f : ε → RenameError) (x : Except ε α) :
    (ofExcept f x).result = x.mapError f := rfl

/-- Questions whose failures are only reported do not end an inquiry. -/
@[simp] theorem result_lift (x : Asked α) :
    result (ExceptT.lift x : Inquiry α) = .ok x.answer := rfl

end Inquiry

/-- A missing capability counts as the default, and every other answer as itself. -/
theorem Answer.orDefault_eq_ok {default a : α} {answer : Answer α} :
    answer.orDefault default = .ok a ↔
      answer = .ok a ∨ (∃ c, answer = .error (.unsupported c)) ∧ default = a := by
  cases answer with
  | ok b => simp [Answer.orDefault]
  | error err => cases err <;> simp [Answer.orDefault]

end HotRename
