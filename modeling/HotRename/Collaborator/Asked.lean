import HotRename.Collaborator.Analyzer
import HotRename.Collaborator.Patch
import HotRename.Collaborator.SyntaxTree

/-!
# Questions asked

A computation that asks collaborators carries the list of its questions along with its result, in
the order in which they were asked. The questions have no influence on the result: `Asked.answer`
is what the computation gives, `Asked.questions` is what it asked for.

* `answer_bind`     `(x >>= f).answer = (f x.answer).answer`
* `questions_bind`  `(x >>= f).questions = x.questions ++ (f x.answer).questions`
-/

namespace HotRename

/-- A question to a collaborator. -/
inductive Question where
  | hasSymbol (id : SymbolId)
  | occurrences (id : SymbolId)
  | lookup (name : String) (scope : Option String)
  | reservedKeywords
  | validateEdits (edit : WorkspaceEdit)
  | fileSymbols (path : Path)
  | dependents (ids : List SymbolId)
  | symbolAt (path : Path) (offset : Nat)
  | parse (path : Path)
  | transpile (source : ScriptSource)
  deriving DecidableEq, Repr

namespace Question

/-- The question is what a name means in a scope. -/
def isLookup : Question → Bool
  | lookup _ _ => true
  | _ => false

/-- The question is where a symbol occurs. -/
def isOccurrences : Question → Bool
  | occurrences _ => true
  | _ => false

/-- The script that is to be transpiled. -/
def script? : Question → Option ScriptSource
  | transpile source => some source
  | _ => none

end Question

/-- A result together with the questions that led to it. -/
structure Asked (α : Type u) where
  answer : α
  questions : List Question

namespace Asked

/-- Asks one question. -/
def ask (q : Question) (answer : α) : Asked α :=
  ⟨answer, [q]⟩

instance : Monad Asked where
  pure a := ⟨a, []⟩
  bind x f := ⟨(f x.answer).answer, x.questions ++ (f x.answer).questions⟩

variable {α β : Type u}

@[simp] theorem answer_pure (a : α) : (pure a : Asked α).answer = a := rfl

@[simp] theorem questions_pure (a : α) : (pure a : Asked α).questions = [] := rfl

@[simp] theorem answer_bind (x : Asked α) (f : α → Asked β) :
    (x >>= f).answer = (f x.answer).answer := rfl

@[simp] theorem questions_bind (x : Asked α) (f : α → Asked β) :
    (x >>= f).questions = x.questions ++ (f x.answer).questions := rfl

@[simp] theorem answer_ask (q : Question) (a : α) : (ask q a).answer = a := rfl

@[simp] theorem questions_ask (q : Question) (a : α) : (ask q a).questions = [q] := rfl

/-- A computation is known by its answer and its questions. -/
@[ext] theorem ext {x y : Asked α} (ha : x.answer = y.answer)
    (hq : x.questions = y.questions) : x = y := by
  cases x; cases y; simp_all

instance : LawfulMonad Asked :=
  LawfulMonad.mk' Asked
    (fun x => by apply ext; · rfl
                 · exact List.append_nil _)
    (fun _ _ => by apply ext <;> rfl)
    (fun x f g => by
      apply ext
      · rfl
      · simp [List.append_assoc])

end Asked
end HotRename
