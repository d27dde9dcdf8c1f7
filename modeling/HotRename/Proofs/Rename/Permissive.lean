import HotRename.Proofs.Rename.Batch
import HotRename.Proofs.Rename.Execute
import HotRename.Rename.Impact

/-!
# Missing capabilities

A collaborator may lack any of its capabilities, and answer some questions and not others. Nothing
that it leaves open is held against a rename: no operation ends because a capability is missing,
and every conflict, every finding of the check of edited files and every verdict goes back to an
answer, to a failure, or to something that no collaborator was asked about. Main statements:

* `Inquiry.Ends`            what an inquiry may end in
* `detectConflicts_grounded`, `inspectAll_grounded`  what the loops collect
* `Engine.permissive`       the operations of the engine
-/

namespace HotRename

/-! ## What an inquiry ends in -/

namespace Inquiry

variable {α β ε : Type} {E E' : RenameError → Prop} {P Q : α → Prop}

/-- The inquiry ends in an error of the one kind, or in a result of the other. -/
def Ends (x : Inquiry α) (E : RenameError → Prop) (Q : α → Prop) : Prop :=
  match x.result with
  | .error err => E err
  | .ok a => Q a

/-- An error of such an inquiry is of the kind. -/
theorem Ends.error {x : Inquiry α} {err : RenameError} (h : x.Ends E Q)
    (hx : x.result = .error err) : E err := by
  unfold Ends at h
  rw [hx] at h
  exact h

/-- So is a result. -/
theorem Ends.ok {x : Inquiry α} {a : α} (h : x.Ends E Q) (hx : x.result = .ok a) : Q a := by
  unfold Ends at h
  rw [hx] at h
  exact h

/-- More errors and more results may be allowed. -/
theorem Ends.mono {x : Inquiry α} (h : x.Ends E P) (herr : ∀ err, E err → E' err)
    (hok : ∀ a, P a → Q a) : x.Ends E' Q := by
  unfold Ends
  cases hresult : x.result with
  | error err => exact herr err (h.error hresult)
  | ok a => exact hok a (h.ok hresult)

/-- What follows an inquiry may rely on its result. -/
theorem Ends.bind {x : Inquiry α} {f : α → Inquiry β} {R : β → Prop} (hx : x.Ends E P)
    (hf : ∀ a, P a → (f a).Ends E R) : (x >>= f).Ends E R := by
  unfold Ends
  rw [result_bind]
  cases hresult : x.result with
  | error err => exact hx.error hresult
  | ok a => exact hf a (hx.ok hresult)

/-- An inquiry that asks nothing ends in its value. -/
theorem ends_pure {a : α} (h : Q a) : (pure a : Inquiry α).Ends E Q := h

/-- An inquiry that gives up ends in its error. -/
theorem ends_throw {err : RenameError} (h : E err) : (throw err : Inquiry α).Ends E Q := h

/-- What is thrown does not come to what follows. -/
theorem ends_throw_bind {err : RenameError} {f : β → Inquiry α} (h : E err) :
    ((throw err : Inquiry β) >>= f).Ends E Q := h

/-- Questions whose failures are only reported end in their answer. -/
theorem ends_lift {x : Asked α} (h : Q x.answer) :
    Ends (ExceptT.lift x : Inquiry α) E Q := h

/-- A step that asks nothing may be refused, and else ends in its value. -/
theorem ends_ofExcept {f : ε → RenameError} {x : Except ε α} (herr : ∀ err, E (f err))
    (hok : ∀ a, x = .ok a → Q a) : (ofExcept f x).Ends E Q := by
  unfold Ends
  rw [result_ofExcept]
  cases x with
  | error err => exact herr err
  | ok a => exact hok a rfl

/-- A question with a default ends an inquiry by a failure only. -/
theorem ends_ask {q : Question} {answer : Answer α} {default : α}
    (hfailed : ∀ c why, answer = .error (.failed c why) → E (.collaborator (.failed c why)))
    (hok : ∀ a, answer = .ok a → Q a) (hmissing : Q default) :
    (ask q answer default).Ends E Q := by
  unfold Ends
  rw [result_ask]
  rcases answer with (c | ⟨c, why⟩) | a
  · exact hmissing
  · exact hfailed c why rfl
  · exact hok a rfl

/-- So does a question for a capability that may be missing. -/
theorem ends_askSupported {q : Question} {answer : Answer α} {Q : Option α → Prop}
    (hfailed : ∀ c why, answer = .error (.failed c why) → E (.collaborator (.failed c why)))
    (hok : ∀ a, answer = .ok a → Q (some a)) (hmissing : Q none) :
    (askSupported q answer).Ends E Q := by
  unfold Ends
  rw [result_askSupported]
  rcases answer with (c | ⟨c, why⟩) | a
  · exact hmissing
  · exact hfailed c why rfl
  · exact hok a rfl

end Inquiry

/-! ## Grounds -/

/-- What a conflict with a rename may go back to. -/
inductive Conflict.Grounded (e : Engine) (r : RenameRequest) : Conflict → Prop where
  /-- The analyzer knows another symbol by the new name. -/
  | taken {existing : SymbolId} {scope : Option String}
    (h : e.analyzer.lookup r.newName scope = .ok (some existing)) (hne : existing ≠ r.symbolId)
    (path : Path) : Grounded e r (.shadow r.newName existing scope path)
  /-- The analyzer failed to tell what the new name means. -/
  | lookupFailed {scope : Option String} {c : Capability} {why : String}
    (h : e.analyzer.lookup r.newName scope = .error (.failed c why)) (path : Path) :
    Grounded e r (.analysisError
      s!"lookup of '{r.newName}' failed: {(CollaboratorError.failed c why).message}" (some path))
  /-- The new name is reserved by the language or the settings. -/
  | reserved
    (h : (ReservedWords.builtin.extend e.config.extraReservedWords).contains r.newName = true) :
    Grounded e r (.reserved r.newName)
  /-- The new name is reserved when the words of the analyzer are. -/
  | keyword {words : List String} (h : e.analyzer.reservedKeywords = .ok words)
    (hname : ((ReservedWords.builtin.extend e.config.extraReservedWords).extend words).contains
      r.newName = true) : Grounded e r (.reserved r.newName)
  /-- The analyzer failed to tell its words. -/
  | keywordsFailed {c : Capability} {why : String}
    (h : e.analyzer.reservedKeywords = .error (.failed c why)) :
    Grounded e r (.analysisError
      s!"reserved keyword query failed: {(CollaboratorError.failed c why).message}" none)
  | badName {err : IdentifierError} (h : Identifier.validate r.newName = .error err) :
    Grounded e r (.invalidIdentifier err)
  /-- The analyzer says that there is no such symbol. -/
  | missing (h : e.analyzer.hasSymbol r.symbolId = .ok false) :
    Grounded e r (.missingSymbol r.symbolId)

/-- What a finding in an edited file may go back to. -/
inductive Integrity.Grounded (e : Engine) (oldName newName : String)
    (read : Path → Except StorageError String) : String → Prop where
  | unread {path : Path} {err : StorageError} (h : read path = .error err) :
    Grounded e oldName newName read s!"cannot read {path.text}: {err.message}"
  | leftover {path : Path} {text finding : String} (h : read path = .ok text)
    (hfinding : finding ∈ leftover e.words path oldName text) :
    Grounded e oldName newName read finding
  | absent {path : Path} {text finding : String} (h : read path = .ok text)
    (hfinding : finding ∈ absent e.words path newName text) :
    Grounded e oldName newName read finding
  /-- The parser was asked for and failed. -/
  | unparsed {path : Path} {c : Capability} {why : String} (hasked : e.config.verifySyntax = true)
    (h : e.parser.parse path = .error (.failed c why)) :
    Grounded e oldName newName read
      s!"{path.text} no longer parses: {(CollaboratorError.failed c why).message}"

/-- What a verdict on a reload may go back to. -/
inductive Safety.Grounded (e : Engine) (r : RenameRequest) : Safety → Prop where
  | kind : Grounded e r (.ofKind r.symbolId.kind)
  | badName {err : IdentifierError} {verdict : Safety}
    (h : Identifier.validate r.newName = .error err) : Grounded e r verdict
  | missing {verdict : Safety} (h : e.analyzer.hasSymbol r.symbolId = .ok false) :
    Grounded e r verdict
  | blocked {verdict : Safety} {conflicts : List Conflict} (hne : conflicts ≠ [])
    (h : ∀ c ∈ conflicts, c.isBlocking = true ∧ c.Grounded e r)
    (hverdict : verdict.suggestions = conflicts.map Conflict.message) : Grounded e r verdict

/-- What an error may go back to, as far as collaborators have to do with it. A collaborator that
    ends an operation has failed. -/
def RenameError.Grounded (e : Engine) (renames : List RenameRequest) : RenameError → Prop
  | .symbolNotFound id => e.analyzer.hasSymbol id = .ok false
  | .conflicts cs => ∃ r ∈ renames, ∀ c ∈ cs, c.Grounded e r
  | .editsRejected errors => ∃ edit verdict, e.analyzer.validateEdits edit = .ok verdict ∧
      verdict.valid = false ∧ verdict.errors = errors
  | .collaborator err => err.isUnsupported = false
  | _ => True

/-- What goes back to some of the requests goes back to more of them. -/
theorem RenameError.Grounded.mono {e : Engine} {renames renames' : List RenameRequest}
    {err : RenameError} (h : err.Grounded e renames) (hsub : renames ⊆ renames') :
    err.Grounded e renames' := by
  cases err with
  | conflicts cs =>
    obtain ⟨r, hr, hcs⟩ := h
    exact ⟨r, hsub hr, hcs⟩
  | _ => exact h

/-- An error that was found in the request alone has to do with no collaborator. -/
theorem RenameError.grounded_of_isInputError {e : Engine} {renames : List RenameRequest}
    {err : RenameError} (h : err.isInputError = true) : err.Grounded e renames := by
  cases err <;> first | exact trivial | cases h

namespace Batch

variable {renames : List RenameRequest} {err : RenameError}

/-- A name is refused for itself. -/
theorem isInputError_of_checkNames (h : checkNames renames = .error err) :
    err.isInputError = true := by
  induction renames with
  | nil => cases h
  | cons r rs ih =>
    rw [checkNames] at h
    rcases Except.bind_eq_error.mp h with h | ⟨_, -, h⟩
    · obtain ⟨_, -, rfl⟩ := Except.mapError_eq_error.mp h
      rfl
    · exact ih h

/-- A symbol that is renamed twice is seen in the requests. -/
theorem isInputError_of_checkSources {seen : List SymbolId}
    (h : checkSources seen renames = .error err) : err.isInputError = true := by
  induction renames generalizing seen with
  | nil => cases h
  | cons r rs ih =>
    rw [checkSources] at h
    split at h
    · cases h
      rfl
    · exact ih h

/-- What the checks of a batch as a whole refuse lies in the requests. -/
theorem isInputError_of_check (h : check renames = .error err) : err.isInputError = true := by
  unfold check at h
  split at h
  · cases h
    rfl
  · simp only [Except.bind_eq_error] at h
    -- The checks are made one after the other, and none asks a collaborator.
    rcases h with h | ⟨_, -, h | ⟨_, -, h | ⟨_, -, h⟩⟩⟩
    · exact isInputError_of_checkNames h
    · exact isInputError_of_checkSources h
    · unfold checkTargets at h
      split at h <;> cases h
      rfl
    · unfold checkChains at h
      split at h <;> cases h
      rfl

end Batch

namespace Engine

open Inquiry

variable {e : Engine} {r : RenameRequest}

/-! ## What the loops collect -/

/-- Conflicts about taken names go back to an answer or to a failure. -/
theorem shadowConflicts_grounded (checked : List (Option String)) (occurrences : List Occurrence) :
    ∀ c ∈ (e.shadowConflicts r.symbolId r.newName checked occurrences).answer, c.Grounded e r := by
  induction occurrences generalizing checked with
  | nil =>
    intro c hc
    cases hc
  | cons o os ih =>
    rw [shadowConflicts]
    split
    · exact ih checked
    · rw [Asked.answer_bind, Asked.answer_ask]
      -- A missing capability ends the loop, and every other answer lets it go on.
      rcases hlookup : e.analyzer.lookup r.newName o.scope with (c | ⟨c, why⟩) | (_ | existing)
      · exact nofun
      · exact List.forall_mem_cons.mpr ⟨.lookupFailed hlookup o.path, ih _⟩
      · exact ih _
      · simp only [Answer.supported, Asked.answer_bind]
        split
        · exact ih _
        · rename_i hne
          exact List.forall_mem_cons.mpr ⟨.taken hlookup hne o.path, ih _⟩

/-- So do those about reserved words, unless the word is reserved without the analyzer. -/
theorem reservedConflicts_grounded :
    ∀ c ∈ (e.reservedConflicts r.newName).answer, c.Grounded e r := by
  -- The conflict of the name itself, whichever words are reserved.
  have hname : ∀ {words : ReservedWords}, (words.contains r.newName = true →
      (Conflict.reserved r.newName).Grounded e r) →
      ∀ c ∈ (if words.contains r.newName then [Conflict.reserved r.newName] else []),
        c.Grounded e r := by
    intro words hgrounded
    split
    · rename_i hcontains
      exact List.forall_mem_singleton.mpr (hgrounded hcontains)
    · exact nofun
  rw [reservedConflicts, reservedWords]
  simp only [Asked.answer_bind, Asked.answer_ask]
  rcases hwords : e.analyzer.reservedKeywords with (c | ⟨c, why⟩) | words
  · exact hname .reserved
  · exact List.forall_mem_cons.mpr ⟨.keywordsFailed hwords, hname .reserved⟩
  · exact hname (.keyword hwords)

/-- So do all conflicts that are found. -/
theorem detectConflicts_grounded (occurrences : List Occurrence) :
    ∀ c ∈ (e.detectConflicts r.symbolId r.newName occurrences).answer, c.Grounded e r := by
  intro c hc
  rcases List.mem_append.mp hc with hc | hc
  · exact shadowConflicts_grounded _ _ c hc
  · exact reservedConflicts_grounded c hc

/-- A file is found unparsable only by a parser that is there and is to be asked. -/
theorem parseErrors_grounded {oldName newName : String}
    {read : Path → Except StorageError String} (path : Path) :
    ∀ finding ∈ (e.parseErrors path).answer,
      Integrity.Grounded e oldName newName read finding := by
  unfold parseErrors
  split
  · rename_i hasked
    rw [Asked.answer_bind, Asked.answer_ask]
    rcases hparse : e.parser.parse path with (c | ⟨c, why⟩) | tree
    · exact nofun
    · exact List.forall_mem_singleton.mpr (.unparsed hasked hparse)
    · exact nofun
  · exact nofun

/-- What is found in a file goes back to its text, or to the parser. -/
theorem inspect_grounded {oldName newName : String} {read : Path → Except StorageError String}
    (path : Path) :
    ∀ finding ∈ (e.inspect oldName newName read path).answer.2,
      Integrity.Grounded e oldName newName read finding := by
  unfold Engine.inspect
  cases hread : read path with
  | error err => exact List.forall_mem_singleton.mpr (.unread hread)
  | ok text =>
    intro finding hfinding
    rcases List.mem_append.mp hfinding with hfinding | hfinding
    · rcases List.mem_append.mp hfinding with hfinding | hfinding
      · exact .leftover hread hfinding
      · exact .absent hread hfinding
    · exact parseErrors_grounded path finding hfinding

/-- So does what is found in several files. -/
theorem inspectAll_grounded {oldName newName : String} {read : Path → Except StorageError String}
    (files : List Path) :
    ∀ finding ∈ (e.inspectAll oldName newName read files).answer.flatMap Prod.snd,
      Integrity.Grounded e oldName newName read finding := by
  induction files with
  | nil => exact nofun
  | cons path files ih =>
    intro finding hfinding
    rw [inspectAll, Asked.answer_bind, Asked.answer_bind, Asked.answer_pure, List.flatMap_cons,
      List.mem_append] at hfinding
    rcases hfinding with hfinding | hfinding
    · exact inspect_grounded path finding hfinding
    · exact ih finding hfinding

/-- The walk of a cascade ends by a failure only. -/
theorem walk_error {dependents : List SymbolId → Answer (List Dependent)}
    {changed : List SymbolId} (finite : FiniteReach (dependentIds dependents) changed)
    (w : Cascade.Walk) (reached : Cascade.Walk.Reached dependents changed w.pending)
    {err : CollaboratorError} (h : (Cascade.walk dependents finite w reached).answer = .error err) :
    err.isUnsupported = false := by
  fun_induction Cascade.walk dependents finite w reached with
  | case1 w _ hpending => cases h
  | case2 w _ current rest hpending _ _ hseen ih => exact ih h
  | case3 w _ current rest hpending _ _ hseen err' hanswer =>
    cases h
    -- A missing capability counts as no dependents, so the error is a failure.
    rcases hdependents : dependents [current] with (c | ⟨c, why⟩) | found
    · rw [hdependents] at hanswer
      cases hanswer
    · rw [hdependents] at hanswer
      cases hanswer
      rfl
    · rw [hdependents] at hanswer
      cases hanswer
  | case4 w _ current rest hpending _ _ hseen found hanswer result ih => exact ih h

/-! ## The operations -/

/-- A symbol is missing only if the analyzer says so. -/
theorem symbolExists_ends (id : SymbolId) (renames : List RenameRequest) :
    (e.symbolExists id).Ends (RenameError.Grounded e renames)
      fun found => found = false → e.analyzer.hasSymbol id = .ok false := by
  refine ends_ask (fun _ _ _ => rfl) ?_ nofun
  rintro a h rfl
  exact h

/-- What the plan of a rename ends in: errors and notices go back to answers. -/
theorem plan_ends (e : Engine) (r : RenameRequest) :
    (e.plan r).Ends (RenameError.Grounded e [r]) fun plan =>
      ∀ c ∈ plan.notices, c.Grounded e r := by
  unfold plan
  refine (ends_ofExcept (fun _ => trivial) fun _ _ => trivial).bind fun _ (_ : True) => ?_
  refine (symbolExists_ends r.symbolId [r]).bind fun found hfound => ?_
  dsimp only
  split
  · split
    · exact ends_throw_bind trivial
    · refine (ends_ask (fun _ _ _ => rfl) (fun _ _ => trivial) trivial).bind
        fun occurrences (_ : True) => ?_
      -- A blocking conflict ends the plan, the others become notices; both are grounded.
      refine (ends_lift (Q := fun conflicts => ∀ c ∈ conflicts, c.Grounded e r)
        (detectConflicts_grounded occurrences)).bind fun conflicts hconflicts => ?_
      split
      · exact ends_throw_bind ⟨r, List.mem_singleton_self r, hconflicts⟩
      · exact ends_pure hconflicts
  · rename_i hmissing
    exact ends_throw_bind (hfound (Bool.eq_false_iff.mpr hmissing))

/-! ## Batches whose analyzer changes its answers

The renames of a batch are planned one after the other, and the analyzer may answer the same
question in another way each time. So each rename has a turn with an analyzer of its own. -/

/-- The engine with another analyzer. -/
def asking (e : Engine) (analyzer : Analyzer) : Engine :=
  { e with analyzer }

/-- Plans renames one after the other, each with the analyzer of its turn. -/
def planTurns (e : Engine) : List (Analyzer × RenameRequest) → Inquiry (List RenamePlan)
  | [] => return []
  | (analyzer, r) :: turns => do
    let p ← (e.asking analyzer).plan r
    let ps ← planTurns e turns
    return p :: ps

/-- Plans several renames as one edit, each with the analyzer of its turn. -/
def planBatchTurns (e : Engine) (turns : List (Analyzer × RenameRequest)) : Inquiry BatchPlan := do
  Inquiry.ofExcept id (Batch.check (turns.map Prod.snd))
  let plans ← e.planTurns turns
  let edit := Batch.mergedEdit plans
  unless edit.isEmpty do
    Inquiry.ofExcept .edit edit.validate
  return { plans, edit }

/-- Planning with one analyzer is planning turns that all have it. -/
theorem planEach_eq_planTurns (e : Engine) (renames : List RenameRequest) :
    e.planEach renames = e.planTurns (renames.map fun r => (e.analyzer, r)) := by
  induction renames with
  | nil => rfl
  | cons r rs ih =>
    rw [planEach, ih]
    rfl

/-- Where the analyzer of every turn is that of the engine, the batch is planned as ever. -/
theorem planBatch_eq_planBatchTurns (e : Engine) (renames : List RenameRequest) :
    e.planBatch renames = e.planBatchTurns (renames.map fun r => (e.analyzer, r)) := by
  have hrenames : (renames.map fun r => (e.analyzer, r)).map Prod.snd = renames := by
    rw [List.map_map]
    exact List.map_id _
  rw [planBatch, planBatchTurns, hrenames, planEach_eq_planTurns]

/-- What an error of a batch may go back to: to nothing that was asked, or to the turn of one of its
    renames. -/
def GroundedIn (e : Engine) (turns : List (Analyzer × RenameRequest)) (err : RenameError) : Prop :=
  (∀ e' renames, err.Grounded e' renames) ∨
    ∃ turn ∈ turns, err.Grounded (e.asking turn.1) [turn.2]

/-- The notices of a plan go back to the turn in which it was made. -/
def NoticesGrounded (e : Engine) (turn : Analyzer × RenameRequest) (plan : RenamePlan) : Prop :=
  ∀ c ∈ plan.notices, c.Grounded (e.asking turn.1) turn.2

/-- What each turn ends in goes back to the analyzer of the turn. -/
theorem planTurns_ends (e : Engine) (turns : List (Analyzer × RenameRequest)) :
    (e.planTurns turns).Ends (e.GroundedIn turns)
      fun plans => List.Forall₂ e.NoticesGrounded turns plans := by
  induction turns with
  | nil => exact ends_pure .nil
  | cons turn turns ih =>
    have hfirst := (plan_ends (e.asking turn.1) turn.2).mono
      (fun err h => (.inr ⟨turn, List.mem_cons_self, h⟩ : e.GroundedIn (turn :: turns) err))
      (fun _ h => (h : e.NoticesGrounded turn _))
    refine hfirst.bind fun plan hplan => ?_
    -- An error of a later turn is one of the whole batch.
    have hlater : ∀ err, e.GroundedIn turns err → e.GroundedIn (turn :: turns) err := by
      intro err h
      rcases h with h | ⟨turn', hturn, h⟩
      · exact .inl h
      · exact .inr ⟨turn', List.mem_cons_of_mem _ hturn, h⟩
    exact (ih.mono hlater fun _ h => h).bind fun plans hplans => ends_pure (.cons hplan hplans)

/-- What a batch of turns ends in. -/
theorem planBatchTurns_ends (e : Engine) (turns : List (Analyzer × RenameRequest)) :
    (e.planBatchTurns turns).Ends (e.GroundedIn turns)
      fun plan => List.Forall₂ e.NoticesGrounded turns plan.plans := by
  unfold planBatchTurns
  -- What is refused before or after the turns was found in the requests and in the edits alone.
  have hcheck : (ofExcept id (Batch.check (turns.map Prod.snd))).Ends (e.GroundedIn turns)
      fun _ => True := by
    unfold Ends
    rw [result_ofExcept]
    cases hcheck : Batch.check (turns.map Prod.snd) with
    | error err =>
      refine .inl fun _ _ => ?_
      exact RenameError.grounded_of_isInputError (Batch.isInputError_of_check hcheck)
    | ok _ => trivial
  refine hcheck.bind fun _ _ => (planTurns_ends e turns).bind fun plans hplans => ?_
  dsimp only
  split
  · exact ends_pure hplans
  · refine (ends_ofExcept (fun _ => ?_) fun _ _ => trivial).bind fun _ (_ : True) =>
      ends_pure hplans
    exact .inl fun _ _ => trivial

/-- A batch is a batch of turns with one analyzer. -/
theorem planBatch_ends (e : Engine) (renames : List RenameRequest) :
    (e.planBatch renames).Ends (RenameError.Grounded e renames)
      fun plan => ∀ p ∈ plan.plans, ∀ c ∈ p.notices, ∃ r ∈ renames, c.Grounded e r := by
  rw [planBatch_eq_planBatchTurns]
  refine (planBatchTurns_ends e _).mono (fun err h => ?_) fun plan h => ?_
  · rcases h with h | ⟨turn, hturn, h⟩
    · exact h e renames
    -- Every turn has the analyzer of the engine and one of the requests.
    · obtain ⟨r, hr, rfl⟩ := List.mem_map.mp hturn
      exact h.mono (List.cons_subset.mpr ⟨hr, List.nil_subset _⟩)
  · intro p hp c hc
    obtain ⟨turn, hturn, hnotices⟩ := exists_of_forall₂ h.flip hp
    obtain ⟨r, hr, rfl⟩ := List.mem_map.mp hturn
    exact ⟨r, hr, hnotices c hc⟩

/-! ## The other operations -/

/-- Edits are rejected only by a verdict of the analyzer. -/
theorem validate_ends (e : Engine) (edit : WorkspaceEdit) (renames : List RenameRequest) :
    (e.validate edit).Ends (RenameError.Grounded e renames) fun _ => True := by
  unfold validate
  refine (ends_ofExcept (fun _ => trivial) fun _ _ => trivial).bind fun _ (_ : True) => ?_
  dsimp only
  split
  · refine (ends_askSupported (Q := fun verdict => ∀ v, verdict = some v →
      e.analyzer.validateEdits edit = .ok v) (fun _ _ _ => rfl) ?_ nofun).bind
      fun verdict hverdict => ?_
    · rintro v h _ ⟨⟩
      exact h
    -- Without a verdict the edits count as accepted.
    · cases verdict with
      | none => exact ends_pure trivial
      | some v =>
        dsimp only
        split
        · exact ends_pure trivial
        · rename_i hinvalid
          exact ends_throw_bind ⟨edit, v, hverdict v rfl, Bool.eq_false_iff.mpr hinvalid, rfl⟩
  · exact ends_pure trivial

/-- A search for the symbol at a position ends by a failure only. -/
theorem symbolAtPosition_ends (e : Engine) (path : Path) (offset : Nat) :
    (e.symbolAtPosition path offset).Ends (RenameError.Grounded e []) fun _ => True := by
  unfold symbolAtPosition
  refine (ends_askSupported (fun _ _ _ => rfl) (fun _ _ => trivial) trivial).bind
    fun found (_ : True) => ?_
  cases found with
  | some found => exact ends_pure trivial
  | none =>
    refine (ends_askSupported (fun _ _ _ => rfl) (fun _ _ => trivial) trivial).bind
      fun tree (_ : True) => ?_
    cases tree <;> exact ends_pure trivial

/-- So does a cascade. -/
theorem cascade_ends (e : Engine) (changed : List SymbolId) (renames : List RenameRequest) :
    (e.cascade changed).Ends (RenameError.Grounded e renames) fun _ => True := by
  have hresult : (e.cascade changed).result =
      ((Cascade.walk _ (e.analyzer.finite changed) (.start changed)
        (Cascade.start_reached _ _)).answer.map (Cascade.ofWalk changed)).mapError .collaborator :=
    rfl
  unfold Ends
  rw [hresult]
  cases hwalk : (Cascade.walk _ (e.analyzer.finite changed) (.start changed)
      (Cascade.start_reached _ _)).answer with
  | error err => exact walk_error _ _ _ hwalk
  | ok w => trivial

/-- The findings of a check go back to the texts, or to the parser. -/
theorem verify_ends (e : Engine) (id : SymbolId) (newName : String) (edited : List Path)
    (read : Path → Except StorageError String) (renames : List RenameRequest) :
    (e.verify id newName edited read).Ends (RenameError.Grounded e renames)
      fun report => ∀ finding ∈ report.errors,
        Integrity.Grounded e id.name newName read finding := by
  have hsearch : ∀ name, (e.checkSearchable name).Ends (RenameError.Grounded e renames)
      fun _ => True := by
    intro name
    unfold checkSearchable
    split
    · exact ends_pure trivial
    · exact ends_throw trivial
  -- Warnings about other files are no findings, but the question for them may fail.
  have hstray : ∀ renamed files, (e.strayWarnings renamed files).Ends
      (RenameError.Grounded e renames) fun _ => True := by
    intro renamed files
    unfold strayWarnings
    split
    · exact (ends_ask (fun _ _ _ => rfl) (fun _ _ => trivial) trivial).bind
        fun occurrences (_ : True) => ends_pure trivial
    · exact ends_pure trivial
  unfold verify
  refine (hsearch id.name).bind fun _ _ => (hsearch newName).bind fun _ _ => ?_
  refine (ends_lift (Q := fun findings => ∀ finding ∈ findings.flatMap Prod.snd,
    Integrity.Grounded e id.name newName read finding) (inspectAll_grounded _)).bind
    fun findings hfindings => ?_
  exact (hstray _ _).bind fun warnings _ => ends_pure hfindings

/-- The query for the symbols of files ends by a failure only. -/
theorem fileSymbols_ends (e : Engine) (files : List Path) (fileOf : Reload.FileOf)
    (renames : List RenameRequest) :
    (e.fileSymbols files fileOf).Ends (RenameError.Grounded e renames) fun _ => True := by
  induction files generalizing fileOf with
  | nil => exact ends_pure trivial
  | cons path rest ih =>
    exact (ends_ask (fun _ _ _ => rfl) (fun _ _ => trivial) trivial).bind
      fun symbols (_ : True) => ih _

/-- So do the patches, or at a file that cannot be read. -/
theorem patches_ends (e : Engine) (read : Path → Except StorageError String)
    (updates : List ReloadUpdate) (renames : List RenameRequest) :
    (e.patches read updates).Ends (RenameError.Grounded e renames) fun _ => True := by
  -- Without a transpiler the patch carries the text.
  have hpatch : ∀ source, (e.scriptPatch source).Ends (RenameError.Grounded e renames)
      fun _ => True := by
    intro source
    refine (ends_askSupported (fun _ _ _ => rfl) (fun _ _ => trivial) trivial).bind
      fun patch (_ : True) => ?_
    cases patch <;> exact ends_pure trivial
  induction updates with
  | nil => exact ends_pure trivial
  | cons u us ih =>
    unfold patches
    split
    · exact ih
    · refine (ends_ofExcept (fun _ => trivial) fun _ _ => trivial).bind fun text (_ : True) => ?_
      exact (hpatch _).bind fun patch _ => ih.bind fun rest _ => ends_pure trivial

/-- So does the preparation of a reload, which is made of these. -/
theorem prepareReload_ends (e : Engine) (edit : WorkspaceEdit) (requests : List RenameRequest)
    (read : Path → Except StorageError String) (renames : List RenameRequest) :
    (e.prepareReload edit requests read).Ends (RenameError.Grounded e renames) fun _ => True := by
  unfold prepareReload
  refine (cascade_ends e _ renames).bind fun cascade _ => ?_
  refine (fileSymbols_ends e _ _ renames).bind fun fileOf _ => ?_
  exact (patches_ends e read _ renames).bind fun patches _ => ends_pure trivial

/-- Applying an edit asks no collaborator. -/
theorem grounded_of_run {σ : Type} [Store σ] {edit : WorkspaceEdit} {dryRun : Bool} {s : σ}
    {err : RenameError} (h : (Apply.run edit dryRun s).1 = .error err)
    (renames : List RenameRequest) : err.Grounded e renames := by
  unfold Apply.run at h
  split at h
  · rename_i err' hcompute
    cases h
    -- What is refused is an edit, or a file that cannot be read.
    rcases Apply.compute_error hcompute with ⟨bad, rfl⟩ | ⟨path, -, source, rfl, -⟩ <;> trivial
  · split at h
    · cases h
    · split at h
      · rename_i err' s' hwrite
        cases h
        obtain ⟨_, path, _, _, source, -, -, rfl, -⟩ := Apply.writeAll_error hwrite
        trivial
      · cases h

/-- What a verdict on the safety of a rename goes back to. -/
theorem safety_ends (e : Engine) (r : RenameRequest) :
    (e.safety r).Ends (RenameError.Grounded e []) (Safety.Grounded e r) := by
  unfold safety
  split
  · rename_i err hname
    exact ends_pure (.badName hname)
  · refine (symbolExists_ends r.symbolId []).bind fun found hfound => ?_
    split
    · refine (ends_ask (fun _ _ _ => rfl) (fun _ _ => trivial) trivial).bind
        fun occurrences (_ : True) => ?_
      refine (ends_lift (Q := fun conflicts => ∀ c ∈ conflicts, c.Grounded e r)
        (detectConflicts_grounded occurrences)).bind fun conflicts hconflicts => ?_
      dsimp only
      split
      · exact ends_pure .kind
      · rename_i hne
        -- The verdict keeps the blocking conflicts, each with its ground.
        refine ends_pure (.blocked (fun hnil => hne (List.isEmpty_iff.mpr hnil)) ?_ rfl)
        intro c hc
        obtain ⟨hmem, hblocking⟩ := List.mem_filter.mp hc
        exact ⟨hblocking, hconflicts c hmem⟩
    · rename_i hmissing
      exact ends_pure (.missing (hfound (Bool.eq_false_iff.mpr hmissing)))

/-- What the conflicts of an impact go back to. -/
theorem impact_ends (e : Engine) (r : RenameRequest) :
    (e.impact r).Ends (RenameError.Grounded e [])
      fun impact => ∀ c ∈ impact.conflicts, c.Grounded e r := by
  -- The name is judged in the same way whether the symbol exists or not.
  have hnaming : ∀ naming : List Conflict,
      (Identifier.validate r.newName = .ok () → naming = []) →
      (∀ err, Identifier.validate r.newName = .error err → naming = [.invalidIdentifier err]) →
      ∀ c ∈ naming, c.Grounded e r := by
    intro naming hok herror
    cases hname : Identifier.validate r.newName with
    | ok _ =>
      rw [hok hname]
      exact List.forall_mem_nil _
    | error err =>
      rw [herror err hname]
      exact List.forall_mem_singleton.mpr (.badName hname)
  unfold impact
  refine (symbolExists_ends r.symbolId []).bind fun found hfound => ?_
  dsimp only
  split
  · refine (ends_ask (fun _ _ _ => rfl) (fun _ _ => trivial) trivial).bind
      fun occurrences (_ : True) => ?_
    refine (ends_lift (Q := fun conflicts => ∀ c ∈ conflicts, c.Grounded e r)
      (detectConflicts_grounded occurrences)).bind fun conflicts hconflicts => ?_
    refine (ends_ask (fun _ _ _ => rfl) (fun _ _ => trivial) trivial).bind
      fun dependents (_ : True) => ends_pure (List.forall_mem_append.mpr ⟨?_, hconflicts⟩)
    exact hnaming _ (fun h => by rw [h]) (fun err h => by rw [h])
  · rename_i hmissing
    refine ends_pure (List.forall_mem_append.mpr ⟨?_, List.forall_mem_singleton.mpr ?_⟩)
    · exact hnaming _ (fun h => by rw [h]) (fun err h => by rw [h])
    · exact .missing (hfound (Bool.eq_false_iff.mpr hmissing))

/-- What the steps after the write end in. -/
theorem finish_ends (e : Engine) (r : RenameRequest) (plan : RenamePlan)
    (validation : ValidationReport) (applied : ApplyResult)
    (read : Path → Except StorageError String) :
    (e.finish r plan validation applied read).Ends (RenameError.Grounded e [r])
      fun outcome => outcome.plan = plan ∧ ∀ report, outcome.integrity = some report →
        ∀ finding ∈ report.errors, Integrity.Grounded e r.oldName r.newName read finding := by
  refine (verify_ends e r.symbolId r.newName applied.paths read [r]).bind fun report hreport => ?_
  refine (prepareReload_ends e plan.edit [r] read [r]).bind fun reload _ => ends_pure ⟨rfl, ?_⟩
  rintro _ ⟨⟩
  exact hreport

/-- What a rename in a store ends in. -/
theorem execute_grounded {σ : Type} [Store σ] (e : Engine) (r : RenameRequest) (dryRun : Bool)
    (s : σ) :
    match (e.execute r dryRun s).answer with
    | (.error err, _) => err.Grounded e [r]
    | (.ok outcome, s') => (∀ c ∈ outcome.plan.notices, c.Grounded e r) ∧
        ∀ report, outcome.integrity = some report → ∀ finding ∈ report.errors,
          Integrity.Grounded e r.oldName r.newName (Store.read s') finding := by
  rw [execute_answer]
  rcases hprepared : e.prepared r with err | ⟨plan, validation⟩
  · rcases Except.bind_eq_error.mp hprepared with hplan | ⟨plan, -, h⟩
    · exact (plan_ends e r).error hplan
    · rcases Except.bind_eq_error.mp h with hvalidate | ⟨_, -, h⟩
      · exact (validate_ends e plan.edit [r]).error hvalidate
      · cases h
  · have hnotices : ∀ c ∈ plan.notices, c.Grounded e r := by
      obtain ⟨plan', hplan, h⟩ := Except.bind_eq_ok.mp hprepared
      obtain ⟨_, -, h⟩ := Except.bind_eq_ok.mp h
      cases h
      exact (plan_ends e r).ok hplan
    dsimp only
    -- The plan was made before the write, so its notices are known in all cases.
    rcases hrun : Apply.run plan.edit dryRun s with ⟨err | applied, s'⟩
    · exact grounded_of_run (congrArg Prod.fst hrun) [r]
    · cases dryRun with
      | true => exact ⟨hnotices, nofun⟩
      | false =>
        have hends := finish_ends e r plan validation applied (Store.read s')
        dsimp only
        rw [if_neg (by decide)]
        cases hfinish : (e.finish r plan validation applied (Store.read s')).result with
        | error err => exact hends.error hfinish
        | ok outcome =>
          obtain ⟨hplan, hreport⟩ := hends.ok hfinish
          exact ⟨by rw [hplan]; exact hnotices, hreport⟩

/-- No operation ends because a capability is missing, and nothing that an operation reports goes
    back to one that is. -/
structure Permissive (e : Engine) : Prop where
  plan : ∀ r, (e.plan r).Ends (RenameError.Grounded e [r])
    fun plan => ∀ c ∈ plan.notices, c.Grounded e r
  planBatch : ∀ renames, (e.planBatch renames).Ends (RenameError.Grounded e renames)
    fun plan => ∀ p ∈ plan.plans, ∀ c ∈ p.notices, ∃ r ∈ renames, c.Grounded e r
  /-- The same holds if the analyzer changes its answers from one rename of a batch to the next. -/
  planBatchTurns : ∀ turns, (e.planBatchTurns turns).Ends (e.GroundedIn turns)
    fun plan => List.Forall₂ e.NoticesGrounded turns plan.plans
  validate : ∀ edit, (e.validate edit).Ends (RenameError.Grounded e []) fun _ => True
  apply : ∀ {σ : Type} [Store σ] (edit : WorkspaceEdit) (dryRun : Bool) (s : σ) (err : RenameError),
    (Apply.run edit dryRun s).1 = .error err → err.Grounded e []
  verify : ∀ id newName edited read, (e.verify id newName edited read).Ends
    (RenameError.Grounded e []) fun report => ∀ finding ∈ report.errors,
      Integrity.Grounded e id.name newName read finding
  prepareReload : ∀ edit renames read, (e.prepareReload edit renames read).Ends
    (RenameError.Grounded e []) fun _ => True
  execute : ∀ {σ : Type} [Store σ] (r : RenameRequest) (dryRun : Bool) (s : σ),
    match (e.execute r dryRun s).answer with
    | (.error err, _) => err.Grounded e [r]
    | (.ok outcome, s') => (∀ c ∈ outcome.plan.notices, c.Grounded e r) ∧
        ∀ report, outcome.integrity = some report → ∀ finding ∈ report.errors,
          Integrity.Grounded e r.oldName r.newName (Store.read s') finding
  cascade : ∀ changed, (e.cascade changed).Ends (RenameError.Grounded e []) fun _ => True
  safety : ∀ r, (e.safety r).Ends (RenameError.Grounded e []) (Safety.Grounded e r)
  impact : ∀ r, (e.impact r).Ends (RenameError.Grounded e [])
    fun impact => ∀ c ∈ impact.conflicts, c.Grounded e r
  symbolAtPosition : ∀ path offset, (e.symbolAtPosition path offset).Ends
    (RenameError.Grounded e []) fun _ => True

/-- A missing capability is never held against a rename, whatever the collaborators answer. -/
theorem permissive (e : Engine) : e.Permissive where
  plan := plan_ends e
  planBatch := planBatch_ends e
  planBatchTurns := planBatchTurns_ends e
  validate edit := validate_ends e edit []
  apply _ _ _ _ h := grounded_of_run h []
  verify id newName edited read := verify_ends e id newName edited read []
  prepareReload edit renames read := prepareReload_ends e edit renames read []
  execute := execute_grounded e
  cascade changed := cascade_ends e changed []
  safety := safety_ends e
  impact := impact_ends e
  symbolAtPosition := symbolAtPosition_ends e

end Engine
end HotRename
