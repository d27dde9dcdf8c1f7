import HotRename.Proofs.List
import HotRename.Proofs.Symbol.Identifier
import HotRename.Rename.Plan

/-!
# Which conflicts are found

The analyzer is asked about each scope once, at its first occurrence, and about the reserved words
once. Nothing is missed by that: what prevents a rename is what a check of every single occurrence
would find. Main statements:

* `shadowConflicts_eq`       one question for each scope, and what the first occurrences show
* `contains_reservedWords_iff`  which names are reserved
* `filter_detectConflicts`   the conflicts that are found, kind by kind
* `detectConflicts_exact`    all of this together, and which renames are prevented
-/

namespace HotRename

namespace Occurrence

/-- The scopes of occurrences, each once, in the order in which they are met. -/
def scopes (os : List Occurrence) : List (Option String) :=
  (os.map scope).eraseDups

/-- The first occurrence in each scope, in the order in which the scopes are met. -/
def firstInScopes (os : List Occurrence) : List Occurrence :=
  (scopes os).filterMap fun scope => os.find? fun o => o.scope = scope

/-- The scope of the first occurrence comes first, and is not listed again. -/
theorem scopes_cons (o : Occurrence) (os : List Occurrence) :
    scopes (o :: os) = o.scope :: (scopes os).filter fun scope => scope ≠ o.scope := by
  have hne : (fun scope : Option String => !scope == o.scope) = fun scope => scope ≠ o.scope := by
    funext scope
    rw [beq_eq_decide, decide_not]
  rw [scopes, List.map_cons, List.eraseDups_cons, eraseDups_filter, hne, scopes]

/-- Behind an occurrence, the first ones in the other scopes follow. -/
theorem firstInScopes_cons (o : Occurrence) (os : List Occurrence) :
    firstInScopes (o :: os) = o :: (firstInScopes os).filter fun o' => o'.scope ≠ o.scope := by
  have hfirst : (o :: os).find? (fun o' => o'.scope = o.scope) = some o := by simp
  rw [firstInScopes, scopes_cons, List.filterMap_cons, hfirst, firstInScopes,
    List.filter_filterMap, List.filterMap_filter]
  refine congrArg (o :: ·) (List.filterMap_congr fun scope _ => ?_)
  -- In any other scope, the first occurrence is the same with `o` in front and without it.
  rw [List.find?_cons]
  cases hfind : os.find? fun o' => o'.scope = scope with
  | none =>
    by_cases hscope : o.scope = scope
    · simp [hscope]
    · simp [hscope]
  | some o' =>
    have hsame : o'.scope = scope := by simpa using List.find?_some hfind
    rw [Option.filter_some, hsame]
    by_cases hscope : o.scope = scope
    · simp [hscope]
    · simp [hscope, Ne.symm hscope]

/-- There is one first occurrence for each scope, in their order. -/
theorem map_scope_firstInScopes (os : List Occurrence) :
    (firstInScopes os).map scope = scopes os := by
  induction os with
  | nil => rfl
  | cons o os ih =>
    rw [firstInScopes_cons, scopes_cons, List.map_cons, ← ih, List.filter_map]
    rfl

/-- A first occurrence is one of the occurrences. -/
theorem mem_of_mem_firstInScopes {o : Occurrence} {os : List Occurrence}
    (h : o ∈ firstInScopes os) : o ∈ os := by
  obtain ⟨scope, -, hfind⟩ := List.mem_filterMap.mp h
  exact List.mem_of_find?_eq_some hfind

/-- In the scope of every occurrence there is a first one. -/
theorem exists_mem_firstInScopes {o : Occurrence} {os : List Occurrence} (h : o ∈ os) :
    ∃ first ∈ firstInScopes os, first.scope = o.scope := by
  have hscope : o.scope ∈ scopes os := List.mem_eraseDups.mpr (List.mem_map_of_mem h)
  rw [← map_scope_firstInScopes] at hscope
  exact List.mem_map.mp hscope

end Occurrence

namespace Engine

open Occurrence

variable {e : Engine} {id : SymbolId} {newName : String}

/-! ## One question for each scope -/

/-- In the scope the new name means another symbol than the one that is to get it. -/
def Taken (e : Engine) (id : SymbolId) (newName : String) (scope : Option String) : Prop :=
  ∃ existing, e.analyzer.lookup newName scope = .ok (some existing) ∧ existing ≠ id

/-- The conflict at an occurrence in whose scope the new name is taken. -/
def shadowAt? (e : Engine) (id : SymbolId) (newName : String) (o : Occurrence) :
    Option Conflict :=
  match e.analyzer.lookup newName o.scope with
  | .ok (some existing) =>
    if existing = id then none else some (.shadow newName existing o.scope o.path)
  | _ => none

/-- The conflict at an occurrence about whose scope the analyzer fails to answer. -/
def failureAt? (e : Engine) (newName : String) (o : Occurrence) : Option Conflict :=
  match e.analyzer.lookup newName o.scope with
  | .error (.failed c why) =>
    some (.analysisError
      s!"lookup of '{newName}' failed: {(CollaboratorError.failed c why).message}" (some o.path))
  | _ => none

/-- What the check of a single occurrence finds. -/
def conflictAt? (e : Engine) (id : SymbolId) (newName : String) (o : Occurrence) :
    Option Conflict :=
  (e.shadowAt? id newName o).or (e.failureAt? newName o)

/-- The capability to look names up is there in every scope. -/
def LooksUp (e : Engine) (newName : String) : Prop :=
  ∀ scope c, e.analyzer.lookup newName scope ≠ .error (.unsupported c)

/-- The capability to look names up is there in no scope. -/
def NeverLooksUp (e : Engine) (newName : String) : Prop :=
  ∀ scope, ∃ c, e.analyzer.lookup newName scope = .error (.unsupported c)

/-- The first occurrences in the scopes that were not checked before. -/
def unchecked (checked : List (Option String)) (os : List Occurrence) : List Occurrence :=
  (firstInScopes os).filter fun o => !checked.contains o.scope

/-- An occurrence in a scope that was checked adds nothing. -/
theorem unchecked_cons_of_contains {checked : List (Option String)} {o : Occurrence}
    (h : checked.contains o.scope = true) (os : List Occurrence) :
    unchecked checked (o :: os) = unchecked checked os := by
  rw [unchecked, firstInScopes_cons, List.filter_cons_of_neg (by simpa using h),
    List.filter_filter, unchecked]
  refine List.filter_congr fun o' _ => ?_
  by_cases hscope : o'.scope = o.scope
  · rw [hscope, h]
    rfl
  · simp [hscope]

/-- An occurrence in a new scope is checked, and its scope is not checked again. -/
theorem unchecked_cons {checked : List (Option String)} {o : Occurrence}
    (h : checked.contains o.scope = false) (os : List Occurrence) :
    unchecked checked (o :: os) = o :: unchecked (o.scope :: checked) os := by
  rw [unchecked, firstInScopes_cons, List.filter_cons_of_pos (by simpa using h),
    List.filter_filter, unchecked]
  refine congrArg (o :: ·) (List.filter_congr fun o' _ => ?_)
  simp [Bool.and_comm]

/-- In a new scope one question is asked, and what the check of the occurrence finds is noted. -/
theorem shadowConflicts_step (h : e.LooksUp newName) {checked : List (Option String)}
    {o : Occurrence} (hnew : checked.contains o.scope = false) (os : List Occurrence) :
    e.shadowConflicts id newName checked (o :: os) =
      ⟨(e.conflictAt? id newName o).toList ++
          (e.shadowConflicts id newName (o.scope :: checked) os).answer,
        .lookup newName o.scope ::
          (e.shadowConflicts id newName (o.scope :: checked) os).questions⟩ := by
  rw [shadowConflicts, if_neg (by rw [hnew]; decide), conflictAt?, shadowAt?, failureAt?]
  -- One case for each answer: no capability, a failure, no symbol, a symbol.
  rcases hlookup : e.analyzer.lookup newName o.scope with (c | ⟨c, why⟩) | (_ | existing)
  · -- The capability is there.
    exact absurd hlookup (h o.scope c)
  · apply Asked.ext
    · rfl
    · simp only [Answer.supported, Asked.questions_bind, Asked.answer_ask, Asked.questions_ask,
        Asked.questions_pure, List.append_nil, List.singleton_append]
  · rfl
  · by_cases hsame : existing = id
    · apply Asked.ext <;> simp [Answer.supported, hsame]
    · apply Asked.ext
      · simp only [Answer.supported, Asked.answer_bind, Asked.answer_ask, if_neg hsame]
        rfl
      · simp only [Answer.supported, Asked.questions_bind, Asked.answer_ask, Asked.questions_ask,
          if_neg hsame, Asked.questions_pure, List.append_nil, List.singleton_append]

/-- Asking once for each scope finds what the checks of the first occurrences find. -/
theorem shadowConflicts_eq (h : e.LooksUp newName) (checked : List (Option String))
    (os : List Occurrence) :
    e.shadowConflicts id newName checked os =
      ⟨(unchecked checked os).filterMap (e.conflictAt? id newName),
        (unchecked checked os).map fun o => .lookup newName o.scope⟩ := by
  -- The scopes that were met on the way are carried along in `checked`.
  induction os generalizing checked with
  | nil => rfl
  | cons o os ih =>
    by_cases hold : checked.contains o.scope = true
    · rw [shadowConflicts, if_pos hold, unchecked_cons_of_contains hold, ih]
    · have hnew : checked.contains o.scope = false := Bool.eq_false_iff.mpr hold
      rw [shadowConflicts_step h hnew, unchecked_cons hnew, ih, List.filterMap_cons, List.map_cons]
      cases e.conflictAt? id newName o <;> rfl

/-- Without the capability the first question is the last one. -/
theorem shadowConflicts_unsupported (h : e.NeverLooksUp newName) (os : List Occurrence) :
    e.shadowConflicts id newName [] os =
      ⟨[], ((scopes os).take 1).map (.lookup newName)⟩ := by
  cases os with
  | nil => rfl
  | cons o os =>
    obtain ⟨c, hlookup⟩ := h o.scope
    rw [shadowConflicts, scopes_cons, hlookup]
    rfl

/-- The conflicts are those of the first occurrences and those of the name itself. -/
theorem answer_detectConflicts (hlookup : e.LooksUp newName ∨ e.NeverLooksUp newName)
    (os : List Occurrence) :
    (e.detectConflicts id newName os).answer =
      (firstInScopes os).filterMap (e.conflictAt? id newName) ++
        (e.reservedConflicts newName).answer := by
  have hshadow : (e.shadowConflicts id newName [] os).answer =
      (firstInScopes os).filterMap (e.conflictAt? id newName) := by
    rcases hlookup with h | h
    · rw [shadowConflicts_eq h, unchecked]
      simp
    · -- The loop stops at the first occurrence, but the others would show nothing either.
      have hnone : ∀ o ∈ firstInScopes os, e.conflictAt? id newName o = none := by
        intro o _
        obtain ⟨c, hlookup⟩ := h o.scope
        simp [conflictAt?, shadowAt?, failureAt?, hlookup]
      rw [shadowConflicts_unsupported h, List.filterMap_eq_nil_iff.mpr hnone]
  rw [← hshadow]
  rfl

/-! ## The kinds of what is found -/

/-- What the check of an occurrence finds, by kinds. -/
theorem filter_conflictAt? (kind : ConflictKind) (o : Occurrence) :
    (e.conflictAt? id newName o).filter (·.kind = kind) =
      if kind = .shadow then e.shadowAt? id newName o
      else if kind = .analysisError then e.failureAt? newName o
      else none := by
  unfold conflictAt? shadowAt? failureAt?
  rcases e.analyzer.lookup newName o.scope with (c | ⟨c, why⟩) | (_ | existing)
  · cases kind <;> rfl
  · cases kind <;> rfl
  · cases kind <;> rfl
  · by_cases hsame : existing = id
    · cases kind <;> simp [hsame]
    · cases kind <;> simp [hsame, Conflict.shadow]

/-- There is a conflict exactly if the name is taken. -/
theorem isSome_shadowAt?_iff {o : Occurrence} :
    (e.shadowAt? id newName o).isSome = true ↔ e.Taken id newName o.scope := by
  unfold shadowAt? Taken
  rcases e.analyzer.lookup newName o.scope with err | (_ | existing)
  · simp
  · simp
  · by_cases hsame : existing = id
    · simp [hsame]
    · simp [hsame]

/-! ## Reserved names -/

/-- The words that the analyzer supplies. -/
def keywords (e : Engine) : List String :=
  match e.analyzer.reservedKeywords with
  | .ok words => words
  | .error _ => []

/-- The name is a word of the language or, unless it is empty, one that the settings or the analyzer
    reserve, in whatever case and with whatever blanks around it. -/
def Reserves (e : Engine) (name : String) : Prop :=
  name.toLower ∈ builtinWords ∨
    name ≠ "" ∧
      ∃ word ∈ e.config.extraReservedWords ++ e.keywords, (Text.trim word).toLower = name.toLower

instance (e : Engine) (name : String) : Decidable (e.Reserves name) :=
  inferInstanceAs (Decidable (_ ∨ _ ∧ _))

/-- The reserved words are the built-in ones, those of the settings and those of the analyzer. -/
theorem reservedWords_eq (e : Engine) :
    e.reservedWords.answer.1 =
      (ReservedWords.builtin.extend e.config.extraReservedWords).extend e.keywords := by
  unfold reservedWords keywords
  rcases e.analyzer.reservedKeywords with (c | ⟨c, why⟩) | words <;> rfl

/-- A name is among them exactly if it is reserved. -/
theorem contains_reservedWords_iff {name : String} :
    e.reservedWords.answer.1.contains name = true ↔ e.Reserves name := by
  rw [reservedWords_eq, ReservedWords.contains_extend_iff, ReservedWords.contains_extend_iff,
    or_assoc, ← and_or_left]
  unfold Reserves
  simp only [List.mem_append, or_and_right, exists_or]
  refine or_congr_left ?_
  exact List.contains_iff_mem

/-- What the query for the words adds by itself is the failure of the query. -/
theorem kind_of_mem_reservedWords {c : Conflict} (h : c ∈ e.reservedWords.answer.2) :
    c.kind = .analysisError := by
  unfold reservedWords at h
  -- Only a query that fails is reported.
  rcases hwords : e.analyzer.reservedKeywords with (c' | ⟨c', why⟩) | words
  · rw [hwords] at h
    exact absurd h List.not_mem_nil
  · rw [hwords] at h
    rw [List.mem_singleton.mp h]
    rfl
  · rw [hwords] at h
    exact absurd h List.not_mem_nil

/-- What the check of the name finds. -/
theorem answer_reservedConflicts (e : Engine) (newName : String) :
    (e.reservedConflicts newName).answer =
      e.reservedWords.answer.2 ++ if e.Reserves newName then [.reserved newName] else [] := by
  rw [← if_congr contains_reservedWords_iff rfl rfl]
  rfl

/-! ## All that is found -/

/-- The conflicts of a kind among those found. -/
theorem filter_detectConflicts (hlookup : e.LooksUp newName ∨ e.NeverLooksUp newName)
    (os : List Occurrence) (kind : ConflictKind) :
    (e.detectConflicts id newName os).answer.filter (·.kind = kind) =
      if kind = .shadow then (firstInScopes os).filterMap (e.shadowAt? id newName)
      else if kind = .analysisError then
        (firstInScopes os).filterMap (e.failureAt? newName) ++ e.reservedWords.answer.2
      else if kind = .reserved ∧ e.Reserves newName then [.reserved newName]
      else [] := by
  rw [answer_detectConflicts hlookup, answer_reservedConflicts, List.filter_append,
    List.filter_append, List.filter_filterMap]
  simp only [filter_conflictAt?]
  -- Apart from the name itself, the query for the words can only have failed.
  by_cases hfailure : kind = .analysisError
  · have hkept : e.reservedWords.answer.2.filter (·.kind = kind) = e.reservedWords.answer.2 :=
      List.filter_eq_self.mpr fun c hc => by
        simp [kind_of_mem_reservedWords hc, hfailure]
    rw [hkept, hfailure]
    by_cases hname : e.Reserves newName <;> simp [hname, Conflict.reserved]
  · have hnone : e.reservedWords.answer.2.filter (·.kind = kind) = [] :=
      List.filter_eq_nil_iff.mpr fun c hc => by
        simpa [kind_of_mem_reservedWords hc] using Ne.symm hfailure
    rw [hnone]
    by_cases hshadow : kind = .shadow
    · rw [hshadow]
      by_cases hname : e.Reserves newName <;> simp [hname, Conflict.reserved]
    · simp only [hfailure, hshadow, if_false, List.filterMap_none, List.nil_append]
      by_cases hname : e.Reserves newName
      · cases kind <;> simp_all [Conflict.reserved]
      · simp [hname]

/-- Some occurrence is in a scope where the name is taken if the first one in some scope is. -/
theorem exists_taken_firstInScopes_iff {os : List Occurrence} :
    (∃ o ∈ firstInScopes os, e.Taken id newName o.scope) ↔
      ∃ o ∈ os, e.Taken id newName o.scope := by
  constructor
  · rintro ⟨o, ho, htaken⟩
    exact ⟨o, mem_of_mem_firstInScopes ho, htaken⟩
  · rintro ⟨o, ho, htaken⟩
    obtain ⟨first, hfirst, hscope⟩ := exists_mem_firstInScopes ho
    exact ⟨first, hfirst, hscope ▸ htaken⟩

/-- Whether there is a conflict of a kind can be read off those of the kind. -/
theorem exists_kind_iff {found : List Conflict} {kind : ConflictKind} :
    (∃ c ∈ found, c.kind = kind) ↔ found.filter (·.kind = kind) ≠ [] := by
  simp

/-- What prevents a rename is a taken name at some occurrence, or a reserved one. -/
theorem exists_blocking_iff (hlookup : e.LooksUp newName ∨ e.NeverLooksUp newName)
    (os : List Occurrence) :
    (∃ c ∈ (e.detectConflicts id newName os).answer, c.isBlocking = true) ↔
      (∃ o ∈ os, e.Taken id newName o.scope) ∨ e.Reserves newName := by
  -- Of the kinds of conflicts that are found, these two are blocking.
  have hkinds : ∀ c : Conflict, c.isBlocking = true ↔ c.kind = .shadow ∨ c.kind = .reserved := by
    intro c
    unfold Conflict.isBlocking
    cases c.kind <;> decide
  simp only [hkinds, and_or_left, exists_or]
  refine or_congr ?_ ?_
  · rw [exists_kind_iff, filter_detectConflicts hlookup, if_pos rfl,
      ← exists_taken_firstInScopes_iff]
    simp [← isSome_shadowAt?_iff, Option.isSome_iff_exists, Option.eq_none_iff_forall_ne_some]
  · rw [exists_kind_iff, filter_detectConflicts hlookup]
    by_cases hname : e.Reserves newName <;> simp [hname]

/-- The words are asked for last, and once. -/
theorem questions_detectConflicts (e : Engine) (id : SymbolId) (newName : String)
    (os : List Occurrence) :
    (e.detectConflicts id newName os).questions =
      (e.shadowConflicts id newName [] os).questions ++ [.reservedKeywords] := by
  have hwords : (e.reservedConflicts newName).questions = [.reservedKeywords] := by
    unfold reservedConflicts reservedWords
    rcases e.analyzer.reservedKeywords with (c | ⟨c, why⟩) | words <;> rfl
  rw [detectConflicts, Asked.questions_bind, Asked.questions_bind, hwords]
  rfl

/-- Let the analyzer look the new name up in every scope or in none. Then the conflicts about taken
    names are those of the first occurrences in the scopes where the name means another symbol, and
    each scope whose lookup fails makes one conflict as well; one question is asked for each scope,
    or a single one where there is no answer. The name is reported as reserved exactly if it is
    reserved, and once. So what prevents the rename is what a check of every occurrence finds,
    whatever the order of the occurrences. -/
theorem detectConflicts_exact (e : Engine) (id : SymbolId) (newName : String)
    (hlookup : e.LooksUp newName ∨ e.NeverLooksUp newName) (os : List Occurrence) :
    let found := e.detectConflicts id newName os
    found.answer.filter (·.kind = .shadow) =
      (firstInScopes os).filterMap (e.shadowAt? id newName) ∧
    found.answer.filter (·.kind = .analysisError) =
      (firstInScopes os).filterMap (e.failureAt? newName) ++ e.reservedWords.answer.2 ∧
    (e.LooksUp newName →
      found.questions = (scopes os).map (.lookup newName) ++ [.reservedKeywords]) ∧
    (e.NeverLooksUp newName →
      found.questions = ((scopes os).take 1).map (.lookup newName) ++ [.reservedKeywords]) ∧
    found.answer.filter (·.kind = .reserved) =
      (if e.Reserves newName then [.reserved newName] else []) ∧
    ∀ os', os'.Perm os →
      ((∃ c ∈ (e.detectConflicts id newName os').answer, c.isBlocking = true) ↔
        (∃ o ∈ os, e.Taken id newName o.scope) ∨ e.Reserves newName) := by
  intro found
  refine ⟨filter_detectConflicts hlookup os .shadow,
    filter_detectConflicts hlookup os .analysisError, ?_, ?_, ?_, ?_⟩
  · intro h
    rw [questions_detectConflicts, shadowConflicts_eq h, ← map_scope_firstInScopes, List.map_map]
    simp [unchecked, Function.comp_def]
  · intro h
    rw [questions_detectConflicts, shadowConflicts_unsupported h]
  · rw [filter_detectConflicts hlookup]
    simp
  -- The last statement is about all occurrences, so their order does not matter.
  · intro os' hperm
    rw [exists_blocking_iff hlookup]
    simp only [hperm.mem_iff]

/-- In the scope of enemies the name means another symbol, in that of players the lookup fails, and
    elsewhere the name means the symbol itself. -/
def contested : Engine where
  analyzer := { Analyzer.unavailable with
    lookup := fun _ scope =>
      if scope = some "enemy" then .ok (some ⟨["proj", "var"], "life"⟩)
      else if scope = some "player" then .error (.failed .lookup "timeout")
      else .ok (some ⟨["proj", "var"], "hp"⟩) }
  config := { extraReservedWords := [" Life "] }

/-- Occurrences that come back to each of the scopes. -/
def contestedOccurrences : List Occurrence :=
  [⟨⟨"g.gml"⟩, 0, 2, none, .definition⟩, ⟨⟨"p.gml"⟩, 0, 2, some "player", .reference⟩,
    ⟨⟨"e.gml"⟩, 0, 2, some "enemy", .reference⟩, ⟨⟨"e.gml"⟩, 5, 7, some "enemy", .reference⟩,
    ⟨⟨"p.gml"⟩, 5, 7, some "player", .reference⟩, ⟨⟨"f.gml"⟩, 0, 2, some "enemy", .reference⟩,
    ⟨⟨"g.gml"⟩, 5, 7, none, .reference⟩]

/-- One conflict for the enemies, one for the players, and one for the name. -/
theorem detectConflicts_exact_contested :
    let hp : SymbolId := ⟨["proj", "var"], "hp"⟩
    let found := contested.detectConflicts hp "life" contestedOccurrences
    contested.LooksUp "life" ∧
    found.answer.filter (·.kind = .shadow) =
      [.shadow "life" ⟨["proj", "var"], "life"⟩ (some "enemy") ⟨"e.gml"⟩] ∧
    found.answer.filter (·.kind = .analysisError) =
      [.analysisError "lookup of 'life' failed: lookup failed: timeout" (some ⟨"p.gml"⟩)] ∧
    found.questions =
      [.lookup "life" none, .lookup "life" (some "player"), .lookup "life" (some "enemy"),
        .reservedKeywords] ∧
    found.answer.filter (·.kind = .reserved) = [.reserved "life"] := by
  intro hp found
  have hlookup : contested.LooksUp "life" := by
    intro scope c
    simp only [contested]
    split
    · simp
    · split <;> simp
  obtain ⟨hshadow, hfailure, hquestions, -, hreserved, -⟩ :=
    detectConflicts_exact contested hp "life" (.inl hlookup) contestedOccurrences
  -- The word is reserved with blanks around it and in another case.
  have hword : (Text.trim " Life ").toLower = "life".toLower := by
    rw [← String.toList_inj, ReservedWords.toList_toLower, ReservedWords.toList_toLower]
    decide
  have hname : contested.Reserves "life" :=
    .inr ⟨by decide, " Life ", List.mem_append_left _ (List.mem_singleton_self _), hword⟩
  rw [if_pos hname] at hreserved
  refine ⟨hlookup, hshadow.trans ?_, hfailure.trans ?_, (hquestions hlookup).trans ?_, hreserved⟩
  · decide
  · decide
  · decide

/-- A word of blanks is, without the blanks around it, the empty name, and yet that name is not
    reported as reserved. -/
theorem detectConflicts_blank_word :
    let e : Engine := { analyzer := .unavailable, config := { extraReservedWords := [" "] } }
    e.NeverLooksUp "" ∧
    (∃ word ∈ e.config.extraReservedWords, (Text.trim word).toLower = "".toLower) ∧
    ¬ ∃ c ∈ (e.detectConflicts ⟨["proj", "var"], "hp"⟩ "" []).answer, c.kind = .reserved := by
  intro e
  have hlookup : e.NeverLooksUp "" := fun _ => ⟨.lookup, rfl⟩
  have hempty : "".toLower = "" := ReservedWords.toLower_eq_empty.mpr rfl
  have hblank : Text.trim " " = "" := by decide
  -- A word of blanks reserves nothing, not even the empty name that it comes down to.
  have hname : ¬ e.Reserves "" := by
    rintro (hword | ⟨hne, -⟩)
    · rw [hempty] at hword
      exact absurd hword (by decide)
    · exact hne rfl
  refine ⟨hlookup, ⟨" ", List.mem_singleton_self _, by rw [hblank]⟩, ?_⟩
  rw [exists_kind_iff, filter_detectConflicts (.inr hlookup)]
  simp [hname]

end Engine
end HotRename
