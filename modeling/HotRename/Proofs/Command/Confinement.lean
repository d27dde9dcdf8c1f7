import HotRename.Proofs.Command.BatchOfOne
import HotRename.Proofs.Rename.DryRun
import HotRename.Proofs.Store.Overwrite

/-!
# What a run of the command line may change

Of the commands only two write, and each of them only without `--dry-run`. What they write are
files that hold an occurrence of a renamed symbol, at what the path of the occurrence resolves to
under the root. Files are neither made nor removed. This holds for runs that fail as well, however
far they got. Main statements:

* `execute_overwritten`, `executeBatch_overwritten`  what the renames may change
* `Command.run_overwritten`                          what a command may change
* `run_confined`                                     what a run may change
-/

namespace HotRename

open PlacedStore

namespace Engine

variable {σ κ ν : Type} [Store σ] [PlacedStore σ κ ν] {e : Engine} {renames : List RenameRequest}

/-- A file is read under the path, and the analyzer reports that a renamed symbol occurs there. -/
def OccursUnder (e : Engine) (renames : List RenameRequest) (s : σ) (p : Path) : Prop :=
  (∃ r ∈ renames, ∃ occurrences, e.analyzer.occurrences r.symbolId = .ok occurrences ∧
    ∃ o ∈ occurrences, o.path = p) ∧
  ∃ text, Store.read s p = .ok text

/-- The edits of a plan are to the files in which the symbol is reported to occur. -/
theorem Planned.exists_occurrence {r : RenameRequest} {plan : RenamePlan} {a : TextEdit}
    (h : e.Planned r plan) (ha : a ∈ plan.edit.edits) :
    ∃ occurrences, e.analyzer.occurrences r.symbolId = .ok occurrences ∧
      ∃ o ∈ occurrences, o.path = a.path := by
  obtain ⟨-, -, -, occurrences, hocc, -, rfl⟩ := plan_eq_ok.mp h
  obtain ⟨o, ho, rfl⟩ := List.mem_map.mp ha
  rcases Answer.orDefault_eq_ok.mp hocc with hocc | ⟨-, rfl⟩
  · exact ⟨occurrences, hocc, o, ho, rfl⟩
  · -- An analyzer that cannot tell the occurrences reports none.
    cases ho

/-- The edits of renames overwrite files in which the symbols occur. -/
theorem run_overwritten_of_planned {edit : WorkspaceEdit} {plans : List RenamePlan}
    (hplans : List.Forall₂ e.Planned renames plans)
    (hedit : ∀ a ∈ edit.edits, ∃ plan ∈ plans, a ∈ plan.edit.edits) (s : σ) :
    Overwritten (e.OccursUnder renames s) s (Apply.run edit false s).2 := by
  refine (Apply.run_overwritten edit s).mono ?_
  rintro p ⟨⟨a, ha, rfl⟩, hread⟩
  -- The edit belongs to the plan of one rename, and that plan was made from the occurrences.
  obtain ⟨plan, hplan, ha⟩ := hedit a ha
  obtain ⟨r, hr, hplanned⟩ := exists_planned_of_mem hplans hplan
  exact ⟨⟨r, hr, hplanned.exists_occurrence ha⟩, hread⟩

/-- A rename overwrites files in which the symbol occurs. -/
theorem execute_overwritten (e : Engine) (r : RenameRequest) (s : σ) :
    Overwritten (e.OccursUnder [r] s) s (e.execute r false s).answer.2 := by
  rw [execute_answer]
  rcases hprepared : e.prepared r with err | ⟨plan, validation⟩
  · exact .refl _ s
  · obtain ⟨plan', hplan, h⟩ := Except.bind_eq_ok.mp hprepared
    obtain ⟨_, -, h⟩ := Except.bind_eq_ok.mp h
    cases h
    have hedit : ∀ a ∈ plan.edit.edits, ∃ p ∈ [plan], a ∈ p.edit.edits := by simp
    have hrun := run_overwritten_of_planned (.cons hplan .nil) hedit s
    -- The steps after the write only read.
    dsimp only
    revert hrun
    rcases Apply.run plan.edit false s with ⟨_ | _, s'⟩ <;> exact id

/-- A batch overwrites files in which its symbols occur. -/
theorem executeBatch_overwritten (e : Engine) (renames : List RenameRequest) (s : σ) :
    Overwritten (e.OccursUnder renames s) s (e.executeBatch renames false s).answer.2 := by
  rw [executeBatch_answer]
  rcases hprepared : e.preparedBatch renames with err | ⟨plan, validation⟩
  · exact .refl _ s
  · obtain ⟨plan', hplan, h⟩ := Except.bind_eq_ok.mp hprepared
    obtain ⟨_, -, h⟩ := Except.bind_eq_ok.mp h
    cases h
    obtain ⟨-, hplans, hmerged, -⟩ := planBatch_eq_ok_iff.mp hplan
    have hedit : ∀ a ∈ plan.edit.edits, ∃ p ∈ plan.plans, a ∈ p.edit.edits := by
      rw [hmerged]
      exact fun a ha => List.mem_flatMap.mp ha
    have hrun := run_overwritten_of_planned hplans hedit s
    -- As with one rename, the steps after the write only read.
    dsimp only
    revert hrun
    rcases Apply.run plan.edit false s with ⟨_ | _, s'⟩ <;> exact id

omit [PlacedStore σ κ ν] in
/-- A dry run of a batch leaves the store alone. -/
theorem executeBatch_true_snd (e : Engine) (renames : List RenameRequest) (s : σ) :
    (e.executeBatch renames true s).answer.2 = s := by
  rw [executeBatch_answer]
  rcases e.preparedBatch renames with err | ⟨plan, validation⟩
  · rfl
  · simp only [Apply.run_true]
    cases Apply.compute plan.edit s <;> rfl

end Engine

namespace CommandLine

/-- The renames that a command writes: without `--dry-run`, and several of them only with
    `--apply`. -/
inductive Command.Writes : Command → List RenameRequest → Prop where
  | one {symbol newName : String} {r : RenameRequest} (h : parseRequest symbol newName = .ok r) :
    Writes (.apply symbol newName false) [r]
  | several {pairs : List String} {renames : List RenameRequest}
    (h : parsePairs pairs = .ok renames) : Writes (.batch pairs true false) renames

/-- A command leaves the files as they are, or it is one that writes and overwrites files in which
    the renamed symbols occur. -/
theorem Command.run_overwritten (e : Engine) (disk : Disk) (command : Command) :
    (command.run e disk).2 = disk.tree ∨
    ∃ renames disk', command.Writes renames ∧ (command.run e disk).2 = disk'.tree ∧
      Overwritten (e.OccursUnder renames disk) disk disk' := by
  cases command with
  | apply symbol newName dryRun =>
    rw [Command.run]
    cases hrequest : parseRequest symbol newName with
    | error err => exact .inl rfl
    | ok r =>
      cases dryRun with
      | true =>
        left
        simp only [written_eq, Engine.execute_true]
      | false => exact .inr ⟨[r], _, .one hrequest, rfl, e.execute_overwritten r disk⟩
  | batch pairs writing dryRun =>
    rw [Command.run]
    cases hrenames : parsePairs pairs with
    | error err => exact .inl rfl
    | ok renames =>
      cases writing with
      | false => exact .inl rfl
      | true =>
        cases dryRun with
        | true =>
          left
          simp only [if_true, written_eq, Engine.executeBatch_true_snd]
        | false =>
          exact .inr ⟨renames, _, .several hrenames, rfl, e.executeBatch_overwritten renames disk⟩
  -- All other commands only report.
  | _ => exact .inl rfl

/-- The location is that of an occurrence of a renamed symbol: what the path of the occurrence
    resolves to leads there, and lies under the root. -/
def Invocation.MayWrite (inv : Invocation) (tree : FileTree) (renames : List RenameRequest)
    (loc : Location) : Prop :=
  ∃ index, ManifestIndex.load inv.manifest (tree.readText inv.manifest) = .ok index ∧
    ∃ r ∈ renames, ∃ occurrences, index.analyzer.occurrences r.symbolId = .ok occurrences ∧
      ∃ o ∈ occurrences, ∃ full, Disk.resolve inv.root o.path = .ok full ∧
        full.Under inv.root ∧ tree.locate full = .ok loc

/-- A run makes and removes no file, and changes a file only if its command writes renames, and
    then only where a symbol that it renames occurs. -/
theorem run_confined (inv : Invocation) (tree : FileTree) (loc : Location) :
    ((run inv tree).2.file? loc).isSome = (tree.file? loc).isSome ∧
    ((run inv tree).2.file? loc ≠ tree.file? loc →
      ∃ renames, inv.command.Writes renames ∧ inv.MayWrite tree renames loc) := by
  unfold run
  cases hengine : openEngine inv tree with
  | error err => exact ⟨rfl, fun hne => absurd rfl hne⟩
  | ok e =>
    obtain ⟨index, hindex, hanalyzer, -⟩ := openEngine_eq_ok hengine
    rcases inv.command.run_overwritten e { root := inv.root, tree } with
      hsame | ⟨renames, disk', hwrites, htree, hover⟩
    · dsimp only
      rw [hsame]
      exact ⟨rfl, fun hne => absurd rfl hne⟩
    · dsimp only
      rw [htree]
      refine ⟨hover.isSome loc, fun hne => ⟨renames, hwrites, index, hindex, ?_⟩⟩
      -- A changed file is one that was read under the path of an occurrence, and reading resolves
      -- it.
      obtain ⟨p, ⟨⟨r, hr, occurrences, hocc, o, ho, rfl⟩, text, hread⟩, hplace⟩ :=
        hover.changed loc hne
      obtain ⟨full, hfull, hlocate⟩ := Disk.locate_of_read hread hplace
      exact ⟨r, hr, occurrences, hanalyzer ▸ hocc, o, ho, full, hfull,
        Disk.resolve_under hfull, hlocate⟩

/-- A run of the command for one rename that does change a file. -/
theorem run_confined_hp :
    let inv := hpInvocation.withCommand (.apply "proj/var/hp" "life" false)
    (run inv (hpTree "é hp = hp;")).2.file? ["a.gml"] ≠ (hpTree "é hp = hp;").file? ["a.gml"] ∧
    ∃ renames, inv.command.Writes renames ∧
      inv.MayWrite (hpTree "é hp = hp;") renames ["a.gml"] := by
  obtain ⟨outcome, hrun⟩ := run_apply_hp
  have hne : (hpTree "é life = life;").file? ["a.gml"] ≠ (hpTree "é hp = hp;").file? ["a.gml"] := by
    intro h
    have hbytes := congrArg StoredFile.bytes (Option.some.inj h)
    exact absurd hbytes (by decide)
  have hchanged := (congrArg (fun answer => answer.2.file? ["a.gml"]) hrun).trans_ne hne
  exact ⟨hchanged, (run_confined _ _ _).2 hchanged⟩

end CommandLine
end HotRename
