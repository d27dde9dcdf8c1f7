import HotRename.Graph.Order
import HotRename.Rename.Engine

/-!
# The cascade of a change

The cascade of changed symbols holds them and every symbol that depends on them, directly or
through others. The walk expands one symbol after the other, the first dependent of a symbol next,
and asks for the dependents of each symbol once. A symbol is entered where it is met first, with
the number of steps that led there and the names of the last of them. The dependencies met on the
way form a graph, whose order says what to reload first.
-/

namespace HotRename

/-- A symbol of a cascade. -/
structure CascadeEntry where
  symbolId : SymbolId
  /-- Number of dependencies between the symbol and the change, on the way it was found. -/
  distance : Nat
  reason : String
  /-- The file that defines the symbol, where some dependency names it. -/
  filePath : Option Path
  deriving DecidableEq, Repr

namespace CascadeEntry

/-- Writes an entry. -/
def toJson (c : CascadeEntry) : Json :=
  .record
    ([("symbol_id", c.symbolId.toJson), ("distance", .nat c.distance),
        ("reason", .text c.reason)] ++
      Json.optional "file_path" Path.toJson c.filePath)

/-- Reads an entry. -/
def ofJson? (j : Json) : Option CascadeEntry :=
  match j.fields ["symbol_id", "distance", "reason", "file_path"] with
  | some [symbolId, distance, reason, filePath] => do
    return {
      symbolId := ← Json.required SymbolId.ofJson? symbolId
      distance := ← Json.required Json.asNat distance
      reason := ← Json.required Json.asText reason
      filePath := ← Json.optionalField Path.ofJson? filePath }
  | _ => none

end CascadeEntry

/-- The symbols to reload after a change. -/
structure Cascade where
  /-- The symbols in the order in which they were found. -/
  entries : List CascadeEntry
  /-- The symbols in the order in which they are to be reloaded. -/
  order : List SymbolId
  /-- Dependencies that lead back to their start. -/
  circular : List (List SymbolId)
  totalSymbols : Nat
  maxDistance : Nat
  /-- Some dependencies lead back to their start. -/
  hasCircular : Bool
  deriving DecidableEq, Repr

namespace Cascade

/-- The entry of a symbol. -/
def entry? (c : Cascade) (id : SymbolId) : Option CascadeEntry :=
  c.entries.find? fun entry => entry.symbolId = id

/-- The symbols on some circle of dependencies. -/
def circularMembers (c : Cascade) : List SymbolId :=
  SymbolId.sortDistinct c.circular.flatten

/-- Writes a cascade. -/
def toJson (c : Cascade) : Json :=
  .record
    [("cascade", Json.list CascadeEntry.toJson c.entries),
      ("order", Json.list SymbolId.toJson c.order),
      ("circular", Json.list (Json.list SymbolId.toJson) c.circular),
      ("metadata",
        .record
          [("total_symbols", .nat c.totalSymbols), ("max_distance", .nat c.maxDistance),
            ("has_circular", .bool c.hasCircular)])]

/-! ## Entries on the way -/

/-- Number of steps that a reason names. -/
def reasonSteps : Nat := 3

/-- An entry together with the last steps of the way to it, the nearest first. -/
structure Found where
  entry : CascadeEntry
  ancestors : List SymbolId
  deriving DecidableEq, Repr

/-- A changed symbol. -/
def Found.changed (id : SymbolId) : Found where
  entry := { symbolId := id, distance := 0, reason := "changed directly", filePath := none }
  ancestors := []

/-- The reason for which a symbol is in the cascade. -/
def reason (ancestors : List SymbolId) (distance : Nat) : String :=
  let steps := ", which ".intercalate (ancestors.map fun a => s!"depends on {a.text}")
  -- Only the nearest steps are named; how far the change is, is said in a number.
  if ancestors.length < distance then s!"{steps}, which ... ({distance} hops from the change)"
  else steps

/-- A dependent that is met for the first time. -/
def Found.dependent (ancestors : List SymbolId) (distance : Nat) (d : Dependent) : Found where
  entry := {
    symbolId := d.symbolId
    distance
    reason := reason ancestors distance
    filePath := d.filePath }
  ancestors

/-- The file of a dependent, if none was known before. -/
def Found.fill (d : Dependent) (f : Found) : Found :=
  -- The distance and the reason stay those of the first meeting.
  if f.entry.symbolId = d.symbolId ∧ f.entry.filePath = none then
    { f with entry := { f.entry with filePath := d.filePath } }
  else f

/-- The symbol has an entry. -/
def isFound (found : List Found) (id : SymbolId) : Bool :=
  found.any fun f => f.entry.symbolId = id

/-- The entries after a dependent was met. -/
def meet (ancestors : List SymbolId) (distance : Nat) (found : List Found) (d : Dependent) :
    List Found :=
  if isFound found d.symbolId then found.map (Found.fill d)
  else found ++ [Found.dependent ancestors distance d]

/-! ## The walk -/

/-- The state of the walk. -/
structure Walk where
  found : List Found
  graph : DependencyGraph SymbolId
  /-- The symbols whose dependents were asked for, the latest first. -/
  expanded : List SymbolId
  /-- The symbols to be expanded next. -/
  pending : List SymbolId

/-- The state before anything was asked. -/
def Walk.start (changed : List SymbolId) : Walk where
  found := changed.eraseDups.map Found.changed
  graph := changed.foldl DependencyGraph.addNode .empty
  expanded := []
  pending := changed.eraseDups

/-- The state after the dependents of a symbol were met. `rest` is to be expanded after them. -/
def Walk.expand (w : Walk) (current : SymbolId) (dependents : List Dependent)
    (rest : List SymbolId) : Walk :=
  let parent := w.found.find? fun f => f.entry.symbolId = current
  let distance := (parent.map fun f => f.entry.distance).getD 0 + 1
  let ancestors := current :: ((parent.map Found.ancestors).getD []).take (reasonSteps - 1)
  { found := dependents.foldl (meet ancestors distance) w.found
    graph := dependents.foldl (fun g d => g.addEdge current d.symbolId) w.graph
    expanded := current :: w.expanded
    -- The dependents come before the rest, so the walk goes into the depth.
    pending := (dependents.map Dependent.symbolId).filter (· ∉ current :: w.expanded) ++ rest }

/-- Every symbol to be expanded can be reached from the changed ones. -/
def Walk.Reached (dependents : List SymbolId → Answer (List Dependent)) (changed : List SymbolId)
    (pending : List SymbolId) : Prop :=
  ∀ id ∈ pending, Reach (dependentIds dependents) changed id

/-- The dependents named by an answer can be reached when the symbol asked about can. -/
theorem reach_of_orDefault {dependents : List SymbolId → Answer (List Dependent)}
    {changed : List SymbolId} {current : SymbolId} {found : List Dependent}
    (hc : Reach (dependentIds dependents) changed current)
    (h : (dependents [current]).orDefault [] = .ok found) {d : Dependent} (hd : d ∈ found) :
    Reach (dependentIds dependents) changed d.symbolId := by
  refine .step hc ?_
  unfold dependentIds
  -- An analyzer that cannot tell names no dependent, so only its answers count.
  cases ha : dependents [current] with
  | ok answer =>
    rw [ha] at h
    simp only [Answer.orDefault, Except.ok.injEq] at h
    subst h
    exact List.mem_map.mpr ⟨d, hd, rfl⟩
  | error err =>
    rw [ha] at h
    cases err with
    | unsupported c =>
      simp only [Answer.orDefault, Except.ok.injEq] at h
      subst h
      cases hd
    | failed c reason => simp [Answer.orDefault] at h

/-- Expands symbols until none is left. -/
def walk (dependents : List SymbolId → Answer (List Dependent)) {changed : List SymbolId}
    (finite : FiniteReach (dependentIds dependents) changed) (w : Walk)
    (reached : Walk.Reached dependents changed w.pending) :
    Asked (Except CollaboratorError Walk) :=
  match hpending : w.pending with
  | [] => ⟨.ok w, []⟩
  | current :: rest =>
    have hrest : Walk.Reached dependents changed rest :=
      fun id h => reached id (hpending ▸ List.mem_cons_of_mem _ h)
    have hcurrent : Reach (dependentIds dependents) changed current :=
      reached current (hpending ▸ List.mem_cons_self)
    -- A symbol is pending once for every way that leads to it.
    if hseen : current ∈ w.expanded then walk dependents finite { w with pending := rest } hrest
    else
      match hanswer : (dependents [current]).orDefault [] with
      | .error err => ⟨.error err, [.dependents [current]]⟩
      | .ok found =>
        let result := walk dependents finite (w.expand current found rest) (by
          intro id hid
          rcases List.mem_append.mp hid with hid | hid
          · obtain ⟨d, hd, rfl⟩ := List.mem_map.mp (List.mem_filter.mp hid).1
            exact reach_of_orDefault hcurrent hanswer hd
          · exact hrest id hid)
        ⟨result.answer, .dependents [current] :: result.questions⟩
termination_by (unseen finite.bound w.expanded, w.pending.length)
decreasing_by
  · exact Prod.Lex.right _ (by simp [hpending])
  · exact Prod.Lex.left _ _ (unseen_cons_lt (finite.mem_bound hcurrent) hseen)

/-- The symbols to be expanded first are the changed ones. -/
theorem start_reached (dependents : List SymbolId → Answer (List Dependent))
    (changed : List SymbolId) :
    Walk.Reached dependents changed (Walk.start changed).pending :=
  fun _ h => .root (List.mem_eraseDups.mp h)

/-- The cascade that a finished walk has found. -/
def ofWalk (changed : List SymbolId) (w : Walk) : Cascade :=
  let entries := w.found.map Found.entry
  -- Circles show in two ways. After a finished walk the two agree, as it has reached every node.
  let circular := w.graph.cyclesFrom changed
  let order := w.graph.topologicalOrder
  { entries
    order := order.sequence
    circular
    totalSymbols := entries.length
    maxDistance := (entries.map CascadeEntry.distance).foldl max 0
    hasCircular := !circular.isEmpty || !order.isComplete }

/-- The cascade of changed symbols. -/
def compute (dependents : List SymbolId → Answer (List Dependent)) (changed : List SymbolId)
    (finite : FiniteReach (dependentIds dependents) changed) :
    Asked (Except CollaboratorError Cascade) := do
  let result ← walk dependents finite (.start changed) (start_reached dependents changed)
  return result.map (ofWalk changed)

end Cascade

/-- The cascade of changed symbols, as far as the analyzer knows their dependents. -/
def Engine.cascade (e : Engine) (changed : List SymbolId) : Inquiry Cascade :=
  ExceptT.mk do
    let result ← Cascade.compute e.analyzer.dependents changed (e.analyzer.finite changed)
    return result.mapError .collaborator

end HotRename
