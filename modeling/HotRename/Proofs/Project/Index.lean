import HotRename.Project.Manifest
import HotRename.Proofs.Except
import HotRename.Proofs.Json.Decode
import HotRename.Proofs.List
import HotRename.Proofs.Symbol.Id

/-!
# The index of a manifest

The index reads the keys of a manifest as symbols and stores the entries under them one after the
other, so that an entry would replace one with the same key. No two keys are read as one symbol, so
none does: every list is found under the symbol that its key is read as. Of the bindings of one name
in one scope the last remains. Main statements:

* `lookup_table`         a table holds the last of the entries with a key
* `table_of_nodup`       nothing is replaced where no key repeats
* `readKeys_nodup`       different keys are read as different symbols
* `ofManifest_exact`     what the index answers
-/

namespace HotRename

/-! ## What a manifest says -/

namespace Manifest

/-- No key stands in a table twice. -/
structure KeysDistinct (m : Manifest) : Prop where
  occurrences : (m.occurrences.map Prod.fst).Nodup
  dependents : (m.dependents.map Prod.fst).Nodup

/-- The list that a table has for a symbol: that under the key that is read as the symbol, and an
    empty one where there is no such key. -/
inductive Lists (entries : List (String × List α)) (id : SymbolId) : List α → Prop where
  | stored {key : String} {list : List α} (hmem : (key, list) ∈ entries)
      (hkey : SymbolId.parse key = .ok id) : Lists entries id list
  | absent (hnone : ∀ entry ∈ entries, SymbolId.parse entry.1 ≠ .ok id) : Lists entries id []

/-- No binding is listed for the name in the scope. -/
def Unbound (bindings : List ScopeBinding) (name : String) (scope : Option String) : Prop :=
  ∀ b ∈ bindings, ¬ (b.name = name ∧ b.scope = scope)

instance (bindings : List ScopeBinding) (name : String) (scope : Option String) :
    Decidable (Unbound bindings name scope) :=
  inferInstanceAs (Decidable (∀ b ∈ bindings, ¬ (b.name = name ∧ b.scope = scope)))

/-- The last binding that is listed for the name in the scope binds it to the symbol. -/
def LastBinds (bindings : List ScopeBinding) (name : String) (scope : Option String)
    (id : SymbolId) : Prop :=
  ∃ before b after, bindings = before ++ b :: after ∧
    b.name = name ∧ b.scope = scope ∧ b.symbolId = id ∧ Unbound after name scope

/-- What a name means in a scope: what it is bound to there last, or else in the global scope. -/
inductive Means (bindings : List ScopeBinding) (name : String) (scope : Option String) :
    Option SymbolId → Prop where
  | here {id : SymbolId} (h : LastBinds bindings name scope id) :
      Means bindings name scope (some id)
  | everywhere {id : SymbolId} (hhere : Unbound bindings name scope)
      (h : LastBinds bindings name none id) : Means bindings name scope (some id)
  | nothing (hhere : Unbound bindings name scope) (h : Unbound bindings name none) :
      Means bindings name scope none

/-- The index answers what the manifest says. -/
structure IndexedBy (m : Manifest) (index : ManifestIndex) : Prop where
  occurrences : ∀ id list, index.analyzer.occurrences id = .ok list ↔ Lists m.occurrences id list
  hasSymbol : ∀ id, ∃ known, index.analyzer.hasSymbol id = .ok known ∧
    (known = true ↔ id ∈ m.symbols ∨ ∃ entry ∈ m.occurrences, SymbolId.parse entry.1 = .ok id)
  dependents : ∀ ids found, index.analyzer.dependents ids = .ok found ↔
    ∃ lists, List.Forall₂ (Lists m.dependents) ids lists ∧ found = lists.flatten
  lookup : ∀ name scope found, index.analyzer.lookup name scope = .ok found ↔
    Means m.bindings name scope found

/-- A table that was read repeats no key. -/
theorem nodup_of_textTable? {α : Type} {f : Json → Option α} {x : Option Json}
    {entries : List (String × List α)} (h : Json.defaulted [] (textTable? f) x = some entries) :
    (entries.map Prod.fst).Nodup := by
  cases x with
  | none =>
    cases h
    exact List.nodup_nil
  | some j =>
    obtain ⟨members, -, rfl⟩ := Option.map_eq_some_iff.mp h
    exact List.pairwise_map.mpr ((Json.textTable_ascending members).imp And.right)

/-- Tables that were read have distinct keys. -/
theorem keysDistinct_of_ofJson? {j : Json} {m : Manifest} (h : ofJson? j = some m) :
    m.KeysDistinct := by
  unfold ofJson? at h
  split at h
  · simp only [Option.bind_eq_bind, Option.bind_eq_some_iff, Option.pure_def] at h
    obtain ⟨_, -, occurrences, hoccurrences, _, -, dependents, hdependents, _, -, _, -, hrecord⟩ :=
      h
    cases hrecord
    exact ⟨nodup_of_textTable? hoccurrences, nodup_of_textTable? hdependents⟩
  · cases h

end Manifest

/-! ## Tables -/

namespace ManifestIndex

section Stored

variable {κ ν : Type} [DecidableEq κ]

/-- An entry with a new key comes last. -/
theorem store_of_new {entry : κ × ν} {entries : List (κ × ν)}
    (hnew : entry.1 ∉ entries.map Prod.fst) : store entry entries = entries ++ [entry] := by
  induction entries with
  | nil => rfl
  | cons old entries ih =>
    rw [List.map_cons, List.mem_cons, not_or] at hnew
    rw [store, if_neg (Ne.symm hnew.1), ih hnew.2, List.cons_append]

/-- Entries with new keys come to stand behind those that were stored before them. -/
theorem foldl_store_of_nodup {entries stored : List (κ × ν)}
    (h : ((stored ++ entries).map Prod.fst).Nodup) :
    entries.foldl (fun stored entry => store entry stored) stored = stored ++ entries := by
  induction entries generalizing stored with
  | nil => rw [List.foldl_nil, List.append_nil]
  | cons entry entries ih =>
    -- The key of the entry is none of those in front of it.
    have hnew : entry.1 ∉ stored.map Prod.fst := by
      rw [List.map_append, List.map_cons, List.nodup_append] at h
      exact fun hmem => h.2.2 _ hmem _ List.mem_cons_self rfl
    rw [List.append_cons] at h
    rw [List.foldl_cons, store_of_new hnew, ih h, ← List.append_cons]

/-- Nothing is replaced where no key repeats. -/
theorem table_of_nodup {entries : List (κ × ν)} (h : (entries.map Prod.fst).Nodup) :
    table entries = entries := by
  rw [table, foldl_store_of_nodup (by rwa [List.nil_append]), List.nil_append]

end Stored

section Found

variable {κ ν : Type} [BEq κ] [LawfulBEq κ]

/-- The first entry is found under its key. -/
theorem lookup_of_eq {entry : κ × ν} {entries : List (κ × ν)} {key : κ} (h : key = entry.1) :
    (entry :: entries).lookup key = some entry.2 := by
  rw [h]
  exact List.lookup_cons_self

/-- Under another key it is passed over. -/
theorem lookup_of_ne {entry : κ × ν} {entries : List (κ × ν)} {key : κ} (h : key ≠ entry.1) :
    (entry :: entries).lookup key = entries.lookup key := by
  rw [List.lookup_cons, beq_eq_false_iff_ne.mpr h]

variable [DecidableEq κ]

/-- Storing an entry changes what is found under its own key alone. -/
theorem lookup_store (entry : κ × ν) (entries : List (κ × ν)) (key : κ) :
    (store entry entries).lookup key =
      if key = entry.1 then some entry.2 else entries.lookup key := by
  induction entries with
  | nil =>
    by_cases hkey : key = entry.1
    · rw [store, lookup_of_eq hkey, if_pos hkey]
    · rw [store, lookup_of_ne hkey, if_neg hkey]
  | cons old entries ih =>
    -- The entry replaces the first one with its key, or is stored further on.
    by_cases hold : old.1 = entry.1
    · rw [store, if_pos hold]
      by_cases hkey : key = entry.1
      · rw [lookup_of_eq hkey, if_pos hkey]
      · rw [lookup_of_ne hkey, if_neg hkey, lookup_of_ne (hold ▸ hkey)]
    · rw [store, if_neg hold]
      by_cases hkey : key = old.1
      · rw [lookup_of_eq hkey, lookup_of_eq hkey, if_neg (hkey ▸ hold)]
      · rw [lookup_of_ne hkey, lookup_of_ne hkey, ih]

/-- The last entry with a key is found, or else what was stored before. -/
theorem lookup_foldl_store (entries stored : List (κ × ν)) (key : κ) :
    (entries.foldl (fun stored entry => store entry stored) stored).lookup key =
      (entries.reverse.lookup key).or (stored.lookup key) := by
  induction entries generalizing stored with
  | nil => rfl
  | cons entry entries ih =>
    rw [List.foldl_cons, ih, lookup_store, List.reverse_cons, List.lookup_append, Option.or_assoc]
    by_cases hkey : key = entry.1
    · rw [if_pos hkey, lookup_of_eq hkey, Option.some_or]
    · rw [if_neg hkey, lookup_of_ne hkey, List.lookup_nil, Option.none_or]

/-- A table holds the last of the entries with a key. -/
theorem lookup_table (entries : List (κ × ν)) (key : κ) :
    (table entries).lookup key = entries.reverse.lookup key := by
  rw [table, lookup_foldl_store, List.lookup_nil, Option.or_none]

end Found

/-! ## Keys -/

section Keys

variable {α : Type} {entries : List (String × List α)} {parsed : List (SymbolId × List α)}

/-- The entry under the symbol that its key is read as. -/
def KeyRead (entry : String × List α) (read : SymbolId × List α) : Prop :=
  SymbolId.parse entry.1 = .ok read.1 ∧ entry.2 = read.2

/-- The keys are read exactly if each of them is. -/
theorem readKeys_eq_ok_iff :
    readKeys entries = .ok parsed ↔ List.Forall₂ KeyRead entries parsed := by
  induction entries generalizing parsed with
  | nil =>
    rw [readKeys, List.forall₂_nil_left_iff]
    exact ⟨fun h => (Except.ok.inj h).symm, fun h => congrArg Except.ok h.symm⟩
  | cons entry entries ih =>
    obtain ⟨key, list⟩ := entry
    rw [readKeys, List.forall₂_cons_left_iff]
    simp only [Except.bind_eq_ok, Except.mapError_eq_ok, ih]
    constructor
    · rintro ⟨id, hid, rest, hrest, h⟩
      exact ⟨(id, list), rest, ⟨hid, rfl⟩, hrest, (Except.ok.inj h).symm⟩
    · rintro ⟨⟨id, _⟩, rest, ⟨hid, rfl⟩, hrest, rfl⟩
      exact ⟨id, hid, rest, hrest, rfl⟩

/-- So they are read exactly if each of them is the text of a symbol. -/
theorem exists_readKeys_iff :
    (∃ parsed, readKeys entries = .ok parsed) ↔
      ∀ entry ∈ entries, ∃ id, SymbolId.parse entry.1 = .ok id := by
  simp only [readKeys_eq_ok_iff]
  constructor
  · rintro ⟨parsed, h⟩ entry hentry
    obtain ⟨read, -, hkey, -⟩ := exists_of_forall₂ h hentry
    exact ⟨read.1, hkey⟩
  · intro h
    induction entries with
    | nil => exact ⟨[], .nil⟩
    | cons entry entries ih =>
      obtain ⟨id, hid⟩ := h entry List.mem_cons_self
      obtain ⟨parsed, hparsed⟩ := ih fun e he => h e (List.mem_cons_of_mem _ he)
      exact ⟨(id, entry.2) :: parsed, .cons ⟨hid, rfl⟩ hparsed⟩

/-- The texts of the symbols are the keys that they were read from. -/
theorem map_text_of_keyRead (h : List.Forall₂ KeyRead entries parsed) :
    (parsed.map Prod.fst).map SymbolId.text = entries.map Prod.fst := by
  induction h with
  | nil => rfl
  | cons hentry _ ih =>
    rw [List.map_cons, List.map_cons, List.map_cons, ih, SymbolId.text_of_parse hentry.1]

/-- Different keys are read as different symbols, since a symbol has the text that it was read
    from. -/
theorem readKeys_nodup (h : List.Forall₂ KeyRead entries parsed)
    (hkeys : (entries.map Prod.fst).Nodup) : (parsed.map Prod.fst).Nodup := by
  rw [← map_text_of_keyRead h] at hkeys
  exact hkeys.of_map _

/-- The symbols are those that some key is read as. -/
theorem mem_keys_iff (h : List.Forall₂ KeyRead entries parsed) {id : SymbolId} :
    id ∈ parsed.map Prod.fst ↔ ∃ entry ∈ entries, SymbolId.parse entry.1 = .ok id := by
  constructor
  · intro hid
    obtain ⟨read, hread, rfl⟩ := List.mem_map.mp hid
    obtain ⟨entry, hentry, hkey, -⟩ := exists_of_forall₂ h.flip hread
    exact ⟨entry, hentry, hkey⟩
  · rintro ⟨entry, hentry, hkey⟩
    obtain ⟨read, hread, hkey', -⟩ := exists_of_forall₂ h hentry
    rw [hkey] at hkey'
    exact List.mem_map.mpr ⟨read, hread, (Except.ok.inj hkey').symm⟩

/-- What is found under a symbol is what the table lists for it. -/
theorem lookup_keys_iff (h : List.Forall₂ KeyRead entries parsed)
    (hkeys : (entries.map Prod.fst).Nodup) {id : SymbolId} {list : List α} :
    (parsed.lookup id).getD [] = list ↔ Manifest.Lists entries id list := by
  -- No two keys are read as one symbol, so it does not matter which entry is found.
  have hnodup := readKeys_nodup h hkeys
  constructor
  · rintro rfl
    cases hfound : parsed.lookup id with
    | none =>
      refine .absent fun entry hentry hkey => ?_
      obtain ⟨read, hread, hid⟩ := List.mem_map.mp ((mem_keys_iff h).mpr ⟨entry, hentry, hkey⟩)
      have hne := List.lookup_eq_none_iff.mp hfound read hread
      simp [hid] at hne
    | some found =>
      obtain ⟨before, after, rfl, -⟩ := List.lookup_eq_some_iff.mp hfound
      obtain ⟨entry, hentry, hkey, hlist⟩ :=
        exists_of_forall₂ h.flip (List.mem_append_right before List.mem_cons_self)
      cases hlist
      exact .stored hentry hkey
  · intro hlists
    cases hlists with
    | stored hmem hkey =>
      obtain ⟨⟨id', list'⟩, hread, hkey', hlist⟩ := exists_of_forall₂ h hmem
      rw [hkey] at hkey'
      cases hkey'
      cases hlist
      rw [lookup_of_mem hnodup hread, Option.getD_some]
    | absent hnone =>
      have hfound : parsed.lookup id = none := by
        refine List.lookup_eq_none_iff.mpr fun read hread => bne_iff_ne.mpr ?_
        rintro rfl
        obtain ⟨entry, hentry, hkey, -⟩ := exists_of_forall₂ h.flip hread
        exact hnone entry hentry hkey
      rw [hfound, Option.getD_none]

/-- Several symbols are looked up like single ones. -/
theorem forall₂_lists_iff (h : List.Forall₂ KeyRead entries parsed)
    (hkeys : (entries.map Prod.fst).Nodup) {ids : List SymbolId} {lists : List (List α)} :
    List.Forall₂ (Manifest.Lists entries) ids lists ↔
      ids.map (fun id => (parsed.lookup id).getD []) = lists := by
  have hlists : Manifest.Lists entries = fun id list => (parsed.lookup id).getD [] = list := by
    funext id list
    exact propext (lookup_keys_iff h hkeys).symm
  rw [hlists, ← List.forall₂_map_left_iff, List.forall₂_eq_eq_eq]

end Keys

/-! ## Bindings -/

section Bindings

open Manifest (Unbound LastBinds Means)

variable {bindings : List ScopeBinding} {name : String} {scope : Option String}

/-- A name is unbound exactly if no entry has it for its key. -/
theorem unbound_iff :
    Unbound bindings name scope ↔
      ∀ entry ∈ bindings.map fun b => ((b.name, b.scope), b.symbolId),
        ((name, scope) != entry.1) = true := by
  simp only [Unbound, List.forall_mem_map, bne_iff_ne, ne_eq, Prod.mk.injEq, @eq_comm _ name,
    @eq_comm _ scope]

/-- Nothing is found for a name that is not bound in the scope. -/
theorem lookup_bindings_eq_none_iff :
    (table (bindings.map fun b => ((b.name, b.scope), b.symbolId))).lookup (name, scope) = none ↔
      Unbound bindings name scope := by
  rw [lookup_table, List.lookup_eq_none_iff, unbound_iff]
  simp only [List.mem_reverse]

/-- What is found for a name is what its last binding says. -/
theorem lookup_bindings_eq_some_iff {id : SymbolId} :
    (table (bindings.map fun b => ((b.name, b.scope), b.symbolId))).lookup (name, scope) =
      some id ↔ LastBinds bindings name scope id := by
  rw [lookup_table, List.lookup_eq_some_iff]
  constructor
  · -- The bindings are searched from the last one on, so those in front of the hit come later.
    rintro ⟨later, earlier, hsplit, hlater⟩
    rw [← List.map_reverse] at hsplit
    obtain ⟨after, rest, hbindings, rfl, hrest⟩ := List.map_eq_append_iff.mp hsplit
    obtain ⟨b, before, rfl, hb, -⟩ := List.map_eq_cons_iff.mp hrest
    cases hb
    refine ⟨before.reverse, b, after.reverse, ?_, rfl, rfl, rfl, ?_⟩
    · rw [← List.reverse_reverse bindings, hbindings]
      simp
    · rw [unbound_iff, List.map_reverse]
      simpa only [List.mem_reverse] using hlater
  · rintro ⟨before, b, after, rfl, rfl, rfl, rfl, hafter⟩
    refine ⟨(after.map fun b => ((b.name, b.scope), b.symbolId)).reverse,
      (before.map fun b => ((b.name, b.scope), b.symbolId)).reverse, by simp, ?_⟩
    simpa only [List.mem_reverse] using unbound_iff.mp hafter

/-- A name is looked up in its scope and then in the global one, which may be the same. -/
theorem lookup_eq_or (index : ManifestIndex) (name : String) (scope : Option String) :
    index.lookup name scope = (index.binding? name scope).or (index.binding? name none) := by
  cases scope with
  | none => rw [lookup, Option.bind_none, Option.none_or, Option.or_self]
  | some s => rfl

/-- What is looked up is what the name means. -/
theorem lookup_eq_iff_means {index : ManifestIndex}
    (hindex : index.bindings = table (bindings.map fun b => ((b.name, b.scope), b.symbolId)))
    {found : Option SymbolId} :
    index.lookup name scope = found ↔ Means bindings name scope found := by
  have hnone : ∀ s, index.binding? name s = none ↔ Unbound bindings name s := by
    intro s
    rw [binding?, hindex, lookup_bindings_eq_none_iff]
  have hsome : ∀ s id, index.binding? name s = some id ↔ LastBinds bindings name s id := by
    intro s id
    rw [binding?, hindex, lookup_bindings_eq_some_iff]
  rw [lookup_eq_or]
  constructor
  · rintro rfl
    -- The global scope counts only where the scope itself has no binding.
    cases hhere : index.binding? name scope with
    | some id => exact .here ((hsome scope id).mp hhere)
    | none =>
      rw [Option.none_or]
      cases hglobal : index.binding? name none with
      | some id => exact .everywhere ((hnone scope).mp hhere) ((hsome none id).mp hglobal)
      | none => exact .nothing ((hnone scope).mp hhere) ((hnone none).mp hglobal)
  · intro hmeans
    cases hmeans with
    | @here id h => rw [(hsome scope id).mpr h, Option.some_or]
    | @everywhere id hhere h =>
      rw [(hnone scope).mpr hhere, Option.none_or, (hsome none id).mpr h]
    | nothing hhere h => rw [(hnone scope).mpr hhere, Option.none_or, (hnone none).mpr h]

end Bindings

/-! ## The index -/

/-- The index that is made of a manifest whose keys are read. -/
theorem ofManifest_eq_ok_iff {m : Manifest} {index : ManifestIndex} :
    ofManifest m = .ok index ↔
      ∃ occurrences dependents, List.Forall₂ KeyRead m.occurrences occurrences ∧
        List.Forall₂ KeyRead m.dependents dependents ∧
        index = {
          symbols := (m.symbols ++ (table occurrences).map Prod.fst).eraseDups
          occurrences := table occurrences
          bindings := table (m.bindings.map fun b => ((b.name, b.scope), b.symbolId))
          dependents := table dependents
          reservedWords := m.reservedWords
          fileSymbols := m.fileSymbols } := by
  simp only [ofManifest, Except.bind_eq_ok, readKeys_eq_ok_iff]
  constructor
  · rintro ⟨occurrences, hoccurrences, dependents, hdependents, h⟩
    exact ⟨occurrences, dependents, hoccurrences, hdependents, (Except.ok.inj h).symm⟩
  · rintro ⟨occurrences, dependents, hoccurrences, hdependents, rfl⟩
    exact ⟨occurrences, hoccurrences, dependents, hdependents, rfl⟩

/-- There is an index exactly if every key is the text of a symbol. -/
theorem exists_ofManifest_iff {m : Manifest} :
    (∃ index, ofManifest m = .ok index) ↔
      (∀ entry ∈ m.occurrences, ∃ id, SymbolId.parse entry.1 = .ok id) ∧
        ∀ entry ∈ m.dependents, ∃ id, SymbolId.parse entry.1 = .ok id := by
  simp only [ofManifest_eq_ok_iff, ← exists_readKeys_iff, readKeys_eq_ok_iff]
  constructor
  · rintro ⟨index, occurrences, dependents, hoccurrences, hdependents, -⟩
    exact ⟨⟨occurrences, hoccurrences⟩, dependents, hdependents⟩
  · rintro ⟨⟨occurrences, hoccurrences⟩, dependents, hdependents⟩
    exact ⟨_, occurrences, dependents, hoccurrences, hdependents, rfl⟩

/-- The index of a manifest with distinct keys answers what the manifest says. -/
theorem indexedBy_ofManifest {m : Manifest} (hkeys : m.KeysDistinct) {index : ManifestIndex}
    (h : ofManifest m = .ok index) : m.IndexedBy index := by
  obtain ⟨occurrences, dependents, hoccurrences, hdependents, rfl⟩ := ofManifest_eq_ok_iff.mp h
  -- No two keys are read as one symbol, so the tables hold every entry that was read.
  rw [table_of_nodup (readKeys_nodup hoccurrences hkeys.occurrences),
    table_of_nodup (readKeys_nodup hdependents hkeys.dependents)]
  constructor
  case occurrences =>
    intro id list
    show Except.ok _ = Except.ok list ↔ _
    rw [Except.ok.injEq, ← lookup_keys_iff hoccurrences hkeys.occurrences]
  case hasSymbol =>
    intro id
    refine ⟨_, rfl, ?_⟩
    rw [List.contains_iff_mem, List.mem_eraseDups, List.mem_append, mem_keys_iff hoccurrences]
  case dependents =>
    intro ids found
    show Except.ok (dependentsOf _ ids) = Except.ok found ↔ _
    simp only [Except.ok.injEq, forall₂_lists_iff hdependents hkeys.dependents, exists_eq_left',
      dependentsOf, List.flatMap_def]
    exact eq_comm
  case lookup =>
    intro name scope found
    show Except.ok (lookup _ name scope) = Except.ok found ↔ _
    rw [Except.ok.injEq]
    exact lookup_eq_iff_means rfl

/-- The tables of a manifest that was read have distinct keys. A manifest with distinct keys has an
    index exactly if every key of its occurrences and of its dependents is read as a symbol, and
    the index then answers what the manifest says. -/
theorem ofManifest_exact :
    (∀ j m, Manifest.ofJson? j = some m → m.KeysDistinct) ∧
    ∀ m : Manifest, m.KeysDistinct →
      ((∃ index, ofManifest m = .ok index) ↔
        (∀ entry ∈ m.occurrences, ∃ id, SymbolId.parse entry.1 = .ok id) ∧
          ∀ entry ∈ m.dependents, ∃ id, SymbolId.parse entry.1 = .ok id) ∧
      ∀ index, ofManifest m = .ok index → m.IndexedBy index :=
  ⟨fun _ _ => Manifest.keysDistinct_of_ofJson?,
    fun _ hkeys => ⟨exists_ofManifest_iff, fun _ => indexedBy_ofManifest hkeys⟩⟩

/-- A manifest that binds a name globally between two bindings of it in one scope. -/
def shadowing : Manifest where
  symbols := [⟨["p", "var"], "c"⟩]
  occurrences :=
    [("p/var/a", [⟨⟨"f.gml"⟩, 1, 2, none, .reference⟩]), ("p/var/b", [])]
  bindings :=
    [⟨"n", some "s", ⟨["p", "var"], "a"⟩⟩, ⟨"n", none, ⟨["p", "var"], "c"⟩⟩,
      ⟨"n", some "s", ⟨["p", "var"], "b"⟩⟩, ⟨"k", none, ⟨["p", "var"], "a"⟩⟩]
  dependents :=
    [("p/var/a", [⟨⟨["p", "var"], "b"⟩, none⟩]), ("p/var/b", [⟨⟨["p", "var"], "c"⟩, none⟩])]
  reservedWords := []
  fileSymbols := []

/-- In the scope the second binding of the name counts, elsewhere the global one. -/
theorem ofManifest_exact_shadowing :
    shadowing.KeysDistinct ∧ ∃ index, ofManifest shadowing = .ok index ∧
      index.analyzer.occurrences ⟨["p", "var"], "a"⟩ =
        .ok [⟨⟨"f.gml"⟩, 1, 2, none, .reference⟩] ∧
      index.analyzer.occurrences ⟨["p", "var"], "c"⟩ = .ok [] ∧
      index.analyzer.hasSymbol ⟨["p", "var"], "c"⟩ = .ok true ∧
      index.analyzer.dependents
          [⟨["p", "var"], "b"⟩, ⟨["p", "var"], "c"⟩, ⟨["p", "var"], "a"⟩, ⟨["p", "var"], "b"⟩] =
        .ok [⟨⟨["p", "var"], "c"⟩, none⟩, ⟨⟨["p", "var"], "b"⟩, none⟩,
          ⟨⟨["p", "var"], "c"⟩, none⟩] ∧
      index.analyzer.lookup "n" (some "s") = .ok (some ⟨["p", "var"], "b"⟩) ∧
      index.analyzer.lookup "n" (some "t") = .ok (some ⟨["p", "var"], "c"⟩) ∧
      index.analyzer.lookup "m" (some "s") = .ok none := by
  have hkeys : shadowing.KeysDistinct := ⟨by decide, by decide⟩
  have ha : SymbolId.parse "p/var/a" = .ok ⟨["p", "var"], "a"⟩ :=
    Except.toOption_eq_some.mp (by decide)
  have hb : SymbolId.parse "p/var/b" = .ok ⟨["p", "var"], "b"⟩ :=
    Except.toOption_eq_some.mp (by decide)
  have hread : ∀ key ∈ ["p/var/a", "p/var/b"], ∃ id, SymbolId.parse key = .ok id := by
    intro key hmem
    rcases List.mem_pair.mp hmem with rfl | rfl
    · exact ⟨_, ha⟩
    · exact ⟨_, hb⟩
  -- No key is the text of `p/var/c`.
  have hc : ∀ key ∈ ["p/var/a", "p/var/b"], SymbolId.parse key ≠ .ok ⟨["p", "var"], "c"⟩ := by
    intro key hmem hkey
    rw [← SymbolId.text_of_parse hkey] at hmem
    revert hmem
    decide
  obtain ⟨-, hexact⟩ := ofManifest_exact
  obtain ⟨hexists, hindexed⟩ := hexact shadowing hkeys
  obtain ⟨index, hindex⟩ := hexists.mpr
    ⟨fun _ he => hread _ (List.mem_map_of_mem (f := Prod.fst) he),
      fun _ he => hread _ (List.mem_map_of_mem (f := Prod.fst) he)⟩
  have h := hindexed index hindex
  refine ⟨hkeys, index, hindex, ?_, ?_, ?_, ?_, ?_, ?_, ?_⟩
  · exact (h.occurrences _ _).mpr (.stored List.mem_cons_self ha)
  · refine (h.occurrences _ _).mpr (.absent fun _ he => ?_)
    exact hc _ (List.mem_map_of_mem (f := Prod.fst) he)
  · obtain ⟨known, hknown, hiff⟩ := h.hasSymbol ⟨["p", "var"], "c"⟩
    rw [hknown, hiff.mpr (.inl List.mem_cons_self)]
  · refine (h.dependents _ _).mpr ⟨[[⟨⟨["p", "var"], "c"⟩, none⟩], [],
      [⟨⟨["p", "var"], "b"⟩, none⟩], [⟨⟨["p", "var"], "c"⟩, none⟩]], ?_, rfl⟩
    have hlistsB : Manifest.Lists shadowing.dependents ⟨["p", "var"], "b"⟩
      [⟨⟨["p", "var"], "c"⟩, none⟩] := .stored (.tail _ (.head _)) hb
    have hlistsC : Manifest.Lists shadowing.dependents ⟨["p", "var"], "c"⟩ [] :=
      .absent fun _ he => hc _ (List.mem_map_of_mem (f := Prod.fst) he)
    exact .cons hlistsB (.cons hlistsC (.cons (.stored (.head _) ha) (.cons hlistsB .nil)))
  · exact (h.lookup _ _ _).mpr (.here ⟨shadowing.bindings.take 2, _, shadowing.bindings.drop 3,
      rfl, rfl, rfl, rfl, by decide⟩)
  · exact (h.lookup _ _ _).mpr (.everywhere (by decide) ⟨shadowing.bindings.take 1, _,
      shadowing.bindings.drop 2, rfl, rfl, rfl, rfl, by decide⟩)
  · exact (h.lookup _ _ _).mpr (.nothing (by decide) (by decide))

end ManifestIndex
end HotRename
