import HotRename.Json.Decode
import HotRename.Proofs.List

/-!
# Reading back what was written

A document is read with more freedom than it is written: records may be arrays, fields may be left
out, keys may repeat. What comes out is written in one form, and that form is read as the same
value. Which values come out of documents is said for each reader by a predicate. Main statements:

* `Codec`                   a reader, a writer and the values on which they agree
* `textTable_textTable`     a table keyed by texts is read as it stands
* `normal?_idempotent`      so is a value in normal form
-/

namespace HotRename.Json

/-! ## Values -/

/-- What `read` finds in any document, it finds again in what `write` makes of it. A document is a
    value, or for a field of a record an optional value. -/
def ReadsBack (read : δ → Option α) (write : α → δ) : Prop :=
  ∀ d a, read d = some a → read (write a) = some a

/-- A reader and a writer that agree on the values that satisfy `Valid`: no other values are read,
    and each of these is read from what is written for it. -/
structure Codec (read : δ → Option α) (write : α → δ) (Valid : α → Prop) : Prop where
  valid : ∀ d a, read d = some a → Valid a
  reads : ∀ a, Valid a → read (write a) = some a
  readsBack : ReadsBack read write := fun d a h => reads a (valid d a h)

/-- The document gives the value, and so does the one that the value is written as. -/
def ReadsAs (read : δ → Option α) (write : α → δ) (d : δ) (a : α) : Prop :=
  read d = some a ∧ read (write a) = some a

/-- A document that can be read gives the value that is read back from it. -/
theorem Codec.readsAs {read : δ → Option α} {write : α → δ} {Valid : α → Prop} {d : δ} {a : α}
    (h : Codec read write Valid) (hd : read d = some a) : ReadsAs read write d a :=
  ⟨hd, h.readsBack d a hd⟩

/-- Every text can be written. -/
theorem codec_text : Codec asText text fun _ => True where
  valid _ _ _ := trivial
  reads _ _ := rfl

theorem codec_bool : Codec asBool bool fun _ => True where
  valid _ _ _ := trivial
  reads _ _ := rfl

/-- The numbers that documents hold. -/
def Fits (n : Nat) : Prop :=
  n < 18446744073709551616

instance : DecidablePred Fits := fun n => inferInstanceAs (Decidable (n < 18446744073709551616))

/-- A number that is too large is written and then not read. -/
theorem codec_nat : Codec asNat nat Fits where
  valid := by
    intro j n h
    unfold asNat at h
    split at h
    · split at h
      · rename_i hn
        cases h
        exact hn
      · cases h
    · cases h
  reads _ hn := if_pos hn

/-- Members of a list that was read were each read from some item. -/
theorem exists_of_mapM {f : α → Option β} {as : List α} {bs : List β} (h : as.mapM f = some bs)
    {b : β} (hb : b ∈ bs) : ∃ a ∈ as, f a = some b := by
  induction as generalizing bs with
  | nil =>
    cases h
    cases hb
  | cons a as ih =>
    simp only [List.mapM_cons, Option.bind_eq_bind, Option.bind_eq_some_iff] at h
    obtain ⟨first, hfirst, rest, hrest, hbs⟩ := h
    cases hbs
    rcases List.mem_cons.mp hb with rfl | hb
    · exact ⟨a, List.mem_cons_self, hfirst⟩
    · obtain ⟨a', ha', hread⟩ := ih hrest hb
      exact ⟨a', List.mem_cons_of_mem _ ha', hread⟩

variable {read : Json → Option α} {write : α → Json} {Valid : α → Prop}

/-- The same for a list that was read from a document. -/
theorem exists_of_asList {j : Json} {as : List α} (h : asList read j = some as) {a : α}
    (ha : a ∈ as) : ∃ item, read item = some a := by
  cases j with
  | array items =>
    obtain ⟨item, -, hitem⟩ := exists_of_mapM h ha
    exact ⟨item, hitem⟩
  | _ => cases h

/-- A list is read back if its members are. -/
theorem asList_list {as : List α} (h : ∀ a ∈ as, read (write a) = some a) :
    asList read (list write as) = some as :=
  mapM_map_eq_some h

/-- A list is valid if its members are. -/
theorem Codec.list (h : Codec read write Valid) :
    Codec (asList read) (Json.list write) fun as => ∀ a ∈ as, Valid a where
  valid := by
    intro j as has a ha
    obtain ⟨item, hitem⟩ := exists_of_asList has ha
    exact h.valid item a hitem
  reads as has := asList_list fun a ha => h.reads a (has a ha)

/-! ## Fields -/

/-- A field that has to be given. -/
theorem Codec.required (h : Codec read write Valid) :
    Codec (Json.required read) (fun a => some (write a)) Valid where
  valid := by
    intro x a ha
    cases x with
    | none => cases ha
    | some j => exact h.valid j a ha
  reads := h.reads

/-- Members of a list that may be left out were each read from some item. -/
theorem exists_of_defaulted {x : Option Json} {as : List α}
    (h : defaulted [] (asList read) x = some as) {a : α} (ha : a ∈ as) :
    ∃ item, read item = some a := by
  cases x with
  | none =>
    cases h
    cases ha
  | some j => exact exists_of_asList h ha

/-- A default has to be valid, since it is written like any other value. -/
theorem Codec.defaulted (h : Codec read write Valid) {value : α} (hvalue : Valid value) :
    Codec (Json.defaulted value read) (fun a => some (write a)) Valid where
  valid := by
    intro x a ha
    cases x with
    | none =>
      cases ha
      exact hvalue
    | some j => exact h.valid j a ha
  reads := h.reads

/-- What an optional field holds was read from its value, which was not null. -/
theorem read_of_optionalField {x : Option Json} {a : α}
    (h : Json.optionalField read x = some (some a)) :
    ∃ j, read j = some a ∧ j ≠ .null := by
  cases x with
  | none => cases h
  | some j =>
    unfold Json.optionalField asOptional at h
    dsimp only at h
    split at h
    · cases h
    · rename_i hj
      exact ⟨j, by simpa using h, hj⟩

/-- A value that is not null is read as it would be without the option of null. -/
theorem asOptional_of_ne_null {j : Json} {a : α} (hj : j ≠ .null) (h : read j = some a) :
    asOptional read j = some (some a) := by
  unfold asOptional
  split
  · contradiction
  · rw [h]
    rfl

/-- An optional field is left out where there is no value. Null would be read as no value, so no
    value may be written as null. -/
theorem Codec.optionalField (h : Codec read write Valid) (hnull : ∀ a, write a ≠ .null) :
    Codec (Json.optionalField read) (Option.map write) fun o => ∀ a ∈ o, Valid a where
  valid := by
    rintro x _ ha a rfl
    obtain ⟨j, hj, -⟩ := read_of_optionalField ha
    exact h.valid j a hj
  reads := by
    intro o ho
    cases o with
    | none => rfl
    | some a => exact asOptional_of_ne_null (hnull a) (h.reads a (ho a rfl))

/-- The same for a field that is null where there is no value. -/
theorem Codec.orNull (h : Codec read write Valid) (hnull : ∀ a, write a ≠ .null) :
    Codec (Json.optionalField read) (fun a => some (Json.orNull write a))
      fun o => ∀ a ∈ o, Valid a where
  valid := (h.optionalField hnull).valid
  reads := by
    intro o ho
    cases o with
    | none => rfl
    | some a => exact (h.optionalField hnull).reads (some a) ho

/-! ## Tables -/

/-- A record has the members that it is made of. -/
theorem asMembers_record (ms : List (String × Json)) : (record ms).asMembers = some ms :=
  mapM_map_eq_some fun _ _ => rfl

/-- A table is read back entry by entry if its values are. -/
theorem asEntries_record {table : List (String × α)}
    (h : ∀ e ∈ table, read (write e.2) = some e.2) :
    (record (table.map fun e => (e.1, write e.2))).asEntries read = some table := by
  unfold asEntries
  rw [asMembers_record]
  refine mapM_map_eq_some fun e he => ?_
  rw [h e he]
  rfl

/-- The values of a table were each read from some value. -/
theorem exists_of_asEntries {j : Json} {entries : List (String × α)}
    (h : j.asEntries read = some entries) {e : String × α} (he : e ∈ entries) :
    ∃ j', read j' = some e.2 := by
  obtain ⟨members, -, hentries⟩ := Option.bind_eq_some_iff.mp h
  obtain ⟨m, -, hm⟩ := exists_of_mapM hentries he
  obtain ⟨a, ha, rfl⟩ := Option.map_eq_some_iff.mp hm
  exact ⟨m.2, ha⟩

/-- The keys of the table each once and in ascending order. -/
def Ascending (entries : List (String × α)) : Prop :=
  entries.Pairwise fun a b => (compare a.1 b.1).isLE = true ∧ a.1 ≠ b.1

instance (entries : List (String × α)) : Decidable (Ascending entries) :=
  inferInstanceAs (Decidable (entries.Pairwise _))

/-- Keys that are in order already need not be sorted. -/
theorem textTable_of_sorted {entries : List (String × α)}
    (h : (entries.map Prod.fst).Pairwise fun a b => (compare a b).isLE = true) :
    textTable entries = (entries.map Prod.fst).eraseDups.filterMap fun key =>
      (entries.reverse.find? fun entry => entry.1 = key).map fun entry => (key, entry.2) := by
  rw [textTable, List.mergeSort_of_pairwise h]

/-- A table whose keys are in ascending order is read as it stands. -/
theorem textTable_of_ascending {entries : List (String × α)} (h : Ascending entries) :
    textTable entries = entries := by
  have hsorted := textTable_of_sorted (List.pairwise_map.mpr (h.imp And.left))
  have hnodup : (entries.map Prod.fst).Nodup := List.pairwise_map.mpr (h.imp And.right)
  -- No key is repeated, so the last entry with the key of `e` is `e`.
  have hfind : ∀ e ∈ entries, entries.reverse.find? (fun entry => entry.1 = e.1) = some e := by
    intro e he
    cases hfound : entries.reverse.find? fun entry => entry.1 = e.1 with
    | none =>
      have hnone := List.find?_eq_none.mp hfound e (List.mem_reverse.mpr he)
      simp at hnone
    | some found =>
      have hkey : found.1 = e.1 := by simpa using List.find?_some hfound
      have hmem := List.mem_reverse.mp (List.mem_of_find?_eq_some hfound)
      rw [List.inj_on_of_nodup_map hnodup hmem he hkey]
  rw [hsorted, eraseDups_of_nodup hnodup, List.filterMap_map]
  exact filterMap_eq_self fun e he => by simp [hfind e he]

/-- No entry of a table is made up. -/
theorem mem_of_mem_textTable {entries : List (String × α)} {e : String × α}
    (h : e ∈ textTable entries) : e ∈ entries := by
  obtain ⟨key, -, hkey⟩ := List.mem_filterMap.mp h
  obtain ⟨found, hfound, rfl⟩ := Option.map_eq_some_iff.mp hkey
  have hsame : found.1 = key := by simpa using List.find?_some hfound
  rw [← hsame]
  exact List.mem_reverse.mp (List.mem_of_find?_eq_some hfound)

/-- Whatever the order of the entries was, the table is in order. -/
theorem textTable_ascending (entries : List (String × α)) : Ascending (textTable entries) := by
  let sorted := (entries.map Prod.fst).mergeSort fun a b => (compare a b).isLE
  have hsorted : sorted.Pairwise fun a b => (compare a b).isLE = true := by
    refine List.pairwise_mergeSort (fun a b c => Std.TransCmp.isLE_trans) (fun a b => ?_) _
    have hswap : compare b a = (compare a b).swap := Std.OrientedCmp.eq_swap
    rw [hswap]
    cases compare a b <;> rfl
  have hkeys : sorted.eraseDups.Pairwise fun a b => (compare a b).isLE = true ∧ a ≠ b :=
    (hsorted.sublist (eraseDups_sublist sorted)).and (nodup_eraseDups sorted)
  -- Every entry of the table stands under the key that it was found for.
  refine List.Pairwise.filterMap _ (fun a a' haa' b hb b' hb' => ?_) hkeys
  obtain ⟨found, -, rfl⟩ := Option.map_eq_some_iff.mp hb
  obtain ⟨found', -, rfl⟩ := Option.map_eq_some_iff.mp hb'
  exact haa'

/-- A table that is written is read as it stands. -/
theorem textTable_textTable (entries : List (String × α)) :
    textTable (textTable entries) = textTable entries :=
  textTable_of_ascending (textTable_ascending entries)

/-! ## Normal forms -/

/-- Members in normal form stay as they are. -/
theorem normalMembers?_record {ms : List (String × Json)}
    (h : ∀ m ∈ ms, normal? m.2 = some m.2) :
    normalMembers? (ms.map fun m => (some m.1, m.2)) = some ms := by
  induction ms with
  | nil => rfl
  | cons m ms ih =>
    rw [List.map_cons, normalMembers?, h m List.mem_cons_self,
      ih fun m' hm' => h m' (List.mem_cons_of_mem _ hm')]
    rfl

mutual

-- By induction on the value that is read: its items and members are in normal form, and the table
-- of its members is in order.
/-- A value in normal form is its own normal form. -/
theorem normal?_idempotent : ∀ (j : Json) {v : Json}, normal? j = some v → normal? v = some v
  | .null, _, h | .bool _, _, h | .number _, _, h | .string _, _, h => by
    cases h
    rfl
  | .array items, _, h => by
    obtain ⟨vs, hvs, rfl⟩ := Option.map_eq_some_iff.mp h
    rw [normal?, normalItems?_idempotent items hvs]
    rfl
  | .object members, _, h => by
    obtain ⟨ms, hms, rfl⟩ := Option.map_eq_some_iff.mp h
    -- The values of the table are among those that were read, and these are normal.
    have hnormal : ∀ m ∈ textTable ms, normal? m.2 = some m.2 := fun m hm =>
      normalMembers?_normal members hms m (mem_of_mem_textTable hm)
    rw [record, normal?, normalMembers?_record hnormal, Option.map_some, textTable_textTable]
    rfl
  | .void, _, h => by cases h

/-- The items of a value in normal form are so, too. -/
theorem normalItems?_idempotent : ∀ (js : List Json) {vs : List Json},
    normalItems? js = some vs → normalItems? vs = some vs
  | [], _, h => by
    cases h
    rfl
  | j :: js, _, h => by
    obtain ⟨v, hv, h⟩ := Option.bind_eq_some_iff.mp h
    obtain ⟨vs, hvs, h⟩ := Option.bind_eq_some_iff.mp h
    cases h
    rw [normalItems?, normal?_idempotent j hv, normalItems?_idempotent js hvs]
    rfl

/-- So are the values of its members. -/
theorem normalMembers?_normal : ∀ (members : List (Option String × Json))
    {ms : List (String × Json)}, normalMembers? members = some ms →
    ∀ m ∈ ms, normal? m.2 = some m.2
  | [], _, h => by
    cases h
    exact nofun
  | (k, j) :: members, _, h => by
    obtain ⟨key, hkey, h⟩ := Option.bind_eq_some_iff.mp h
    obtain ⟨v, hv, h⟩ := Option.bind_eq_some_iff.mp h
    obtain ⟨ms, hms, h⟩ := Option.bind_eq_some_iff.mp h
    cases h
    intro m hm
    rcases List.mem_cons.mp hm with rfl | hm
    · exact normal?_idempotent j hv
    · exact normalMembers?_normal members hms m hm

end

/-- Only null has the normal form null. -/
theorem eq_null_of_normal? {j : Json} (h : normal? j = some .null) : j = .null := by
  cases j with
  | null => rfl
  | array items =>
    obtain ⟨_, _, h⟩ := Option.map_eq_some_iff.mp h
    cases h
  | object members =>
    obtain ⟨_, _, h⟩ := Option.map_eq_some_iff.mp h
    cases h
  | _ => cases h

/-- An optional field with a value in normal form holds any such value but null, which stands for
    none. -/
theorem codec_payload : Codec (optionalField normal?) (fun x => x)
    fun x => ∀ v ∈ x, normal? v = some v ∧ v ≠ .null where
  valid := by
    rintro x _ hx v rfl
    obtain ⟨j, hj, hne⟩ := read_of_optionalField hx
    exact ⟨normal?_idempotent j hj, fun hv => hne (eq_null_of_normal? (hv ▸ hj))⟩
  reads := by
    intro x hx
    cases x with
    | none => rfl
    | some v => exact asOptional_of_ne_null (hx v rfl).2 (hx v rfl).1

end HotRename.Json
