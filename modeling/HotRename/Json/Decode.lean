import HotRename.Json.Basic

/-!
# Decoding JSON values

A record is written as an object of its fields, or as an array of them in their order. Fields that
the record does not have are passed over, a field given twice is refused, and a field left out
takes its default if it has one. An enumeration is written as the name of its case, or as an object
with that name as its only member and null as its value.
-/

namespace HotRename.Json

/-- A text. -/
def asText : Json → Option String
  | .string s => some s
  | _ => none

/-- A natural number below 2^64, written in digits only. -/
def asNat : Json → Option Nat
  | .number (.natural n) => if n < 18446744073709551616 then some n else none
  | _ => none

/-- A truth value. -/
def asBool : Json → Option Bool
  | .bool b => some b
  | _ => none

/-- A list, all of whose items can be decoded. -/
def asList (f : Json → Option α) : Json → Option (List α)
  | .array items => items.mapM f
  | _ => none

/-- A value, or null for none. -/
def asOptional (f : Json → Option α) : Json → Option (Option α)
  | .null => some none
  | j => (f j).map some

/-- The name of a case of an enumeration. -/
def asCase : Json → Option String
  | .string s => some s
  | .object [(some s, .null)] => some s
  | _ => none

/-- The name of a case of an enumeration, written in a value that was set aside before it was known
    to be one: there an empty object does as well as null. -/
def asSetAsideCase : Json → Option String
  | .object [(some s, .object [])] => some s
  | j => j.asCase

/-- The members of an object whose names are all texts. -/
def asMembers : Json → Option (List (String × Json))
  | .object members => members.mapM fun m => m.1.map fun k => (k, m.2)
  | _ => none

/-- The members of an object with their values decoded. -/
def asEntries (f : Json → Option α) (j : Json) : Option (List (String × α)) := do
  (← j.asMembers).mapM fun m => (f m.2).map fun a => (m.1, a)

/-- The fields of a record, in the order of their names; `none` for one that is left out. -/
def fields (names : List String) : Json → Option (List (Option Json))
  -- Fields at the end of an array may be left out, as in an object.
  | .array items =>
    if items.length ≤ names.length then some ((List.range names.length).map fun i => items[i]?)
    else none
  | j => do
    let members ← j.asMembers
    -- Only the fields of the record are checked for repetitions.
    if names.all fun name => (members.filter fun m => m.1 = name).length ≤ 1 then
      some (names.map fun name => members.lookup name)
    else none

/-- Of two members of an object the first is given before the second. -/
def isGivenBefore (first second : String) (j : Json) : Bool :=
  match j with
  | .object members =>
    (members.find? fun m => m.1 = some first ∨ m.1 = some second).any fun m => m.1 = some first
  | _ => false

/-- A field that has to be given. -/
def required (f : Json → Option α) : Option Json → Option α
  | none => none
  | some j => f j

/-- A field that may be left out or null. -/
def optionalField (f : Json → Option α) : Option Json → Option (Option α)
  | none => some none
  | some j => asOptional f j

/-- A field that may be left out. -/
def defaulted (value : α) (f : Json → Option α) : Option Json → Option α
  | none => some value
  | some j => f j

/-- A table keyed by texts, in ascending order; of a repeated key the last value counts. -/
def textTable (entries : List (String × α)) : List (String × α) :=
  let sorted := (entries.map Prod.fst).mergeSort fun a b => (compare a b).isLE
  sorted.eraseDups.filterMap fun key =>
    -- The search goes from the end, where the last value is.
    (entries.reverse.find? fun entry => entry.1 = key).map fun entry => (key, entry.2)

mutual

/-- The value with the members of every object listed once each, by name. A value that is void in
    some part has no such form. -/
def normal? : Json → Option Json
  | .null => some .null
  | .bool b => some (.bool b)
  | .number n => some (.number n)
  | .string s => some (.string s)
  | .array items => (normalItems? items).map .array
  -- Repeated members are gone in this form, so that it can be written back.
  | .object members => (normalMembers? members).map fun ms => record (textTable ms)
  | .void => none

/-- The items of an array in that form. -/
def normalItems? : List Json → Option (List Json)
  | [] => some []
  | j :: js => do return (← normal? j) :: (← normalItems? js)

/-- The members of an object in that form. -/
def normalMembers? : List (Option String × Json) → Option (List (String × Json))
  | [] => some []
  | (k, j) :: ms => do return (← k, ← normal? j) :: (← normalMembers? ms)

end

end HotRename.Json
