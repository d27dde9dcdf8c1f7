import HotRename.Decimal.Basic

/-!
# JSON values

A JSON value as its text says it: members of an object keep their order and may repeat. Some texts
are grammatical and yet stand for nothing: a string with half of a surrogate pair, a number out of
range, a container inside too many others. Such a text has the value `void`, and an object that has
such a string as a name has the name `none`.
-/

namespace HotRename

/-- A number: an integer of 64 bits, or else a binary64 value, given by its shortest decimal. -/
inductive JsonNumber where
  | natural (value : Nat)
  /-- The negative of a number that is not zero. -/
  | negative (magnitude : Nat)
  | real (value : Decimal)
  deriving DecidableEq, Repr

/-- A JSON value. -/
inductive Json where
  | null
  | bool (value : Bool)
  | number (value : JsonNumber)
  | string (text : String)
  | array (items : List Json)
  | object (members : List (Option String × Json))
  /-- What is written by the rules but stands for nothing. -/
  | void
  deriving Repr, Inhabited

namespace Json

mutual

/-- Number of values that are nested in one another, the value itself included. -/
def depth : Json → Nat
  | .array items => depthItems items + 1
  | .object members => depthMembers members + 1
  | _ => 1

/-- The greatest depth of the items of an array. -/
def depthItems : List Json → Nat
  | [] => 0
  | j :: js => max (depth j) (depthItems js)

/-- The greatest depth of the members of an object. -/
def depthMembers : List (Option String × Json) → Nat
  | [] => 0
  | (_, j) :: ms => max (depth j) (depthMembers ms)

end

/-- A string value. -/
def text (s : String) : Json :=
  .string s

/-- A natural number. -/
def nat (n : Nat) : Json :=
  .number (.natural n)

/-- An array with one item for each element of a list. -/
def list (f : α → Json) (xs : List α) : Json :=
  .array (xs.map f)

/-- A value, or null. -/
def orNull (f : α → Json) : Option α → Json
  | none => .null
  | some a => f a

/-- An object with the given members. -/
def record (members : List (String × Json)) : Json :=
  .object (members.map fun m => (some m.1, m.2))

/-- A member that is left out when there is no value. -/
def optional (name : String) (f : α → Json) : Option α → List (String × Json)
  | none => []
  | some a => [(name, f a)]

end Json
end HotRename
