import HotRename.Json.Basic

/-!
# Writing JSON

`compact` writes a value on one line without blanks. `pretty` writes one member or item to a line,
two blanks deeper than its container, and lists the members of every object by name.
-/

namespace HotRename.Json

/-- The digits of a control character in a `\u` escape. -/
def hexDigit (n : Nat) : Char :=
  (Nat.digitChar n)

/-- A character inside a string literal. -/
def escapeChar (c : Char) : List Char :=
  if c = '"' then ['\\', '"']
  else if c = '\\' then ['\\', '\\']
  else if c = '\n' then ['\\', 'n']
  else if c = '\r' then ['\\', 'r']
  else if c = '\t' then ['\\', 't']
  else if c.toNat = 0x08 then ['\\', 'b']
  else if c.toNat = 0x0C then ['\\', 'f']
  -- All other control characters have a code below 0x20, so two digits are enough.
  else if c.toNat < 0x20 then
    ['\\', 'u', '0', '0', hexDigit (c.toNat / 16), hexDigit (c.toNat % 16)]
  else [c]

/-- A text as a string literal. -/
def quote (s : String) : String :=
  "\"" ++ String.ofList (s.toList.flatMap escapeChar) ++ "\""

/-- A number as it is written. -/
def numberText : JsonNumber → String
  | .natural n => toString n
  | .negative n => "-" ++ toString n
  | .real d => d.text

/-- A string of half a surrogate pair, which stands for no text. -/
def voidText : String :=
  "\"\\ud800\""

/-- The name of a member. -/
def nameText : Option String → String
  | some s => quote s
  | none => voidText

mutual

/-- A value on one line. -/
def compact : Json → String
  | .null => "null"
  | .bool b => if b then "true" else "false"
  | .number n => numberText n
  | .string s => quote s
  | .array items => "[" ++ ",".intercalate (compactItems items) ++ "]"
  | .object members => "\x7b" ++ ",".intercalate (compactMembers members) ++ "\x7d"
  | .void => voidText

/-- The items of an array, each on one line. -/
def compactItems : List Json → List String
  | [] => []
  | j :: js => compact j :: compactItems js

/-- The members of an object, each on one line. -/
def compactMembers : List (Option String × Json) → List String
  | [] => []
  | (k, j) :: ms => (nameText k ++ ":" ++ compact j) :: compactMembers ms

end

/-- A line end followed by the blanks of the given depth. -/
def lineBreak (depth : Nat) : String :=
  "\n" ++ String.ofList (List.replicate (2 * depth) ' ')

/-- The parts of a container, each on a line of its own. -/
def block (opening closing : String) (depth : Nat) (parts : List String) : String :=
  if parts.isEmpty then opening ++ closing
  else
    opening ++ lineBreak (depth + 1) ++ ("," ++ lineBreak (depth + 1)).intercalate parts ++
      lineBreak depth ++ closing

/-- Written members in ascending order of their names. -/
def byName (members : List (Option String × String)) : List (Option String × String) :=
  members.mergeSort fun a b => (compare a.1 b.1).isLE

mutual

/-- A value over several lines, from the given depth on. -/
def prettyAt (depth : Nat) : Json → String
  | .null => "null"
  | .bool b => if b then "true" else "false"
  | .number n => numberText n
  | .string s => quote s
  | .array items => block "[" "]" depth (prettyItems (depth + 1) items)
  | .object members =>
    -- The names are compared before they are quoted: with the quotes, `a b` would come before `a`.
    block "\x7b" "\x7d" depth
      ((byName (prettyMembers (depth + 1) members)).map fun m => nameText m.1 ++ ": " ++ m.2)
  | .void => voidText

/-- The items of an array at the given depth. -/
def prettyItems (depth : Nat) : List Json → List String
  | [] => []
  | j :: js => prettyAt depth j :: prettyItems depth js

/-- The members of an object at the given depth. -/
def prettyMembers (depth : Nat) : List (Option String × Json) → List (Option String × String)
  | [] => []
  | (k, j) :: ms => (k, prettyAt depth j) :: prettyMembers depth ms

end

/-- A value over several lines. -/
def pretty (j : Json) : String :=
  prettyAt 0 j

end HotRename.Json
