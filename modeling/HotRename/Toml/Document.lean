/-!
# TOML documents

A document is a tree of tables. A table is defined by a header, implied by the header of a table
inside it, made by a dotted key, or written in line. These differ in what may still be added to
them: a table written in line is finished, a dotted key may only add to tables that no header
defines, and a header may define an implied table, but none that was defined before.
-/

namespace HotRename.Toml

/-- How a table came to be. -/
inductive Origin where
  | header
  | implied
  | dotted
  | inline
  deriving DecidableEq, Repr

/-- A value of a document. Floating-point numbers and dates are known by their kind only. -/
inductive Node where
  | text (value : String)
  | integer (value : Int)
  | float
  | boolean (value : Bool)
  | datetime
  | array (items : List Node)
  | table (origin : Origin) (entries : List (String × Node))
  /-- Tables that share a header with doubled brackets. -/
  | rows (rows : List (List (String × Node)))
  deriving Repr, Inhabited

/-- The entries of a table. -/
abbrev Entries := List (String × Node)

namespace Entries

/-- The entries with another value under a key that is there. -/
def replace (entries : Entries) (key : String) (node : Node) : Entries :=
  entries.map fun entry => if entry.1 = key then (key, node) else entry

/-- The entries with a value under a new key. -/
def add (entries : Entries) (key : String) (node : Node) : Entries :=
  entries ++ [(key, node)]

/-- Changes the table that a path leads to, and makes the tables on the way that are not there.
    `byKey` tells the path of a dotted key from that of a header. The change is told how the
    table came to be, which for the start of the path is `origin`. -/
def update (byKey : Bool) : (path : List String) → (origin : Origin) → Entries →
    (change : Origin → Entries → Option Entries) → Option Entries
  | [], origin, entries, change => change origin entries
  | key :: path, _, entries, change =>
    match entries.lookup key with
    | none => do
      -- A table made on the way is open to further keys or to a later header, after what made it.
      let origin := if byKey then .dotted else .implied
      let inside ← update byKey path origin [] change
      return entries.add key (.table origin inside)
    | some (.table origin inside) =>
      -- A table written in line is closed, and a dotted key may not reach into a table with a
      -- header.
      if origin = .inline ∨ (byKey ∧ origin = .header) then none
      else do
        let inside ← update byKey path origin inside change
        return entries.replace key (.table origin inside)
    | some (.rows rows) => do
      -- Below a repeated header, paths go on in the table that was added last.
      let last ← update byKey path .header (← rows.getLast?) change
      return entries.replace key (.rows (rows.dropLast ++ [last]))
    | some _ => none

/-- Adds a value under a dotted key to a table. The last key must be new, and with more than one
    key the table it goes to must have been made by dotted keys. -/
def insert (entries : Entries) (origin : Origin) (path : List String) (key : String)
    (node : Node) : Option Entries :=
  update true path origin entries fun origin entries =>
    -- A single key never goes to a table that dotted keys made, and a dotted key goes to no other.
    if (origin == .dotted) == path.isEmpty || (entries.lookup key).isSome then none
    else some (entries.add key node)

/-- Defines a table by a header. -/
def define (entries : Entries) (path : List String) (key : String) : Option Entries :=
  update false path .header entries fun _ entries =>
    match entries.lookup key with
    | none => some (entries.add key (.table .header []))
    | some (.table .implied inside) => some (entries.replace key (.table .header inside))
    | some _ => none

/-- Adds a table to those that share a header. -/
def defineRow (entries : Entries) (path : List String) (key : String) : Option Entries :=
  update false path .header entries fun _ entries =>
    match entries.lookup key with
    | none => some (entries.add key (.rows [[]]))
    | some (.rows rows) => some (entries.replace key (.rows (rows ++ [[]])))
    | some _ => none

/-- Adds a value under a dotted key to the table that a header leads to. -/
def insertAt (entries : Entries) (header path : List String) (key : String) (node : Node) :
    Option Entries :=
  update false header .header entries fun _ entries => entries.insert .header path key node

end Entries
end HotRename.Toml
