import HotRename.Symbol.Id

/-!
# Symbol kinds

The kind of a symbol is read from the second segment of its identifier, without regard to the case
of ASCII letters. It decides what a rename means for a running program.
-/

namespace HotRename

/-- Where a variable lives. -/
inductive VariableScope where
  | owned
  | global
  deriving DecidableEq, Repr

/-- The kind of a symbol. -/
inductive SymbolKind where
  | script
  | var (scope : VariableScope)
  | event
  | macroConstant
  | enumeration
  /-- A kind segment that is not known, or the empty text where there is none. -/
  | unknown (segment : String)
  deriving DecidableEq, Repr

namespace VariableScope

/-- The name of the case in documents. -/
def name : VariableScope → String
  | owned => "instance"
  | global => "global"

/-- The case with the given name. -/
def ofName? : String → Option VariableScope
  | "instance" => some owned
  | "global" => some global
  | _ => none

end VariableScope

namespace SymbolKind

/-- A variable belongs to an instance when an owner stands between its kind and its name, unless
    that owner is `global`. -/
def variableScope (qualifiers : List String) : VariableScope :=
  match qualifiers with
  | owner :: _ => if owner.toLower = "global" then .global else .owned
  | [] => .global

/-- The kind that a kind segment and the segments between it and the name stand for. -/
def ofSegment (segment : String) (qualifiers : List String) : SymbolKind :=
  match segment.toLower with
  | "script" | "scripts" => .script
  | "var" | "variable" | "variables" => .var (variableScope qualifiers)
  | "event" | "events" => .event
  | "macro" | "macros" => .macroConstant
  | "enum" | "enums" => .enumeration
  | _ => .unknown segment

/-- A rename of such a symbol reaches every file of the project. -/
def isProjectWide : SymbolKind → Bool
  | macroConstant | enumeration | var .global => true
  | _ => false

/-- Uses of such a symbol are resolved when they are compiled. -/
def isCompileTime : SymbolKind → Bool
  | macroConstant | enumeration => true
  | _ => false

/-- The kind in words. -/
def description : SymbolKind → String
  | script => "script"
  | var .owned => "instance variable"
  | var .global => "global variable"
  | event => "event"
  | macroConstant => "macro"
  | enumeration => "enum"
  | unknown segment => if segment = "" then "unknown" else s!"unknown ({segment})"

/-- The name of the case in documents. -/
def tag : SymbolKind → String
  | script => "script"
  | var _ => "variable"
  | event => "event"
  | macroConstant => "macro"
  | enumeration => "enum"
  | unknown _ => "unknown"

/-- What documents say about a kind beside its name. -/
def detail : SymbolKind → Option Json
  | var scope => some (.text scope.name)
  | unknown segment => some (.text segment)
  | _ => none

/-- A kind is written as its name and, where it has one, its detail. -/
def toJson (kind : SymbolKind) : Json :=
  .record (("kind", .text kind.tag) :: Json.optional "detail" id kind.detail)

/-- A kind without detail: the detail may be left out or null. -/
def plain (kind : SymbolKind) : Option Json → Option SymbolKind
  | none | some .null => some kind
  | some _ => none

/-- The kind with the given name and detail. `asScope` reads the name of a scope. -/
def ofTag? (asScope : Json → Option String) (tag : String) (detail : Option Json) :
    Option SymbolKind :=
  match tag with
  | "script" => plain .script detail
  | "event" => plain .event detail
  | "macro" => plain .macroConstant detail
  | "enum" => plain .enumeration detail
  | "variable" => do return .var (← VariableScope.ofName? (← asScope (← detail)))
  | "unknown" => do return .unknown (← (← detail).asText)
  | _ => none

/-- Reads a kind written as an object, or as an array of its name and its detail. What a detail
    means is known once the name is: one that comes before the name is set aside. -/
def ofJson? (j : Json) : Option SymbolKind :=
  match j with
  -- In an array the name comes first, so no detail is set aside.
  | .array [tag, detail] => do ofTag? Json.asCase (← tag.asText) (some detail)
  | .array _ => none
  | j =>
    match j.fields ["kind", "detail"] with
    | some [some tag, detail] => do
      let asScope := if j.isGivenBefore "detail" "kind" then Json.asSetAsideCase else Json.asCase
      ofTag? asScope (← tag.asCase) detail
    | _ => none

end SymbolKind

/-- The kind of the symbol with the given identifier. -/
def SymbolId.kind (id : SymbolId) : SymbolKind :=
  match id.kindSegment with
  | none => .unknown ""
  | some segment => .ofSegment segment id.qualifiers

end HotRename
