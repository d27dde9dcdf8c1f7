import HotRename.Collaborator.Answer
import HotRename.Symbol.Id
import HotRename.Symbol.Occurrence

/-!
# Syntax trees

A node covers a span of its file, both ends included, and may name a symbol. The symbol at an
offset is that of the first node in left-to-right post-order that names one and covers the offset
together with all nodes around it.
-/

namespace HotRename

/-- A node of a syntax tree. -/
inductive SyntaxNode where
  | node (start stop : Nat) (children : List SyntaxNode) (symbol : Option SymbolId)
  deriving Repr, Inhabited

namespace SyntaxNode

/-- The first byte of the node. -/
def start : SyntaxNode → Nat
  | node start _ _ _ => start

/-- The byte behind the node. -/
def stop : SyntaxNode → Nat
  | node _ stop _ _ => stop

/-- The nodes inside. -/
def children : SyntaxNode → List SyntaxNode
  | node _ _ children _ => children

/-- The symbol that the node names. -/
def symbol : SyntaxNode → Option SymbolId
  | node _ _ _ symbol => symbol

/-- A node without children and symbol that covers the start of its file only. -/
def blank : SyntaxNode :=
  node 0 0 [] none

/-- The node covers the offset; the offset right behind it counts. -/
def contains (n : SyntaxNode) (offset : Nat) : Bool :=
  n.start ≤ offset && offset ≤ n.stop

mutual

/-- The symbol of the innermost node that covers the offset and names one. -/
def symbolAt (offset : Nat) : SyntaxNode → Option SymbolId
  | node start stop children symbol =>
    -- The nodes inside come first, so the innermost symbol wins. What lies outside is not searched.
    if start ≤ offset ∧ offset ≤ stop then (symbolIn offset children).or symbol else none

/-- The symbol at the offset in the first of the nodes that has one there. -/
def symbolIn (offset : Nat) : List SyntaxNode → Option SymbolId
  | [] => none
  | n :: ns => (symbolAt offset n).or (symbolIn offset ns)

end

mutual

/-- Writes a syntax tree. -/
def toJson : SyntaxNode → Json
  | node start stop children symbol =>
    .record
      ([("start", .nat start), ("end", .nat stop), ("children", .array (toJsonList children))] ++
        Json.optional "symbol_id" SymbolId.toJson symbol)

/-- Writes syntax trees. -/
def toJsonList : List SyntaxNode → List Json
  | [] => []
  | n :: ns => toJson n :: toJsonList ns

end

/-- Reads a syntax tree that is at most `height` nodes high. -/
def ofJsonWithin : (height : Nat) → Json → Option SyntaxNode
  | 0, _ => none
  | height + 1, j =>
    match j.fields ["start", "end", "children", "symbol_id"] with
    | some [start, stop, children, symbol] => do
      return node
        (← Json.required Json.asNat start)
        (← Json.required Json.asNat stop)
        (← Json.defaulted [] (Json.asList (ofJsonWithin height)) children)
        (← Json.optionalField SymbolId.ofJson? symbol)
    | _ => none

/-- Reads a syntax tree. -/
def ofJson? (j : Json) : Option SyntaxNode :=
  -- A tree is no higher than the value it is read from is deep.
  ofJsonWithin j.depth j

end SyntaxNode

/-- A parser of the project's files. -/
structure Parser where
  parse : Path → Answer SyntaxNode

/-- The parser that cannot parse. -/
def Parser.unavailable : Parser :=
  ⟨fun _ => .error (.unsupported .parse)⟩

end HotRename
