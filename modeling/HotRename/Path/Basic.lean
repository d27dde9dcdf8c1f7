/-!
# Paths

A path is kept as it was spelled and compared by its components. Repeated and trailing separators
and `.` components are not components, except for a `.` that the path starts with; `..` is never
folded. So `a//b`, `a/./b` and `a/b/` are the same path as `a/b`, and `./a` is not the same as `a`.

Paths that differ only in spelling count once in a collection. Two rules say which spelling stands
for the path: a set of paths keeps the one met last, a table keyed by paths keeps the one met first,
together with the value stored last. Both are listed in the order of paths.
-/

namespace HotRename

/-- A path as it was spelled. -/
structure Path where
  text : String
  deriving DecidableEq, Repr, Inhabited

/-- One step of a path. -/
inductive Component where
  | root
  | here
  | up
  | name (text : String)
  deriving DecidableEq, Repr

namespace Component

/-- Where a kind of component stands in the order of paths. -/
def rank : Component → Nat
  | root => 0
  | here => 1
  | up => 2
  | name _ => 3

/-- Components are ordered by kind, and names by their bytes. -/
def cmp (a b : Component) : Ordering :=
  match a, b with
  | name s, name t => compare s t
  | _, _ => compare a.rank b.rank

end Component

namespace Path

/-- The pieces between the separators, empty ones included. -/
def pieces (p : Path) : List String :=
  (p.text.toList.splitOn '/').map String.ofList

/-- The path starts at the root of the file system. -/
def isAbsolute (p : Path) : Bool :=
  p.text.toList.head? = some '/'

/-- The component a piece stands for when the path does not start with it. -/
def component? (piece : String) : Option Component :=
  if piece = "" ∨ piece = "." then none
  else if piece = ".." then some .up
  else some (.name piece)

/-- The components of a path. -/
def components (p : Path) : List Component :=
  if p.isAbsolute then .root :: p.pieces.filterMap component?
  else
    match p.pieces with
    -- Only a `.` at the very start counts as a component.
    | "." :: rest => .here :: rest.filterMap component?
    | pieces => pieces.filterMap component?

/-- Two spellings of one path. -/
def same (p q : Path) : Bool :=
  p.components = q.components

/-- The order of paths: component by component, a path before its extensions. -/
def cmp (p q : Path) : Ordering :=
  -- Separators take no part in this: `a/b` comes before `a-b`, though `-` is below `/`.
  List.compareLex Component.cmp p.components q.components

/-- `p` comes before `q` or is the same path. -/
def le (p q : Path) : Bool :=
  (p.cmp q).isLE

/-! ## Joining a path to a root -/

/-- The path `rest` seen from `base`. An absolute `rest` replaces the base. -/
def join (base rest : Path) : Path :=
  if rest.isAbsolute then rest
  else if base.text = "" ∨ base.text.toList.getLast? = some '/' then ⟨base.text ++ rest.text⟩
  else ⟨base.text ++ "/" ++ rest.text⟩

/-- The piece names no component. -/
def isFiller (piece : String) : Bool :=
  piece = "" || piece = "."

/-- The pieces left over after the first `n` that name a component, and any filler between. -/
def dropComponents : Nat → List String → List String
  | 0, pieces => pieces
  | _ + 1, [] => []
  | n + 1, piece :: pieces =>
    if isFiller piece then dropComponents (n + 1) pieces else dropComponents n pieces

/-- The pieces without filler at either end. -/
def trimFiller (pieces : List String) : List String :=
  ((pieces.dropWhile isFiller).reverse.dropWhile isFiller).reverse

/-- What is left of the absolute path `p` below `base`, spelled as in `p` but without separators
    and `.` at either end. -/
def below? (base p : Path) : Option Path :=
  -- The root at the start of `base` is not written as a piece, so one component less is dropped.
  if base.isAbsolute && base.components.isPrefixOf p.components then
    some ⟨"/".intercalate (trimFiller (dropComponents (base.components.length - 1) p.pieces))⟩
  else none

/-! ## Collections of paths -/

/-- Every path once, under the spelling met first. -/
def firstSpellings : List Path → List Path
  | [] => []
  -- The head is the first spelling, so the others of this path are dropped behind it.
  | p :: ps => p :: (firstSpellings ps).filter fun q => !p.same q

/-- Every path once, under the spelling met last. -/
def lastSpellings : List Path → List Path
  | [] => []
  | p :: ps =>
    let rest := lastSpellings ps
    if rest.any p.same then rest else p :: rest

/-- Paths in ascending order. -/
def sort (ps : List Path) : List Path :=
  ps.mergeSort le

/-- The set of the given paths: each once, under its last spelling, in ascending order. -/
def set (ps : List Path) : List Path :=
  sort (lastSpellings ps)

/-- The keys of a table filled in the given order: each once, under its first spelling, in
    ascending order. -/
def keys (ps : List Path) : List Path :=
  sort (firstSpellings ps)

/-- The table that results from storing the entries one after the other. -/
def table (entries : List (Path × α)) : List (Path × α) :=
  (keys (entries.map Prod.fst)).filterMap fun p =>
    -- The value is the one stored last, although the key is spelled as it was first.
    (entries.reverse.find? fun entry => p.same entry.1).map fun entry => (p, entry.2)

/-- The value stored under a path, whatever its spelling. -/
def find? (p : Path) (entries : List (Path × α)) : Option α :=
  (entries.find? fun entry => p.same entry.1).map Prod.snd

end Path
end HotRename
