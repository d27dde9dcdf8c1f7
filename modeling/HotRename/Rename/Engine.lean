import HotRename.Collaborator.Asked
import HotRename.Rename.Config
import HotRename.Rename.Request
import HotRename.Text.Character

/-!
# The engine

The engine joins an analyzer, a parser and a transpiler. Its operations ask them questions and end
in a result or an error; they keep nothing from one call to the next.
-/

namespace HotRename

/-- The collaborators and settings of the rename operations. -/
structure Engine where
  analyzer : Analyzer
  parser : Parser := .unavailable
  transpiler : Transpiler := .unavailable
  config : Config := {}
  /-- The characters that words in source text are made of. -/
  words : Text.WordClass := .unicode
  /-- Why a name cannot be searched for as a word, where it is too long for that. -/
  unsearchable? : String → Option String := fun _ => none

/-- A computation that asks questions and may fail. -/
abbrev Inquiry := ExceptT RenameError Asked

namespace Inquiry

/-- Asks a question. The default stands in for a missing capability, a failure ends the inquiry. -/
def ask (q : Question) (answer : Answer α) (default : α) : Inquiry α :=
  ExceptT.mk (Asked.ask q ((Answer.orDefault default answer).mapError RenameError.collaborator))

/-- Asks a question that may have no answer because the capability is missing. -/
def askSupported (q : Question) (answer : Answer α) : Inquiry (Option α) :=
  ExceptT.mk (Asked.ask q ((Answer.supported answer).mapError RenameError.collaborator))

/-- Goes on with a result, or ends the inquiry with an error. -/
def ofExcept (f : ε → RenameError) (result : Except ε α) : Inquiry α :=
  ExceptT.mk (pure (result.mapError f))

end Inquiry

namespace Engine

/-- The symbol exists; so it does when the analyzer cannot tell. -/
def symbolExists (e : Engine) (id : SymbolId) : Inquiry Bool :=
  Inquiry.ask (.hasSymbol id) (e.analyzer.hasSymbol id) true

/-- The occurrences of a symbol; there are none when the analyzer cannot tell. -/
def occurrencesOf (e : Engine) (id : SymbolId) : Inquiry (List Occurrence) :=
  Inquiry.ask (.occurrences id) (e.analyzer.occurrences id) []

/-- The symbol at an offset of a file. When the analyzer cannot tell, the file is parsed and the
    innermost node at the offset that names a symbol decides. -/
def symbolAtPosition (e : Engine) (path : Path) (offset : Nat) : Inquiry (Option SymbolId) := do
  match ← Inquiry.askSupported (.symbolAt path offset) (e.analyzer.symbolAt path offset) with
  | some found => return found
  | none =>
    match ← Inquiry.askSupported (.parse path) (e.parser.parse path) with
    | some tree => return tree.symbolAt offset
    | none => return none

end Engine
end HotRename
