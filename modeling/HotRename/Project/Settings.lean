import HotRename.Rename.Config
import HotRename.Store.Basic
import HotRename.Toml.Reader

/-!
# Settings files

A settings file is a TOML document whose keys are the names of the settings. Keys that name no
setting are passed over, and a missing file gives the defaults.
-/

namespace HotRename

/-- Why a settings file could not be used. -/
inductive ConfigError where
  | unreadable (fault : IoFault)
  | malformed
  deriving DecidableEq, Repr

/-- The wordings of the error and of those that led to it. What is wrong with a malformed text is
    not said. -/
def ConfigError.chain : ConfigError → List String
  | unreadable fault => [s!"cannot read config: {fault.message}", fault.message]
  | malformed => []

namespace Config

/-- A natural number of a document. -/
def natOf? : Toml.Node → Option Nat
  | .integer n => if 0 ≤ n then some n.toNat else none
  | _ => none

/-- A truth value of a document. -/
def boolOf? : Toml.Node → Option Bool
  | .boolean b => some b
  | _ => none

/-- A text of a document. -/
def textOf? : Toml.Node → Option String
  | .text s => some s
  | _ => none

/-- A list of texts of a document. -/
def textsOf? : Toml.Node → Option (List String)
  | .array items => items.mapM textOf?
  | _ => none

/-- The setting under a key, or its default where the key is missing. -/
def setting (entries : Toml.Entries) (key : String) (default : α) (f : Toml.Node → Option α) :
    Option α :=
  match entries.lookup key with
  | none => some default
  | some node => f node

/-- The settings that a document gives. -/
def ofToml? (entries : Toml.Entries) : Option Config := do
  -- A value of the wrong kind makes the whole document unusable; no default takes its place.
  let default : Config := {}
  return {
    maxEditsPerFile := ← setting entries "max_edits_per_file" default.maxEditsPerFile natOf?
    deepValidation := ← setting entries "deep_validation" default.deepValidation boolOf?
    extraReservedWords := ← setting entries "extra_reserved_words" [] textsOf?
    verifySyntax := ← setting entries "verify_syntax" default.verifySyntax boolOf?
    checkStrayOccurrences :=
      ← setting entries "check_stray_occurrences" default.checkStrayOccurrences boolOf? }

/-- Reads the text of a settings file. -/
def parse (text : String) : Except ConfigError Config :=
  match (Toml.parse text).bind ofToml? with
  | some config => .ok config
  | none => .error .malformed

/-- The settings that the result of reading a settings file gives. -/
def load : Except IoFault String → Except ConfigError Config
  | .ok text => parse text
  | .error .noSuchFile => .ok {}
  | .error fault => .error (.unreadable fault)

end Config
end HotRename
