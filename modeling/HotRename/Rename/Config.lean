import HotRename.Json.Decode

/-!
# Configuration of the engine

Every setting has a default, so that a document may give any of them or none.
-/

namespace HotRename

/-- The settings of the engine. -/
structure Config where
  /-- A file that receives more edits than this is warned about. -/
  maxEditsPerFile : Nat := 50
  /-- Ask the analyzer whether an edit may be applied. -/
  deepValidation : Bool := true
  /-- Words that no symbol may be called by. -/
  extraReservedWords : List String := []
  /-- Parse edited files again when they are verified. -/
  verifySyntax : Bool := true
  /-- Look for the new name outside the edited files when they are verified. -/
  checkStrayOccurrences : Bool := true
  deriving DecidableEq, Repr

namespace Config

/-- The names of the settings in documents, in their order. -/
def fieldNames : List String :=
  ["max_edits_per_file", "deep_validation", "extra_reserved_words", "verify_syntax",
    "check_stray_occurrences"]

/-- With further reserved words. -/
def withReservedWords (c : Config) (words : List String) : Config :=
  { c with extraReservedWords := c.extraReservedWords ++ words }

/-- Writes a configuration. -/
def toJson (c : Config) : Json :=
  .record
    [("max_edits_per_file", .nat c.maxEditsPerFile), ("deep_validation", .bool c.deepValidation),
      ("extra_reserved_words", Json.list .text c.extraReservedWords),
      ("verify_syntax", .bool c.verifySyntax),
      ("check_stray_occurrences", .bool c.checkStrayOccurrences)]

/-- Reads a configuration; settings left out take their defaults. -/
def ofJson? (j : Json) : Option Config :=
  match j.fields fieldNames with
  | some [maxEdits, deep, words, verify, stray] => do
    let default : Config := {}
    return {
      maxEditsPerFile := ← Json.defaulted default.maxEditsPerFile Json.asNat maxEdits
      deepValidation := ← Json.defaulted default.deepValidation Json.asBool deep
      extraReservedWords := ← Json.defaulted [] (Json.asList Json.asText) words
      verifySyntax := ← Json.defaulted default.verifySyntax Json.asBool verify
      checkStrayOccurrences := ← Json.defaulted default.checkStrayOccurrences Json.asBool stray }
  | _ => none

end Config
end HotRename
