import HotRename.Path.Basic

/-!
# What the command line accepts

Each command has options and positional arguments. Options with a value are given once or several
times, flags once. The options of every command may stand before the command or after it.
-/

namespace HotRename.CommandLine

/-- What is wrong with the arguments, or what they ask for instead of a command. -/
inductive UsageError where
  | missingRequiredArgument
  | unknownArgument
  | invalidSubcommand
  | missingSubcommand
  | invalidValue
  | valueValidation
  | argumentConflict
  | tooManyValues
  | displayHelp
  | displayVersion
  | displayHelpOnMissingArgument
  deriving DecidableEq, Repr

/-- The form of a value. -/
inductive ValueForm where
  | text
  | path
  | offset
  deriving DecidableEq, Repr

/-- What an option does. -/
inductive Role where
  /-- It is given at most once and has no value. -/
  | flag
  /-- It is given at most once and has a value. -/
  | single (form : ValueForm)
  /-- It may be given several times, each time with a value. -/
  | repeated (form : ValueForm)
  | help
  | version
  deriving DecidableEq, Repr

/-- An option. -/
structure OptionSpec where
  long : String
  short : Option Char
  role : Role
  deriving DecidableEq, Repr

/-- A positional argument; the last one may have several values. -/
structure PositionalSpec where
  name : String
  form : ValueForm
  many : Bool
  deriving DecidableEq, Repr

/-- The options and positional arguments of a command, all of the latter being required. -/
structure Spec where
  options : List OptionSpec
  positionals : List PositionalSpec
  /-- Names of options that have to be given. -/
  required : List String
  deriving Repr

/-- The option that asks for help. -/
def helpOption : OptionSpec := ⟨"help", some 'h', .help⟩

/-- The options of every command. -/
def globalOptions : List OptionSpec :=
  [⟨"manifest", some 'm', .single .path⟩, ⟨"root", some 'r', .single .path⟩,
    ⟨"config", some 'c', .single .path⟩, ⟨"verbose", some 'v', .flag⟩]

/-- What stands before the command. -/
def topLevel : Spec where
  options := globalOptions ++ [helpOption, ⟨"version", some 'V', .version⟩]
  positionals := []
  required := []

/-- A command with options and positional arguments of its own. -/
def command (options : List OptionSpec) (positionals : List PositionalSpec)
    (required : List String) : Spec where
  options := options ++ globalOptions ++ [helpOption]
  positionals
  required

/-- The symbol and the new name. -/
def renamePositionals : List PositionalSpec :=
  [⟨"symbol", .text, false⟩, ⟨"new-name", .text, false⟩]

/-- The option that keeps files from being written. -/
def dryRunOption : OptionSpec := ⟨"dry-run", none, .flag⟩

/-- The description of the command with the given name. -/
def specOf? : String → Option Spec
  | "plan" | "safety" | "impact" => some (command [] renamePositionals [])
  | "apply" => some (command [dryRunOption] renamePositionals [])
  | "batch" =>
    some (command
      [⟨"rename", none, .repeated .text⟩, ⟨"apply", none, .flag⟩, dryRunOption] [] ["rename"])
  | "cascade" => some (command [] [⟨"symbols", .text, true⟩] [])
  | "verify" => some (command [] (renamePositionals ++ [⟨"files", .path, true⟩]) [])
  | "locate" => some (command [] [⟨"file", .path, false⟩, ⟨"offset", .offset, false⟩] [])
  | _ => none

/-! ## Values -/

/-- The value of a run of decimal digits below 2^64, a plus sign before it allowed. -/
def offset? (s : String) : Option Nat :=
  let ds := match s.toList with
    | '+' :: ds => ds
    | ds => ds
  -- The value is of no meaning unless all characters are digits, which is checked below.
  let n := ds.foldl (fun n d => 10 * n + (d.toNat - '0'.toNat)) 0
  if !ds.isEmpty && ds.all Char.isDigit && n < 18446744073709551616 then some n else none

/-- Refuses a value that does not have its form. -/
def checkValue : ValueForm → String → Except UsageError Unit
  | .text, _ => .ok ()
  | .path, s => if s = "" then .error .invalidValue else .ok ()
  | .offset, s => if (offset? s).isSome then .ok () else .error .valueValidation

/-- Refuses values of which one does not have its form. -/
def checkValues (form : ValueForm) : List String → Except UsageError Unit
  | [] => .ok ()
  | v :: vs => do
    checkValue form v
    checkValues form vs

end HotRename.CommandLine
