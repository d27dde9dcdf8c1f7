import HotRename.Command.Parsed

/-!
# Invocations

An invocation is a command with its arguments and the files that it works with. The options of
every command are read before the command and after it, and those after it win.
-/

namespace HotRename.CommandLine

/-- A command with its arguments. -/
inductive Command where
  | plan (symbol newName : String)
  | apply (symbol newName : String) (dryRun : Bool)
  | batch (pairs : List String) (writing dryRun : Bool)
  | cascade (symbols : List String)
  | safety (symbol newName : String)
  | impact (symbol newName : String)
  | verify (symbol newName : String) (files : List Path)
  | locate (file : Path) (offset : Nat)
  deriving DecidableEq, Repr

/-- A command and the files it works with. -/
structure Invocation where
  manifest : Path
  root : Path
  config : Path
  verbose : Bool
  command : Command
  deriving DecidableEq, Repr

/-- The command that the arguments of the given name stand for. -/
def commandOf (name : String) (p : Parsed) : Command :=
  -- Required arguments were checked for before, so no default is ever used here.
  let text := fun key => (p.value? key).getD ""
  let symbol := text "symbol"
  let newName := text "new-name"
  match name with
  | "apply" => .apply symbol newName (p.has "dry-run")
  | "batch" => .batch (p.valuesOf "rename") (p.has "apply") (p.has "dry-run")
  | "cascade" => .cascade (p.valuesOf "symbols")
  | "safety" => .safety symbol newName
  | "impact" => .impact symbol newName
  | "verify" => .verify symbol newName ((p.valuesOf "files").map Path.mk)
  | "locate" => .locate ⟨text "file"⟩ ((offset? (text "offset")).getD 0)
  | _ => .plan symbol newName

/-- The word names a command. -/
def isCommand (word : String) : Bool :=
  (specOf? word).isSome || word = "help"

/-- The word is read as options, or ends them. -/
def isOption (word : String) : Bool :=
  match word.toList with
  | '-' :: _ :: _ => true
  | _ => false

/-- What a request for help with the given words ends in. -/
def helpAbout : List String → UsageError
  | [] => .displayHelp
  | [word] => if isCommand word then .displayHelp else .invalidSubcommand
  | _ => .invalidSubcommand

/-- Splits the arguments at the command: what stands before it, its name, and what follows. -/
def splitCommand : Parsed → List String → Except UsageError (Parsed × Option (String × List String))
  | p, [] => .ok (p, none)
  | p, word :: words =>
    -- After `--` no command can follow any more.
    if p.trailing then .error (if isCommand word then .unknownArgument else .invalidSubcommand)
    -- A word that an option awaits as its value is not read as a command.
    else if p.awaitsValue || isOption word then do splitCommand (← p.take topLevel word) words
    else if word = "help" then .error (helpAbout words)
    else if isCommand word then .ok (p, some (word, words))
    else .error .invalidSubcommand

/-- Reads the arguments of the command line. -/
def parse (args : List String) : Except UsageError Invocation := do
  let (before, found) ← splitCommand .start args
  match found with
  | none =>
    let before ← before.settle
    if before.settled.isEmpty then throw .displayHelpOnMissingArgument
    else throw .missingSubcommand
  | some (name, words) =>
    let spec := (specOf? name).getD topLevel
    -- What follows the command is checked first, then what was left pending before it.
    let after ← (← Parsed.takeAll spec .start words).finish spec
    let before ← before.settle
    let path := fun key default =>
      Path.mk (((after.value? key).or (before.value? key)).getD default)
    return {
      manifest := path "manifest" "hrr-manifest.json"
      root := path "root" "."
      config := path "config" "hrr.toml"
      verbose := before.has "verbose" || after.has "verbose"
      command := commandOf name after }

end HotRename.CommandLine
