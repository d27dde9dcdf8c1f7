import HotRename.Command.Spec

/-!
# Reading arguments

Options stand anywhere: a long one as `--name value` or `--name=value`, a short one as `-n value`,
`-nvalue` or `-n=value`, and short ones without value in one word. After `--` every argument is
positional.

An option that takes a value, and the positional arguments, stay pending until the next argument
is settled; only then are their values checked. So of two mistakes the one that is met first by
this rule is reported.
-/

namespace HotRename.CommandLine

/-- Something given on the command line whose values are not settled yet. -/
structure Pending where
  name : String
  form : ValueForm
  /-- It may be settled several times. -/
  repeatable : Bool
  values : List String
  /-- The next argument is its value. -/
  awaiting : Bool
  deriving DecidableEq, Repr

/-- The arguments of one level as far as they are read. -/
structure Parsed where
  /-- What is settled, each with its values. -/
  settled : List (String × List String)
  pending : Option Pending
  /-- Number of positional arguments that are done with. -/
  position : Nat
  /-- Only positional arguments follow. -/
  trailing : Bool
  deriving Repr

namespace Parsed

/-- Nothing is read. -/
def start : Parsed :=
  { settled := [], pending := none, position := 0, trailing := false }

/-- It was settled before. -/
def has (p : Parsed) (name : String) : Bool :=
  (p.settled.lookup name).isSome

/-- All values that were settled. -/
def valuesOf (p : Parsed) (name : String) : List String :=
  (p.settled.filter fun entry => entry.1 = name).flatMap Prod.snd

/-- The value that was settled. -/
def value? (p : Parsed) (name : String) : Option String :=
  (p.valuesOf name).head?

/-- The next argument is the value of an option. -/
def awaitsValue (p : Parsed) : Bool :=
  p.pending.any Pending.awaiting

/-- Settles what is pending. -/
def settle (p : Parsed) : Except UsageError Parsed :=
  match p.pending with
  | none => .ok p
  | some q => do
    -- An option whose value was never given.
    if q.values.isEmpty then
      throw .invalidValue
    if p.has q.name && !q.repeatable then
      throw .argumentConflict
    checkValues q.form q.values
    return { p with settled := p.settled ++ [(q.name, q.values)], pending := none }

/-- Takes an option that has no value. -/
def takeFlag (p : Parsed) (o : OptionSpec) : Except UsageError Parsed := do
  let p ← p.settle
  match o.role with
  -- A request for help ends the reading at once, but mistakes before it are reported first.
  | .help => throw .displayHelp
  | .version => throw .displayVersion
  | _ =>
    if p.has o.long then
      throw .argumentConflict
    return { p with settled := p.settled ++ [(o.long, [])] }

/-- Takes an option with a value, attached to it or to follow. -/
def takeOption (p : Parsed) (o : OptionSpec) (form : ValueForm) (repeatable : Bool)
    (attached : Option String) : Except UsageError Parsed := do
  let p ← p.settle
  let pending : Pending :=
    { name := o.long, form, repeatable, values := attached.toList, awaiting := attached.isNone }
  let p := { p with pending := some pending }
  -- An attached value is complete, one that follows is not seen yet.
  if attached.isSome then p.settle else return p

/-- Takes an option, with what is attached to it. -/
def takeValued (p : Parsed) (o : OptionSpec) (attached : Option String) :
    Except UsageError Parsed :=
  match o.role with
  | .single form => p.takeOption o form false attached
  | .repeated form => p.takeOption o form true attached
  | _ => if attached.isSome then .error .tooManyValues else p.takeFlag o

/-- Takes a long option, given without its dashes. -/
def takeLong (spec : Spec) (p : Parsed) (word : List Char) : Except UsageError Parsed :=
  let name := word.takeWhile (· ≠ '=')
  -- Only the first equality sign separates; an empty value behind it is a value.
  let attached := match word.dropWhile (· ≠ '=') with
    | _ :: value => some (String.ofList value)
    | [] => none
  match spec.options.find? fun o => o.long = String.ofList name with
  | some o => p.takeValued o attached
  | none => .error .unknownArgument

/-- Takes short options in one word, given without the dash. -/
def takeShort (spec : Spec) : Parsed → List Char → Except UsageError Parsed
  | p, [] => .ok p
  | p, c :: rest =>
    match spec.options.find? fun o => o.short = some c with
    | none => .error .unknownArgument
    | some o =>
      match o.role with
      -- The rest of the word is the value, even if it looks like further options.
      | .single _ | .repeated _ =>
        let attached := match rest with
          | [] => none
          | '=' :: value => some (String.ofList value)
          | value => some (String.ofList value)
        p.takeValued o attached
      | _ => do takeShort spec (← p.takeFlag o) rest

/-- Takes a positional argument. -/
def takePositional (spec : Spec) (p : Parsed) (word : String) : Except UsageError Parsed :=
  match spec.positionals[p.position]? with
  | none => .error .unknownArgument
  | some arg =>
    match p.pending with
    | some q =>
      -- The argument that takes all remaining words goes on collecting them.
      if arg.many && q.name = arg.name then
        .ok { p with pending := some { q with values := q.values ++ [word] } }
      else do
        let p ← p.settle
        return beginArgument p arg word
    | none => .ok (beginArgument p arg word)
where
  /-- A positional argument is pending with its first value. -/
  beginArgument (p : Parsed) (arg : PositionalSpec) (word : String) : Parsed :=
    { p with
      pending := some
        { name := arg.name, form := arg.form, repeatable := arg.many, values := [word],
          awaiting := false }
      position := if arg.many then p.position else p.position + 1 }

/-- Takes the value of the option that awaits one. -/
def takeAwaited (p : Parsed) (word : String) : Parsed :=
  { p with
    pending := p.pending.map fun q => { q with values := q.values ++ [word], awaiting := false } }

/-- Takes one argument. -/
def take (spec : Spec) (p : Parsed) (word : String) : Except UsageError Parsed :=
  if p.trailing then p.takePositional spec word
  else
    match word.toList with
    -- An option is taken as one even where a value is awaited. A single dash is a value.
    | ['-', '-'] => .ok { p with trailing := true }
    | '-' :: '-' :: rest => p.takeLong spec rest
    | '-' :: c :: rest => p.takeShort spec (c :: rest)
    | _ => if p.awaitsValue then .ok (p.takeAwaited word) else p.takePositional spec word

/-- Takes arguments one after the other. -/
def takeAll (spec : Spec) : Parsed → List String → Except UsageError Parsed
  | p, [] => .ok p
  | p, word :: words => do takeAll spec (← p.take spec word) words

/-- Refuses arguments of which a required one is missing. -/
def finish (spec : Spec) (p : Parsed) : Except UsageError Parsed := do
  let p ← p.settle
  let names := spec.positionals.map PositionalSpec.name ++ spec.required
  if names.all p.has then return p else throw .missingRequiredArgument

end Parsed
end HotRename.CommandLine
