import HotRename.Command.Invocation
import HotRename.Project.Manifest
import HotRename.Project.Settings
import HotRename.Rename.Execute
import HotRename.Rename.ExecuteBatch
import HotRename.Rename.Impact
import HotRename.Store.Disk

/-!
# Running a command

A command reads the settings, then the manifest, and only then looks at its own arguments. Its
result is a document; what it writes is seen in the file tree after it.

Which paths a run may ask the file tree for is known before it: the manifest names all files of the
project, so it has to be read first, and the rest follows from it and from the arguments.
-/

namespace HotRename

/-- All files that a manifest names. -/
def ManifestIndex.files (m : ManifestIndex) : List Path :=
  Path.keys
    ((m.occurrences.flatMap fun entry => entry.2.map Occurrence.path) ++
      (m.dependents.flatMap fun entry => entry.2.filterMap Dependent.filePath) ++
      m.fileSymbols.map Prod.fst)

namespace CommandLine

/-- Why a command fails. -/
inductive CommandError where
  | config (path : Path) (error : ConfigError)
  | manifest (path : Path) (error : ManifestError)
  | symbolId (error : SymbolIdError)
  /-- A rename of a batch is not written as symbol and name around an equality sign. -/
  | malformedPair (pair : String)
  | rename (error : RenameError)
  deriving DecidableEq, Repr

namespace CommandError

/-- The wordings of the error and of those that led to it. -/
def chain : CommandError → List String
  | config path error => s!"loading {path.text}" :: error.chain
  | manifest path error => s!"loading {path.text}" :: error.chain
  | symbolId error => [error.message]
  | malformedPair pair => [s!"expected SYMBOL=NAME, got '{pair}'"]
  | rename error => error.chain

/-- The error in words, with all that led to it. -/
def message (e : CommandError) : String :=
  ": ".intercalate e.chain

end CommandError

/-- Splits a text at the last equality sign. -/
def splitPair? (pair : String) : Option (String × String) :=
  -- Read from the end, so that the name has no equality sign in it.
  let cs := pair.toList.reverse
  match cs.dropWhile (· ≠ '=') with
  | [] => none
  | _ :: before =>
    some (String.ofList before.reverse, String.ofList (cs.takeWhile (· ≠ '=')).reverse)

/-- Reads a rename of a batch. -/
def parsePair (pair : String) : Except CommandError RenameRequest :=
  match splitPair? pair with
  | some (symbol, name) => (RenameRequest.parse symbol name).mapError .rename
  | none => .error (.malformedPair pair)

/-- Reads the renames of a batch. -/
def parsePairs : List String → Except CommandError (List RenameRequest)
  | [] => .ok []
  | pair :: pairs => do
    let r ← parsePair pair
    return r :: (← parsePairs pairs)

/-- Reads the request of a command. -/
def parseRequest (symbol newName : String) : Except CommandError RenameRequest :=
  (RenameRequest.parse symbol newName).mapError .rename

/-- Reads symbols. -/
def parseSymbols : List String → Except CommandError (List SymbolId)
  | [] => .ok []
  | s :: ss => do
    let id ← (SymbolId.parse s).mapError .symbolId
    return id :: (← parseSymbols ss)

/-- The result of an inquiry, written as a document. -/
def answer (encode : α → Json) (inquiry : Inquiry α) : Except CommandError Json :=
  (inquiry.run.answer.map encode).mapError .rename

/-- The engine that an invocation works with. It searches for words of the Unicode tables. What it
    searches for are arguments of a command line, which are too short for a search to refuse, so no
    name counts as unsearchable. -/
def openEngine (inv : Invocation) (tree : FileTree) : Except CommandError Engine := do
  -- The settings are read first, so their errors come before those of the manifest.
  let config ← (Config.load (tree.readText inv.config)).mapError (.config inv.config)
  let index ← (ManifestIndex.load inv.manifest (tree.readText inv.manifest)).mapError
    (.manifest inv.manifest)
  return { analyzer := index.analyzer, config }

/-- The result of a command that writes, and the file tree after it. -/
def written (encode : α → Json) (outcome : Asked (Except RenameError α × Disk)) :
    Except CommandError Json × FileTree :=
  let (result, disk) := outcome.answer
  ((result.map encode).mapError .rename, disk.tree)

/-- Carries out a command. -/
def Command.run (e : Engine) (disk : Disk) : Command → Except CommandError Json × FileTree
  | .plan symbol newName =>
    readOnly do
      let r ← parseRequest symbol newName
      answer RenamePlan.toJson (e.plan r)
  | .apply symbol newName dryRun =>
    match parseRequest symbol newName with
    | .error err => readOnly (.error err)
    | .ok r => written RenameOutcome.toJson (e.execute r dryRun disk)
  | .batch pairs writing dryRun =>
    match parsePairs pairs with
    | .error err => readOnly (.error err)
    | .ok renames =>
      if writing then written BatchOutcome.toJson (e.executeBatch renames dryRun disk)
      else readOnly (answer BatchPlan.toJson (e.planBatch renames))
  | .cascade symbols =>
    readOnly do
      let ids ← parseSymbols symbols
      answer Cascade.toJson (e.cascade ids)
  | .safety symbol newName =>
    readOnly do
      let r ← parseRequest symbol newName
      answer Safety.toJson (e.safety r)
  | .impact symbol newName =>
    readOnly do
      let r ← parseRequest symbol newName
      answer RenameImpact.toJson (e.impact r)
  | .verify symbol newName files =>
    readOnly do
      let r ← parseRequest symbol newName
      answer IntegrityReport.toJson (e.verify r.symbolId r.newName files disk.read)
  | .locate file offset =>
    readOnly (answer
      (fun found => .record
        [("path", file.toJson), ("offset", .nat offset),
          ("symbol_id", Json.orNull SymbolId.toJson found)])
      (e.symbolAtPosition file offset))
where
  /-- The result of a command that writes nothing. -/
  readOnly (result : Except CommandError Json) : Except CommandError Json × FileTree :=
    (result, disk.tree)

/-- Runs a command in a file tree, and gives the file tree after it. -/
def run (inv : Invocation) (tree : FileTree) : Except CommandError Json × FileTree :=
  match openEngine inv tree with
  | .error err => (.error err, tree)
  | .ok engine => inv.command.run engine { root := inv.root, tree }

/-! ## The files of a run -/

/-- The files that the arguments of a command name. -/
def Command.files : Command → List Path
  | .verify _ _ files => files
  | _ => []

/-- The files that are read before the command itself. -/
def Invocation.settingPaths (inv : Invocation) : List Path :=
  [inv.config, inv.manifest]

/-- The files that the command may read or write, given a tree with the manifest. -/
def Invocation.projectPaths (inv : Invocation) (tree : FileTree) : List Path :=
  match ManifestIndex.load inv.manifest (tree.readText inv.manifest) with
  | .error _ => []
  | .ok index =>
    -- A path that does not resolve is refused before the file tree is asked.
    (index.files ++ inv.command.files).filterMap fun p => (Disk.resolve inv.root p).toOption

end CommandLine
end HotRename
