import HotRename.Command.Run
import HotRename.Json.Printer

/-!
# The command line

The files that a run may touch are taken into a file tree, the run works on that tree, and the
files that it changed are written back.
-/

namespace HotRename.CommandLine

/-- The fault with a code of the system, which may come as its negative. -/
def faultOfCode (code : UInt32) (details : String) : IoFault :=
  match min code.toNat (-code).toNat with
  | 2 => .noSuchFile
  | 13 => .other "Permission denied (os error 13)"
  | 20 => .notDirectory
  | 21 => .isDirectory
  | 36 => .nameTooLong
  | n => .other s!"{details} (os error {n})"

/-- The fault that an error of the system stands for. -/
def faultOf : IO.Error → IoFault
  | .noFileOrDirectory _ code details | .interrupted _ code details => faultOfCode code details
  | .alreadyExists _ code details | .invalidArgument _ code details
  | .permissionDenied _ code details | .resourceExhausted _ code details
  | .inappropriateType _ code details | .noSuchThing _ code details => faultOfCode code details
  | .otherError code details | .resourceBusy code details | .resourceVanished code details
  | .unsupportedOperation code details | .hardwareFault code details
  | .unsatisfiedConstraints code details | .illegalOperation code details
  | .protocolError code details | .timeExpired code details => faultOfCode code details
  | err => .other (toString err)

/-- The path of a location. -/
def pathOf (loc : Location) : String :=
  "/" ++ "/".intercalate loc

/-- What keeps a file from being written. -/
def writeFault (loc : Location) : IO (Option IoFault) := do
  try
    let _ ← IO.FS.Handle.mk (pathOf loc) .readWrite
    return none
  catch err =>
    return some (faultOf err)

/-- What lies at a location of the disk. -/
def inspect (loc : Location) : IO (Option Entry) := do
  try
    let bytes ← IO.FS.readBinFile (pathOf loc)
    return some (.file { bytes, writeFault := ← writeFault loc })
  catch err =>
    match faultOf err with
    -- What is not there is left to the tree, which knows the same faults.
    | .noSuchFile | .notDirectory => return none
    | .isDirectory => return some .directory
    | fault => return some (.file { bytes := .empty, readFault := some fault })

/-- Takes what lies at a location into a tree. -/
def takeIn (tree : FileTree) (loc : Location) : IO FileTree := do
  if (tree.entries.lookup loc).isSome then
    return tree
  match ← inspect loc with
  | some entry => return { tree with entries := tree.entries ++ [(loc, entry)] }
  | none => return tree

/-- The locations on the way that a path takes. -/
def stations (start : Location) : List Component → List Location
  | [] => [start]
  | .root :: rest => stations [] rest
  | .here :: rest => stations start rest
  -- The locations on the way decide whether a path can be followed, so each is looked at.
  | .up :: rest => start :: stations start.dropLast rest
  | .name n :: rest => start :: stations (start ++ [n]) rest

/-- Takes the files with the given paths into a tree. -/
def takeInPaths (tree : FileTree) (paths : List Path) : IO FileTree :=
  (paths.filter fun p => (FileTree.checkSpelling p).isOk).foldlM
    (fun tree p => (stations tree.workingDirectory p.components).foldlM takeIn tree) tree

/-- Writes the files of a tree that differ from those of the tree before. -/
def writeBack (before after : FileTree) : IO Unit := do
  for (loc, entry) in after.entries do
    match entry with
    | .directory => pure ()
    | .file content =>
      unless (before.file? loc).any fun old => old.bytes == content.bytes do
        IO.FS.writeBinFile (pathOf loc) content.bytes

/-- The summary of the arguments. -/
def usage : String :=
  "Semantic-safe symbol renames with hot reload planning\n\n" ++
  "Usage: hrr [OPTIONS] <COMMAND>\n\n" ++
  "Commands:\n" ++
  "  plan <symbol> <new-name>\n" ++
  "  apply <symbol> <new-name> [--dry-run]\n" ++
  "  batch --rename <SYMBOL=NAME>... [--apply] [--dry-run]\n" ++
  "  cascade <symbols>...\n" ++
  "  safety <symbol> <new-name>\n" ++
  "  impact <symbol> <new-name>\n" ++
  "  verify <symbol> <new-name> <files>...\n" ++
  "  locate <file> <offset>\n\n" ++
  "Options:\n" ++
  "  -m, --manifest <manifest>  [default: hrr-manifest.json]\n" ++
  "  -r, --root <root>          [default: .]\n" ++
  "  -c, --config <config>      [default: hrr.toml]\n" ++
  "  -v, --verbose\n" ++
  "  -h, --help\n" ++
  "  -V, --version"

/-- What is wrong with the arguments, in words. -/
def UsageError.message : UsageError → String
  | missingRequiredArgument => "a required argument was not provided"
  | unknownArgument => "unexpected argument found"
  | invalidSubcommand => "unrecognized subcommand"
  | missingSubcommand => "a subcommand is required but one was not provided"
  | invalidValue => "a value is required but none was supplied"
  | valueValidation => "invalid value"
  | argumentConflict => "an argument cannot be used multiple times"
  | tooManyValues => "unexpected value found"
  | displayHelp | displayHelpOnMissingArgument => usage
  | displayVersion => "hrr 0.1.0"

/-- Reports what keeps a command from being run. -/
def reportUsage (err : UsageError) : IO UInt32 := do
  match err with
  | .displayHelp | .displayVersion =>
    IO.println err.message
    return 0
  | .displayHelpOnMissingArgument =>
    IO.eprintln err.message
    return 2
  | _ =>
    IO.eprintln s!"error: {err.message}"
    return 2

/-- Runs a command on the disk. -/
def runOnDisk (inv : Invocation) : IO UInt32 := do
  let start : Path := ⟨(← IO.currentDir).toString⟩
  let workingDirectory := start.components.filterMap fun
    | .name n => some n
    | _ => none
  let settings ← takeInPaths { entries := [], workingDirectory } inv.settingPaths
  let tree ← takeInPaths settings (inv.projectPaths settings)
  let (result, after) := run inv tree
  writeBack tree after
  match result with
  | .ok document =>
    IO.println document.pretty
    return 0
  | .error err =>
    IO.eprintln s!"error: {err.message}"
    return 1

end HotRename.CommandLine

/-- The program. -/
def main (args : List String) : IO UInt32 :=
  match HotRename.CommandLine.parse args with
  | .error err => HotRename.CommandLine.reportUsage err
  | .ok inv => HotRename.CommandLine.runOnDisk inv
