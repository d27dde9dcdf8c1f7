import HotRename.Command.Run
import HotRename.Proofs.Json.RoundTrip
import HotRename.Proofs.Project.Documents
import HotRename.Proofs.Rename.Locations

/-!
# Reading a project

A run of a command starts from the manifest of a project. What is said here of the files on disk
holds of any project that consists of a manifest and one file. Main statements:

* `ManifestIndex.parse_compact` the text of a manifest is read back and indexed
* `openEngine_projectTree`      the engine of a project
* `write_projectTree`           the project after its file was written
-/

namespace HotRename

/-! ## Manifests -/

/-- A manifest that says where symbols occur, and nothing else. -/
def Manifest.ofOccurrences (occurrences : List (String × List Occurrence)) : Manifest where
  symbols := []
  occurrences
  bindings := []
  dependents := []
  reservedWords := []
  fileSymbols := []

/-- Such a manifest can be written if its symbols are in ascending order and the offsets fit. -/
theorem Manifest.representable_ofOccurrences {occurrences : List (String × List Occurrence)}
    (hsorted : Json.Ascending occurrences)
    (hfits : ∀ e ∈ occurrences, ∀ o ∈ e.2, o.Representable) :
    (ofOccurrences occurrences).Representable where
  symbols := List.forall_mem_nil _
  occurrences := ⟨hsorted, hfits⟩
  bindings := List.forall_mem_nil _
  dependents := ⟨.nil, List.forall_mem_nil _⟩
  fileSymbols := ⟨.nil, List.forall_mem_nil _⟩

/-- What is known of a manifest is known from its text. -/
theorem ManifestIndex.parse_compact {m : Manifest} {index : ManifestIndex} (h : m.Representable)
    (hwritable : m.toJson.isWritable = true) (hdepth : m.toJson.depth ≤ Json.maxDepth)
    (hindex : ofManifest m = .ok index) : parse (Json.compact m.toJson) = .ok index := by
  rw [parse, Json.parse_compact hwritable hdepth, Option.bind_some, Manifest.codec.reads m h]
  exact hindex

namespace CommandLine

/-! ## Projects of one file -/

/-- A project of a manifest and one file. -/
def projectTree (manifest text : String) : FileTree where
  entries :=
    [(["hrr-manifest.json"], .file { bytes := manifest.toUTF8 }),
      (["a.gml"], .file { bytes := text.toUTF8 })]
  workingDirectory := []

/-- The paths that the commands open. -/
theorem locate_projectTree (manifest text : String) :
    (projectTree manifest text).locate ⟨"hrr.toml"⟩ = .ok ["hrr.toml"] ∧
    (projectTree manifest text).locate ⟨"hrr-manifest.json"⟩ = .ok ["hrr-manifest.json"] ∧
    (projectTree manifest text).locate ⟨"./a.gml"⟩ = .ok ["a.gml"] := by
  refine ⟨?_, ?_, ?_⟩ <;>
    exact FileTree.locate_of_follow
      (FileTree.checkSpelling_ok (by decide) (by decide) (by decide))
      (by decide) rfl

/-- A file is read if its bytes are those of a text. -/
theorem readText_of_file {t : FileTree} {p : Path} {loc : Location} {text : String}
    (hloc : t.locate p = .ok loc) (hfile : t.file? loc = some { bytes := text.toUTF8 }) :
    t.readText p = .ok text := by
  rw [FileTree.readText, hloc]
  simp only [Except.ok_bind, hfile, Apply.fromUTF8?_toUTF8]
  rfl

/-- An invocation with the files that are used unless others are named. -/
def hpInvocation : Invocation where
  manifest := ⟨"hrr-manifest.json"⟩
  root := ⟨"."⟩
  config := ⟨"hrr.toml"⟩
  verbose := false
  command := .cascade []

/-- The manifest of the project is loaded. -/
theorem load_projectTree {manifest : String} {index : ManifestIndex}
    (h : ManifestIndex.parse manifest = .ok index) (text : String) :
    ManifestIndex.load hpInvocation.manifest
      ((projectTree manifest text).readText hpInvocation.manifest) = .ok index := by
  have hread : (projectTree manifest text).readText ⟨"hrr-manifest.json"⟩ = .ok manifest :=
    readText_of_file (locate_projectTree manifest text).2.1 rfl
  rw [hpInvocation, hread]
  exact h

/-- The project has no configuration, so the engine has the defaults. -/
theorem openEngine_projectTree {manifest : String} {index : ManifestIndex}
    (h : ManifestIndex.parse manifest = .ok index) (text : String) :
    openEngine hpInvocation (projectTree manifest text) = .ok { analyzer := index.analyzer } := by
  have hconfig : (projectTree manifest text).readText ⟨"hrr.toml"⟩ = .error .noSuchFile := by
    rw [FileTree.readText, (locate_projectTree manifest text).1]
    rfl
  rw [openEngine, load_projectTree h, show hpInvocation.config = ⟨"hrr.toml"⟩ from rfl, hconfig]
  rfl

/-- The path of the file, resolved under the root. -/
theorem resolve_projectTree : Disk.resolve ⟨"."⟩ ⟨"a.gml"⟩ = .ok ⟨"./a.gml"⟩ :=
  Except.toOption_eq_some.mp (by decide)

/-- The file is read. -/
theorem read_projectTree (manifest text : String) :
    Disk.read ⟨⟨"."⟩, projectTree manifest text⟩ ⟨"a.gml"⟩ = .ok text := by
  rw [Disk.read, resolve_projectTree, Except.ok_bind,
    readText_of_file (locate_projectTree manifest text).2.2 rfl]
  rfl

/-- Writing the file leaves the manifest as it is. -/
theorem write_projectTree (manifest text new : String) :
    Disk.write ⟨⟨"."⟩, projectTree manifest text⟩ ⟨"a.gml"⟩ new =
      .ok ⟨⟨"."⟩, projectTree manifest new⟩ := by
  rw [Disk.write, resolve_projectTree, Except.ok_bind, FileTree.writeText,
    (locate_projectTree manifest text).2.2]
  rfl

end CommandLine
end HotRename
