import HotRename.Proofs.Text.Bytes
import HotRename.Store.Basic

/-!
# Stores with places

The files of a store lie at places. A path names at most one place, but nothing keeps two paths
from naming the same one. A write to a file that is there changes what lies at its place, and
neither what lies elsewhere nor which places the paths name.
-/

namespace HotRename

/-- A store whose files, of type `ν`, lie at places of type `κ`. -/
class PlacedStore (σ : Type) [Store σ] (κ ν : outParam Type) where
  /-- The place that a path names. -/
  place? : σ → Path → Option κ
  /-- The file at a place. -/
  look : σ → κ → Option ν
  /-- The bytes of a file. -/
  bytes : ν → List UInt8
  /-- The file that a write of a text leaves. -/
  ofText : String → ν
  bytes_ofText (text : String) : bytes (ofText text) = Text.bytes text
  /-- What is read is what lies at the place of the path. -/
  read_ok {s : σ} {p : Path} {text : String} : Store.read s p = .ok text →
    ∃ k file, place? s p = some k ∧ look s k = some file ∧ bytes file = Text.bytes text
  /-- A write puts the text at the place of the path. -/
  look_write {s s' : σ} {p : Path} {text : String} {k : κ} : Store.write s p text = .ok s' →
    place? s p = some k → (look s k).isSome → look s' k = some (ofText text)
  /-- A write changes nothing elsewhere. -/
  look_write_ne {s s' : σ} {p : Path} {text : String} {k k' : κ} : Store.write s p text = .ok s' →
    place? s p = some k → (look s k).isSome → k' ≠ k → look s' k' = look s k'
  /-- A write does not move places. -/
  place_write {s s' : σ} {p : Path} {text : String} {k : κ} : Store.write s p text = .ok s' →
    place? s p = some k → (look s k).isSome → ∀ q, place? s' q = place? s q

namespace PlacedStore

variable {σ κ ν : Type} [Store σ] [PlacedStore σ κ ν]

/-- The path names a place at which a file lies. -/
def Present (s : σ) (p : Path) : Prop :=
  ∃ k, place? s p = some k ∧ (look s k).isSome

/-- A file that can be read is there. -/
theorem present_of_read {s : σ} {p : Path} {text : String} (h : Store.read s p = .ok text) :
    Present s p := by
  obtain ⟨k, file, hplace, hlook, -⟩ := read_ok h
  exact ⟨k, hplace, by rw [hlook]; rfl⟩

/-- No file is gone after a write. -/
theorem Present.write {s s' : σ} {p q : Path} {text : String} (hp : Present s p)
    (hq : Present s q) (h : Store.write s p text = .ok s') : Present s' q := by
  obtain ⟨k, hplace, hsome⟩ := hp
  obtain ⟨k', hplace', hsome'⟩ := hq
  refine ⟨k', by rw [place_write h hplace hsome, hplace'], ?_⟩
  by_cases hk : k' = k
  · rw [hk, look_write h hplace hsome]
    rfl
  · rw [look_write_ne h hplace hsome hk]
    exact hsome'

end PlacedStore
end HotRename
