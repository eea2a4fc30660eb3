/-
# BundleManifest.Proofs.FileSystem.Canonical — what replacing links depends on

A path is asked for one question at a time while its links are replaced: which target it has, if it
names a link. Two file systems that answer all of these questions alike make the same of a path
(`unfold_congr`).
-/
import BundleManifest.FileSystem.Canonical
import BundleManifest.Proofs.FileSystem.Resolution

namespace BundleManifest.FileSystem

/-! ## Targets -/

theorem exists_target {node : Node} (h : node.kind = .link) : ∃ target, node = .link target := by
  cases node with
  | link target => exact ⟨target, rfl⟩
  | directory above entries => cases h
  | regular bytes => cases h
  | pipe => cases h
  | device => cases h

section
variable {fs : FileSystem} {path : Text}

theorem linkTarget?_of_link {i : Inode} {target : Bytes} (hi : fs.find false path = .ok i)
    (hnode : fs.node? i = some (.link target)) :
    fs.linkTarget? path = .ok (some (Utf8.decode target)) := by
  unfold linkTarget? lstat
  simp only [hi, hnode]
  rfl

theorem linkTarget?_of_other {i : Inode} (hi : fs.find false path = .ok i)
    (hkind : fs.kind? i ≠ some .link) : fs.linkTarget? path = .ok none := by
  unfold linkTarget? lstat
  simp only [hi]
  split
  · next hnode => exact absurd (kind?_of_node? hnode) hkind
  · rfl

/-- What cannot be found is no link, unless it cannot even be asked for. -/
theorem linkTarget?_of_error {e : PathFault} : fs.find false path = .error e →
    fs.linkTarget? path
      = match e with
        | .fault _ => .ok none
        | e => .error e := by
  intro he
  unfold linkTarget? lstat
  simp only [he]
  cases e <;> rfl

end

/-! ## Paths without links -/

section
variable {fs gs : FileSystem} (hlink : ∀ path, gs.linkTarget? path = fs.linkTarget? path)
include hlink

/-- Paths are unfolded alike where links have the same targets. -/
theorem unfoldPieces_congr (enter : Unfolding → Text → Except PathFault Unfolding) (u : Unfolding)
    (pieces : List Text) : gs.unfoldPieces enter u pieces = fs.unfoldPieces enter u pieces := by
  induction pieces generalizing u with
  | nil => rfl
  | cons piece pieces ih => simp only [unfoldPieces, hlink, ih]

theorem unfold_congr (depth : Nat) (u : Unfolding) (t : Text) :
    gs.unfold depth u t = fs.unfold depth u t := by
  induction depth generalizing u t with
  | zero => rfl
  | succ depth ih =>
    have henter : gs.unfold depth = fs.unfold depth := funext fun u => funext (ih u)
    unfold FileSystem.unfold
    rw [henter]
    exact unfoldPieces_congr hlink _ _ _

end

end BundleManifest.FileSystem
