/-
# BundleManifest.Proofs.RuleSet.Naming — what a file of one line names

A line of the basic file names files, but the line and the names of files are read in two ways: the line
lossily, and a name exactly. So a line names the files whose name is the lossy reading of its bytes
(`excludes_oneLine_iff`). These are the bytes themselves where they are well-formed.
-/
import BundleManifest.Proofs.FileSystem.Soundness
import BundleManifest.Proofs.RuleSet.Union
import BundleManifest.Proofs.Text.Breaks
import BundleManifest.Proofs.Text.Lossy
import BundleManifest.RuleSet.Source

namespace BundleManifest

/-- The bytes of a line break. -/
def LineBreak.bytes : LineBreak → Bytes
  | lineFeed => [0x0A]
  | carriageReturn => [0x0D]
  | both => [0x0D, 0x0A]

/-- The text of a line break is its bytes, read one by one. -/
theorem LineBreak.map_bytes (b : LineBreak) : b.bytes.map (fun x => CodePoint.ofNat x.toNat) = b.text := by
  cases b <;> rfl

namespace RuleSet

/-- A file name that can be a line of the basic file: it is neither trimmed nor cut, and it is not taken
for a comment. -/
structure Listable (name : Bytes) : Prop where
  legal : LegalName name
  trimmed : Text.trim (Utf8.decode name) = Utf8.decode name
  uncommented : (Utf8.decode name).head? ≠ some (CodePoint.ofChar '#')
  unbroken : (Utf8.decode name).IsUnbroken
  unmarked : Utf8.markPoint ∉ Utf8.decode name

/-- The bytes of a rule file with one line, which need not be ended. -/
def oneLine (name : Bytes) (ending : Option LineBreak) : Bytes := name ++ ending.elim [] LineBreak.bytes

/-- A file of one line says nothing if it is nothing but the beginning of a byte order mark. -/
def IsCutOff (name : Bytes) (ending : Option LineBreak) : Prop := ending = none ∧ name <+: Utf8.mark

instance (name : Bytes) (ending : Option LineBreak) : Decidable (IsCutOff name ending) :=
  inferInstanceAs (Decidable (_ ∧ _))

/-- An empty file has no lines. -/
theorem linesOf_nil : linesOf [] = [] := Text.lines_of_isUnbroken (List.forall_mem_nil _)

section
variable {name : Bytes} (h : Listable name)
include h

theorem Listable.lossy_ne_nil : Utf8.decodeLossy name ≠ [] := by
  intro hnil
  have hblurred := Utf8.blurred_decode name
  rw [hnil] at hblurred
  exact h.legal.ne_nil (Utf8.decode_eq_nil_iff.mp hblurred.eq_nil)

theorem Listable.lossy_isUnbroken : (Utf8.decodeLossy name).IsUnbroken := by
  intro c hc
  rcases (Utf8.blurred_decode name).mem hc with rfl | hc
  · decide
  · exact h.unbroken c hc

/-- The lossy reading of a name that can be a line is a rule. -/
theorem Listable.cleanLine?_eq : cleanLine? (Utf8.decodeLossy name) = some (Utf8.decodeLossy name) := by
  have hblurred := Utf8.blurred_decode name
  obtain ⟨c, rest, htext⟩ := List.exists_cons_of_ne_nil h.lossy_ne_nil
  have hcomment : c ≠ CodePoint.ofChar '#' := by
    rintro rfl
    rcases hblurred.head?_eq_some (by rw [htext]; rfl) with hreplaced | hhead
    · exact absurd hreplaced (by decide)
    · exact h.uncommented hhead
  unfold cleanLine?
  rw [hblurred.trim_eq h.trimmed, htext]
  exact if_neg hcomment

/-- A file of one line holds the lossy reading of that line. -/
theorem linesOf_oneLine (ending : Option LineBreak) :
    linesOf (oneLine name ending)
      = if IsCutOff name ending then [] else [Utf8.decodeLossy name] := by
  have hascii : ∀ x ∈ ending.elim [] LineBreak.bytes, x.toNat < 0x80 := by
    cases ending with
    | none => exact List.forall_mem_nil _
    | some b => cases b <;> simp [LineBreak.bytes]
  have hended : ending.elim [] LineBreak.bytes = [] ↔ ending = none := by
    cases ending with
    | none => exact iff_of_true rfl rfl
    | some b => cases b <;> simp [LineBreak.bytes]
  unfold linesOf oneLine
  rw [Utf8.decodeMarked_append hascii h.unmarked]
  by_cases hcut : IsCutOff name ending
  · rw [if_pos hcut, if_pos ⟨hended.mpr hcut.1, hcut.2⟩]
    exact Text.lines_of_isUnbroken (List.forall_mem_nil _)
  · rw [if_neg hcut, if_neg fun hnone => hcut ⟨hended.mp hnone.1, hnone.2⟩,
      Utf8.decodeLossy_append_of_ascii _ hascii]
    cases ending with
    | none =>
      rw [Option.elim_none, List.map_nil, List.append_nil, Text.lines_of_isUnbroken h.lossy_isUnbroken,
        if_neg h.lossy_ne_nil]
    | some b =>
      have hline := Text.lines_append_break h.lossy_isUnbroken (b := b) (t := []) fun _ => nofun
      rw [List.append_nil] at hline
      rw [Option.elim_some, b.map_bytes, hline]
      exact congrArg (_ :: ·) (Text.lines_of_isUnbroken (List.forall_mem_nil _))

/-- A file of one line names the files whose name is what the line is read as. -/
theorem excludes_oneLine_iff (ending : Option LineBreak) {base : Text} :
    (∃ line ∈ linesOf (oneLine name ending), cleanLine? line = some base) ↔
      ¬ IsCutOff name ending ∧ base = Utf8.decodeLossy name := by
  rw [linesOf_oneLine h]
  split
  · next hcut => simp [hcut]
  · next hwhole => simp [hwhole, h.cleanLine?_eq, eq_comm]

end

end RuleSet

end BundleManifest
