/-
# BundleManifest.Proofs.Pattern.Parsing — which lines are rules

Both rule files skip blank lines and comments, which say nothing. In the pattern file a line of nothing but
separators is no rule either, as there is no body between them; every other line is a rule
(`parse?_eq_none_iff`).
-/
import BundleManifest.Pattern.Basic
import Mathlib

namespace BundleManifest

/-- A line is blank or a comment. -/
def SaysNothing (line : Text) : Prop :=
  Text.trim line = [] ∨ (Text.trim line).head? = some (CodePoint.ofChar '#')

instance (line : Text) : Decidable (SaysNothing line) := inferInstanceAs (Decidable (_ ∨ _))

theorem cleanLine?_eq_some {line text : Text} (h : cleanLine? line = some text) :
    text = Text.trim line := by
  unfold cleanLine? at h
  split at h
  · cases h
  · next htrim =>
    split at h
    · cases h
    · rw [htrim]
      exact (Option.some.inj h).symm

theorem cleanLine?_eq_none_iff {line : Text} : cleanLine? line = none ↔ SaysNothing line := by
  unfold cleanLine? SaysNothing
  split
  · next htrim => exact iff_of_true rfl (Or.inl htrim)
  · next c rest htrim =>
    rw [htrim]
    split
    · next hcomment => exact iff_of_true rfl (Or.inr (congrArg some hcomment))
    · next hcomment => simp [hcomment]

/-- All pieces are empty exactly where there are only separators. -/
theorem forall_mem_cut_eq_nil_iff {α : Type} [DecidableEq α] {sep : α} {t : List α} :
    (∀ piece ∈ cut sep t, piece = []) ↔ ∀ c ∈ t, c = sep := by
  constructor
  · intro h c hc
    by_contra hsep
    obtain ⟨piece, hpiece, hmem⟩ := exists_mem_cut hc hsep
    rw [h piece hpiece] at hmem
    cases hmem
  · intro h piece hpiece
    apply List.eq_nil_iff_forall_not_mem.mpr
    intro c hc
    apply not_mem_of_mem_cut hpiece
    rwa [← h c (mem_of_mem_cut hpiece hc)]

theorem glue_eq_nil_iff {α : Type} {sep : α} {pieces : List (List α)}
    (h : ∀ piece ∈ pieces, piece ≠ []) : glue sep pieces = [] ↔ pieces = [] := by
  constructor
  · intro hnil
    cases pieces with
    | nil => rfl
    | cons first pieces =>
      exfalso
      apply h first List.mem_cons_self
      cases pieces with
      | nil => exact hnil
      | cons next pieces => exact (List.append_eq_nil_iff.mp hnil).1
  · rintro rfl
    rfl

namespace Pattern

/-- There is no body exactly where there are only separators of either style. -/
theorem body_eq_nil_iff {raw : Text} :
    Text.join '/' ((Text.split '/' (Text.replace '\\' '/' raw)).filter (· != [])) = [] ↔
      ∀ c ∈ raw, c = CodePoint.ofChar '/' ∨ c = CodePoint.ofChar '\\' := by
  rw [Text.join, glue_eq_nil_iff, List.filter_eq_nil_iff]
  · simp only [bne_iff_ne, ne_eq, not_not]
    rw [forall_mem_cut_eq_nil_iff]
    unfold Text.replace
    simp only [List.mem_map, forall_exists_index, and_imp, forall_apply_eq_imp_iff₂]
    apply forall₂_congr
    intro c _
    split
    · next hback => exact iff_of_true rfl (Or.inr hback)
    · next hother => exact (or_iff_left hother).symm
  · intro piece hpiece
    exact bne_iff_ne.mp (List.mem_filter.mp hpiece).2

/-- Every line is a rule unless it is blank, a comment, or nothing but separators. -/
theorem parse?_eq_none_iff {line : Text} :
    parse? line = none ↔
      SaysNothing line ∨
        ∀ c ∈ Text.trim line, c = CodePoint.ofChar '/' ∨ c = CodePoint.ofChar '\\' := by
  rw [← cleanLine?_eq_none_iff, parse?]
  split
  · next hclean => exact iff_of_true rfl (Or.inl hclean)
  · next raw hclean =>
    rw [← cleanLine?_eq_some hclean, ← body_eq_nil_iff, hclean]
    simp

end Pattern

end BundleManifest
