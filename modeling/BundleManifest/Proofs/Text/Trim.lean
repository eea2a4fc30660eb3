/-
# BundleManifest.Proofs.Text.Trim — what trimming leaves

Trimming takes blanks away on both sides of what stays (`trim_append_cons`), so blanks around a text make no
difference (`trim_blanks`), what is left has no blank at either end, and from such a text nothing is taken
away (`trim_eq_self`).
-/
import BundleManifest.Text.Blank
import Mathlib

namespace BundleManifest.Text

section
variable {blank : CodePoint → Bool} {c : CodePoint} (hc : blank c = false) (a b : Text)
include hc

/-- What is trimmed in front stands before the first code point that stays. -/
theorem trimStart_append_cons : trimStart blank (a ++ c :: b) = trimStart blank a ++ c :: b := by
  unfold trimStart
  rw [List.dropWhile_append]
  split
  · next hempty =>
    rw [List.isEmpty_iff.mp hempty, List.dropWhile_cons_of_neg (by simp [hc])]
    rfl
  · rfl

theorem trimEnd_append_cons : trimEnd blank (a ++ c :: b) = a ++ c :: trimEnd blank b := by
  have hreverse : (a ++ c :: b).reverse = b.reverse ++ c :: a.reverse := by simp
  have hstart := trimStart_append_cons hc b.reverse a.reverse
  unfold trimStart at hstart
  unfold trimEnd
  rw [hreverse, hstart]
  simp

end

/-- Trimming works on both sides of a code point that is not blank. -/
theorem trim_append_cons {c : CodePoint} (hc : c.isBlank = false) (a b : Text) :
    trim (a ++ c :: b)
      = trimStart CodePoint.isBlank a ++ c :: trimEnd CodePoint.isBlank b := by
  unfold trim
  rw [trimStart_append_cons hc, trimEnd_append_cons hc]

theorem trim_eq_nil {t : Text} (h : ∀ c ∈ t, c.isBlank = true) : trim t = [] := by
  have hstart : trimStart CodePoint.isBlank t = [] := List.dropWhile_eq_nil_iff.mpr h
  unfold trim
  rw [hstart]
  rfl

/-- Blanks around a text are trimmed away. -/
theorem trim_blanks {before after : Text} (hbefore : ∀ c ∈ before, c.isBlank = true)
    (hafter : ∀ c ∈ after, c.isBlank = true) (t : Text) : trim (before ++ t ++ after) = trim t := by
  by_cases hblank : ∀ c ∈ t, c.isBlank = true
  · rw [trim_eq_nil hblank]
    apply trim_eq_nil
    intro c hc
    rcases List.mem_append.mp hc with hc | hc
    · exact (List.mem_append.mp hc).elim (hbefore c) (hblank c)
    · exact hafter c hc
  · simp only [not_forall, Bool.not_eq_true] at hblank
    obtain ⟨c, hmem, hc⟩ := hblank
    obtain ⟨a, b, rfl⟩ := List.append_of_mem hmem
    have hfront : trimStart CodePoint.isBlank (before ++ a) = trimStart CodePoint.isBlank a :=
      List.dropWhile_append_of_pos hbefore
    have hback : trimEnd CodePoint.isBlank (b ++ after) = trimEnd CodePoint.isBlank b := by
      unfold trimEnd
      rw [List.reverse_append, List.dropWhile_append_of_pos]
      intro d hd
      exact hafter d (List.mem_reverse.mp hd)
    calc trim (before ++ (a ++ c :: b) ++ after)
        = trim ((before ++ a) ++ c :: (b ++ after)) := by simp
      _ = trim (a ++ c :: b) := by
        rw [trim_append_cons hc, trim_append_cons hc, hfront, hback]

/-- A trimmed text does not begin with a blank. -/
theorem isBlank_of_head?_trim {t : Text} {c : CodePoint} (h : (trim t).head? = some c) :
    c.isBlank = false := by
  obtain ⟨rest, hrest⟩ : trim t <+: trimStart CodePoint.isBlank t := List.rdropWhile_prefix _ _
  have hhead : (t.dropWhile CodePoint.isBlank).head? = some c := by
    show (trimStart CodePoint.isBlank t).head? = some c
    rw [← hrest, List.head?_append, h]
    rfl
  have hnot := List.head?_dropWhile_not CodePoint.isBlank t
  rw [hhead] at hnot
  exact hnot

/-- Nor does it end with one. -/
theorem isBlank_of_getLast?_trim {t : Text} {c : CodePoint} (h : (trim t).getLast? = some c) :
    c.isBlank = false := by
  have hne : trim t ≠ [] := by
    intro hnil
    rw [hnil] at h
    cases h
  have hnot := List.rdropWhile_last_not CodePoint.isBlank (trimStart CodePoint.isBlank t) hne
  rw [List.getLast?_eq_some_getLast hne, Option.some.injEq] at h
  rw [← h]
  exact Bool.eq_false_iff.mpr hnot

/-- Nothing is trimmed from a text whose ends are not blank. -/
theorem trim_eq_self {t : Text} (hhead : ∀ c, t.head? = some c → c.isBlank = false)
    (hlast : ∀ c, t.getLast? = some c → c.isBlank = false) : trim t = t := by
  have hstart : trimStart CodePoint.isBlank t = t := by
    cases t with
    | nil => rfl
    | cons c t => exact List.dropWhile_cons_of_neg (by simp [hhead c rfl])
  unfold trim
  rw [hstart]
  apply List.rdropWhile_eq_self_iff.mpr
  intro hne
  rw [hlast _ (List.getLast?_eq_some_getLast hne)]
  exact Bool.false_ne_true

/-- What is trimmed away are blanks on both sides. -/
theorem exists_blanks (t : Text) :
    ∃ before after : Text, (∀ c ∈ before, c.isBlank = true) ∧ (∀ c ∈ after, c.isBlank = true) ∧
      t = before ++ trim t ++ after := by
  have hend (u : Text) :
      trimEnd CodePoint.isBlank u ++ (u.reverse.takeWhile CodePoint.isBlank).reverse = u := by
    unfold trimEnd
    rw [← List.reverse_append, List.takeWhile_append_dropWhile, List.reverse_reverse]
  refine ⟨t.takeWhile CodePoint.isBlank,
    ((trimStart CodePoint.isBlank t).reverse.takeWhile CodePoint.isBlank).reverse,
    fun c => List.mem_takeWhile_imp, fun c hc => List.mem_takeWhile_imp (List.mem_reverse.mp hc), ?_⟩
  unfold trim
  rw [List.append_assoc, hend]
  exact List.takeWhile_append_dropWhile.symm

/-- Trimming takes away nothing but blanks. -/
theorem mem_trim_iff {c : CodePoint} (hc : c.isBlank = false) {t : Text} : c ∈ trim t ↔ c ∈ t := by
  obtain ⟨before, after, hbefore, hafter, ht⟩ := exists_blanks t
  constructor
  · intro h
    rw [ht]
    exact List.mem_append_left _ (List.mem_append_right _ h)
  · intro h
    rw [ht, List.mem_append, List.mem_append] at h
    rcases h with (h | h) | h
    · cases hc.symm.trans (hbefore c h)
    · exact h
    · cases hc.symm.trans (hafter c h)

/-- Trimming twice is trimming once. -/
theorem trim_trim (t : Text) : trim (trim t) = trim t :=
  trim_eq_self (fun _ => isBlank_of_head?_trim) fun _ => isBlank_of_getLast?_trim

end BundleManifest.Text
