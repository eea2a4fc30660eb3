/-
# BundleManifest.Proofs.Text.Order — code point order is the lexicographic order

`Text.le` decides the order in which a walk visits entries. Here it is compared with the
lexicographic order of lists of code points, and the strict order is followed through appending:
a first difference is never undone by what comes after it.
-/
import BundleManifest.Text.Order
import Mathlib

namespace BundleManifest.Text

/-- `le` fails exactly when the texts are strictly in the other order. -/
theorem le_eq_false_iff {t u : Text} : le t u = false ↔ u < t := by
  induction t generalizing u with
  | nil => simp [le]
  | cons c t ih =>
    cases u with
    | nil => simp [le]
    | cons d u =>
      rw [List.cons_lt_cons_iff, ← ih, ← Bool.not_eq_true, le_cons_iff]
      constructor
      · -- `le` failing says that neither of its two cases holds
        intro h
        push Not at h
        rcases Nat.lt_or_eq_of_le h.1 with hdc | hdc
        · exact Or.inl hdc
        · have hcd : c = d := Fin.ext hdc.symm
          exact Or.inr ⟨hcd.symm, Bool.eq_false_iff.mpr (h.2 hcd)⟩
      · rintro (hdc | ⟨rfl, htu⟩)
        · rintro (hcd | ⟨rfl, -⟩)
          · exact absurd hdc (Nat.lt_asymm hcd)
          · exact Nat.lt_irrefl _ hdc
        · simp [htu]

/-- Texts in order that differ are strictly in order. -/
theorem lt_of_le_of_ne {t u : Text} (h : le t u = true) (hne : t ≠ u) : t < u := by
  rw [← le_eq_false_iff, Bool.eq_false_iff]
  intro hut
  exact hne (le_antisymm h hut)

/-- What follows two texts does not matter once they differ within both. -/
theorem append_lt_append {t u : Text} (h : t < u) (hpre : ¬ t <+: u) (x y : Text) :
    t ++ x < u ++ y := by
  induction t generalizing u with
  | nil => exact absurd List.nil_prefix hpre
  | cons c t ih =>
    cases u with
    | nil => exact absurd h (List.not_lt_nil _)
    | cons d u =>
      rw [List.cons_lt_cons_iff] at h
      simp only [List.cons_append, List.cons_lt_cons_iff]
      rcases h with hcd | ⟨rfl, htu⟩
      · exact Or.inl hcd
      · exact Or.inr ⟨rfl, ih htu fun hp => hpre (List.cons_prefix_cons.mpr ⟨rfl, hp⟩)⟩

/-- The greater text may be made longer. -/
theorem lt_append_right {t u : Text} (h : t < u) (y : Text) : t < u ++ y :=
  List.Lex.append_right _ y h

/-- Of two lists in strictly increasing order one is a part of the other as soon as its texts are. -/
theorem sublist_of_subset {few many : List Text} (hfew : few.Pairwise (· < ·))
    (hmany : many.Pairwise (· < ·)) (h : few ⊆ many) : few.Sublist many :=
  List.sublist_of_subperm_of_pairwise (List.subperm_of_subset hfew.nodup h) hfew hmany

end BundleManifest.Text
