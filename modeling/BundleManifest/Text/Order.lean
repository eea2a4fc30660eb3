/-
# BundleManifest.Text.Order — the order of texts

Texts are ordered by their first difference, code point by code point, and a text comes before every
longer one that starts with it. `le_refl`, `le_trans`, `le_antisymm` and `le_total` say that this is
a total order.
-/
import BundleManifest.Text.Basic

namespace BundleManifest.Text

/-- Whether a text is another one or comes before it. -/
def le : Text → Text → Bool
  | [], _ => true
  | _ :: _, [] => false
  | c :: t, d :: u => decide (c.val < d.val) || (c.val == d.val && le t u)

/-- Texts in order. -/
def sort (ts : List Text) : List Text := ts.mergeSort le

@[simp] theorem le_refl (t : Text) : le t t = true := by
  induction t with
  | nil => rfl
  | cons c t ih => simp [le, ih]

theorem le_cons_iff {c d : CodePoint} {t u : Text} :
    le (c :: t) (d :: u) = true ↔ c.val < d.val ∨ c = d ∧ le t u = true := by
  simp [le, Fin.ext_iff]

theorem le_trans {t u v : Text} (htu : le t u = true) (huv : le u v = true) : le t v = true := by
  induction t generalizing u v with
  | nil => rfl
  | cons c t ih =>
    cases u with
    | nil => simp [le] at htu
    | cons d u =>
      cases v with
      | nil => simp [le] at huv
      | cons e v =>
        rw [le_cons_iff] at htu huv ⊢
        rcases htu with hcd | ⟨rfl, htu⟩
        · rcases huv with hde | ⟨rfl, -⟩
          · exact Or.inl (Nat.lt_trans hcd hde)
          · exact Or.inl hcd
        · rcases huv with hde | ⟨rfl, huv⟩
          · exact Or.inl hde
          · exact Or.inr ⟨rfl, ih htu huv⟩

theorem le_antisymm {t u : Text} (htu : le t u = true) (hut : le u t = true) : t = u := by
  induction t generalizing u with
  | nil =>
    cases u with
    | nil => rfl
    | cons d u => simp [le] at hut
  | cons c t ih =>
    cases u with
    | nil => simp [le] at htu
    | cons d u =>
      rw [le_cons_iff] at htu hut
      rcases htu with hcd | ⟨rfl, htu⟩
      · rcases hut with hdc | ⟨rfl, -⟩ <;> omega
      · rcases hut with hcc | ⟨-, hut⟩
        · omega
        · rw [ih htu hut]

theorem le_total (t u : Text) : le t u = true ∨ le u t = true := by
  induction t generalizing u with
  | nil => exact Or.inl rfl
  | cons c t ih =>
    cases u with
    | nil => exact Or.inr rfl
    | cons d u =>
      simp only [le_cons_iff]
      rcases Nat.lt_trichotomy c.val d.val with h | h | h
      · exact Or.inl (Or.inl h)
      · have hcd : c = d := Fin.ext h
        rcases ih u with htu | hut
        · exact Or.inl (Or.inr ⟨hcd, htu⟩)
        · exact Or.inr (Or.inr ⟨hcd.symm, hut⟩)
      · exact Or.inr (Or.inl h)

end BundleManifest.Text
