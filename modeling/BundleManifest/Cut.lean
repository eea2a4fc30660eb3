/-
# BundleManifest.Cut — cutting a sequence at a separator

`cut` gives the pieces between the occurrences of a separator and `glue` puts a separator between
each two pieces again. Nothing is lost: `glue_cut` says that gluing undoes cutting, and no piece
holds the separator; `cut_glue` is the other direction. Paths are cut in this way, as texts and as
bytes.
-/

namespace BundleManifest

variable {α : Type} [DecidableEq α]

/-- The pieces between the occurrences of `sep`; there is always at least one piece. -/
def cut (sep : α) : List α → List (List α)
  | [] => [[]]
  | c :: rest =>
    if c = sep then [] :: cut sep rest
    else match cut sep rest with
      | [] => [[c]]
      | piece :: pieces => (c :: piece) :: pieces

/-- The pieces with `sep` between each two neighbours. -/
def glue (sep : α) : List (List α) → List α
  | [] => []
  | [piece] => piece
  | piece :: next :: pieces => piece ++ sep :: glue sep (next :: pieces)

theorem cut_ne_nil (sep : α) (t : List α) : cut sep t ≠ [] := by
  cases t with
  | nil => simp [cut]
  | cons c rest =>
    simp only [cut]
    split
    · simp
    · split <;> simp

/-- Gluing undoes cutting. -/
theorem glue_cut (sep : α) (t : List α) : glue sep (cut sep t) = t := by
  induction t with
  | nil => rfl
  | cons c rest ih =>
    simp only [cut]
    split
    · next h =>
      subst h
      cases hs : cut c rest with
      | nil => exact absurd hs (cut_ne_nil _ _)
      | cons piece pieces =>
        rw [hs] at ih
        simp [glue, ih]
    · cases hs : cut sep rest with
      | nil => exact absurd hs (cut_ne_nil _ _)
      | cons piece pieces =>
        rw [hs] at ih
        cases pieces with
        | nil => simpa [glue] using ih
        | cons next pieces => simpa [glue] using ih

/-- No piece holds the separator. -/
theorem not_mem_of_mem_cut {sep : α} {t piece : List α} (h : piece ∈ cut sep t) : sep ∉ piece := by
  induction t generalizing piece with
  | nil =>
    simp only [cut, List.mem_singleton] at h
    simp [h]
  | cons c rest ih =>
    simp only [cut] at h
    split at h
    · rcases List.mem_cons.1 h with rfl | h
      · simp
      · exact ih h
    · next hc =>
      split at h
      · rw [List.mem_singleton] at h
        simpa [h] using Ne.symm hc
      · next first others heq =>
        rcases List.mem_cons.1 h with rfl | h
        · have : sep ∉ first := ih (by simp [heq])
          simp only [List.mem_cons, not_or]
          exact ⟨Ne.symm hc, this⟩
        · exact ih (by simp [heq, h])

/-- What a piece holds comes from the sequence. -/
theorem mem_of_mem_cut {sep c : α} {t piece : List α} (h : piece ∈ cut sep t) (hc : c ∈ piece) :
    c ∈ t := by
  induction t generalizing piece with
  | nil =>
    rw [cut, List.mem_singleton] at h
    rwa [h] at hc
  | cons d rest ih =>
    simp only [cut] at h
    split at h
    · rcases List.mem_cons.1 h with rfl | h
      · cases hc
      · exact List.mem_cons_of_mem _ (ih h hc)
    · split at h
      · rw [List.mem_singleton] at h
        rw [h, List.mem_singleton] at hc
        simp [hc]
      · next first others heq =>
        rcases List.mem_cons.1 h with rfl | h
        · rcases List.mem_cons.1 hc with rfl | hc
          · exact List.mem_cons_self
          · exact List.mem_cons_of_mem _ (ih (by simp [heq]) hc)
        · exact List.mem_cons_of_mem _ (ih (by simp [heq, h]) hc)

/-- What is no separator is in a piece. -/
theorem exists_mem_cut {sep c : α} {t : List α} (h : c ∈ t) (hc : c ≠ sep) :
    ∃ piece ∈ cut sep t, c ∈ piece := by
  induction t with
  | nil => cases h
  | cons d rest ih =>
    simp only [cut]
    split
    · next hd =>
      rcases List.mem_cons.1 h with rfl | h
      · exact absurd hd hc
      · obtain ⟨piece, hpiece, hmem⟩ := ih h
        exact ⟨piece, List.mem_cons_of_mem _ hpiece, hmem⟩
    · cases hs : cut sep rest with
      | nil => exact absurd hs (cut_ne_nil _ _)
      | cons first others =>
        rcases List.mem_cons.1 h with rfl | h
        · exact ⟨c :: first, List.mem_cons_self, List.mem_cons_self⟩
        · obtain ⟨piece, hpiece, hmem⟩ := ih h
          rw [hs] at hpiece
          rcases List.mem_cons.1 hpiece with rfl | hpiece
          · exact ⟨d :: piece, List.mem_cons_self, List.mem_cons_of_mem _ hmem⟩
          · exact ⟨piece, List.mem_cons_of_mem _ hpiece, hmem⟩

/-- Without the separator there is one piece. -/
theorem cut_of_not_mem {sep : α} {t : List α} (h : sep ∉ t) : cut sep t = [t] := by
  induction t with
  | nil => rfl
  | cons c rest ih =>
    rw [List.mem_cons, not_or] at h
    simp [cut, Ne.symm h.1, ih h.2]

/-- The pieces on both sides of a separator. -/
theorem cut_append (sep : α) (t u : List α) : cut sep (t ++ sep :: u) = cut sep t ++ cut sep u := by
  induction t with
  | nil => simp [cut]
  | cons c rest ih =>
    simp only [List.cons_append, cut, ih]
    split
    · rfl
    · cases hs : cut sep rest with
      | nil => exact absurd hs (cut_ne_nil _ _)
      | cons piece pieces => rfl

/-- Cutting undoes gluing of pieces that do not hold the separator. -/
theorem cut_glue {sep : α} {pieces : List (List α)} (hne : pieces ≠ [])
    (h : ∀ piece ∈ pieces, sep ∉ piece) : cut sep (glue sep pieces) = pieces := by
  induction pieces with
  | nil => exact absurd rfl hne
  | cons piece rest ih =>
    have hpiece : sep ∉ piece := h piece (by simp)
    cases rest with
    | nil => exact cut_of_not_mem hpiece
    | cons next pieces =>
      rw [glue, cut_append, cut_of_not_mem hpiece, ih (by simp) fun p hp => h p (by simp [hp])]
      rfl

omit [DecidableEq α] in
/-- One more piece comes behind a separator, if there are others. -/
theorem glue_append_singleton (sep : α) {pieces : List (List α)} (h : pieces ≠ [])
    (piece : List α) :
    glue sep (pieces ++ [piece]) = glue sep pieces ++ sep :: piece := by
  induction pieces with
  | nil => exact absurd rfl h
  | cons first pieces ih =>
    cases pieces with
    | nil => rfl
    | cons next pieces =>
      have hrest := ih (List.cons_ne_nil next pieces)
      simp only [List.cons_append] at hrest ⊢
      rw [glue, glue, hrest, List.append_assoc]
      rfl

end BundleManifest
