/-
# BundleManifest.Proofs.Pattern.Language — which texts a template matches

Each code point of a template takes one piece of the text, and `Takes` says which pieces those are. The
pieces of several stars can be chosen in many ways, and `Wildcard.matches` tries one after the other; it
accepts exactly the texts that can be cut into one piece for each code point of the template
(`matches_iff_exists_pieces`). Templates that follow each other match texts that follow each other
(`Matches.append_iff`), and since no piece of a wildcard holds a slash, a template matches a text segment by
segment (`Matches.iff_segments`).
-/
import BundleManifest.Pattern.Wildcard
import Mathlib

namespace BundleManifest

/-- If there is more than one piece, the first stands before the first separator and the others are the
pieces of what is behind it. -/
theorem exists_of_cut_eq_cons {α : Type} [DecidableEq α] {sep : α} {t first : List α}
    {pieces : List (List α)} (h : cut sep t = first :: pieces) (hne : pieces ≠ []) :
    ∃ u, t = first ++ sep :: u ∧ cut sep u = pieces := by
  refine ⟨glue sep pieces, ?_, ?_⟩
  · obtain ⟨next, others, rfl⟩ := List.exists_cons_of_ne_nil hne
    rw [← glue_cut sep t, h, glue]
  · apply cut_glue hne
    intro piece hpiece
    apply not_mem_of_mem_cut
    rw [h]
    exact List.mem_cons_of_mem first hpiece

namespace Wildcard

/-! ## Pieces -/

/-- A code point of a template takes a piece of a text: a star takes a run without a slash, a question
mark takes one code point that is no slash, and everything else takes itself. -/
def Takes (t : CodePoint) (piece : Text) : Prop :=
  if t = '*' then CodePoint.ofChar '/' ∉ piece
  else if t = '?' then ∃ c, c ≠ CodePoint.ofChar '/' ∧ piece = [c]
  else piece = [t]

section
variable {t : CodePoint} {piece template text : Text}

@[simp] theorem takes_star_iff :
    Takes (CodePoint.ofChar '*') piece ↔ CodePoint.ofChar '/' ∉ piece := by
  rw [Takes, if_pos rfl]

@[simp] theorem takes_any_iff :
    Takes (CodePoint.ofChar '?') piece ↔ ∃ c, c ≠ CodePoint.ofChar '/' ∧ piece = [c] := by
  rw [Takes, if_neg (by decide), if_pos rfl]

theorem takes_self_iff (h : isWild t = false) : Takes t piece ↔ piece = [t] := by
  obtain ⟨hstar, hany⟩ : t ≠ CodePoint.ofChar '*' ∧ t ≠ CodePoint.ofChar '?' := by
    simpa [isWild] using h
  rw [Takes, if_neg hstar, if_neg hany]

/-- What is no star takes exactly one code point. -/
theorem takes_iff_of_ne_star (h : t ≠ CodePoint.ofChar '*') :
    Takes t piece ↔
      ∃ c, piece = [c] ∧ (if t = '?' then c != CodePoint.ofChar '/' else c == t) = true := by
  by_cases hany : t = CodePoint.ofChar '?'
  · subst hany
    simp only [takes_any_iff, if_true]
    constructor
    · rintro ⟨c, hc, rfl⟩
      exact ⟨c, rfl, bne_iff_ne.mpr hc⟩
    · rintro ⟨c, rfl, hc⟩
      exact ⟨c, bne_iff_ne.mp hc, rfl⟩
  · rw [Takes, if_neg h, if_neg hany]
    simp only [if_neg hany]
    constructor
    · rintro rfl
      exact ⟨t, rfl, beq_self_eq_true t⟩
    · rintro ⟨c, rfl, hc⟩
      rw [beq_iff_eq.mp hc]

/-- A wildcard takes every single code point but a slash. -/
theorem takes_singleton_iff {c : CodePoint} :
    Takes t [c] ↔ if isWild t = true then c ≠ CodePoint.ofChar '/' else c = t := by
  split
  · next hwild =>
    have hcases : t = CodePoint.ofChar '*' ∨ t = CodePoint.ofChar '?' := by
      simpa [isWild] using hwild
    rcases hcases with rfl | rfl
    · rw [takes_star_iff, List.mem_singleton]
      exact ne_comm
    · simp
  · next hself =>
    rw [takes_self_iff (Bool.eq_false_iff.mpr hself)]
    exact List.singleton_inj

/-- Only a slash takes a slash. -/
theorem slash_not_mem_of_takes (h : Takes t piece) (ht : t ≠ CodePoint.ofChar '/') :
    CodePoint.ofChar '/' ∉ piece := by
  unfold Takes at h
  split at h
  · exact h
  · split at h
    · obtain ⟨c, hc, rfl⟩ := h
      rw [List.mem_singleton]
      exact hc.symm
    · rw [h, List.mem_singleton]
      exact ht.symm

/-! ## The language of a template -/

@[simp] theorem Matches.nil_iff : Matches [] text ↔ text = [] := by
  constructor
  · intro h
    cases h
    rfl
  · rintro rfl
    exact .nil

/-- The first code point of a template takes the beginning of the text. -/
theorem Matches.cons_iff :
    Matches (t :: template) text ↔
      ∃ piece rest, text = piece ++ rest ∧ Takes t piece ∧ Matches template rest := by
  constructor
  · intro h
    cases h with
    | star hrun hrest => exact ⟨_, _, rfl, takes_star_iff.mpr hrun, hrest⟩
    | @any _ rest c hc hrest => exact ⟨[c], rest, rfl, takes_any_iff.mpr ⟨c, hc, rfl⟩, hrest⟩
    | @self _ rest c hc hrest => exact ⟨[t], rest, rfl, (takes_self_iff hc).mpr rfl, hrest⟩
  · rintro ⟨piece, rest, rfl, htakes, hrest⟩
    by_cases hstar : t = CodePoint.ofChar '*'
    · subst hstar
      exact .star (takes_star_iff.mp htakes) hrest
    by_cases hany : t = CodePoint.ofChar '?'
    · subst hany
      obtain ⟨c, hc, rfl⟩ := takes_any_iff.mp htakes
      exact .any hc hrest
    · have hself : isWild t = false := by simp [isWild, hstar, hany]
      rw [(takes_self_iff hself).mp htakes]
      exact .self hself hrest

/-- One template and then another match one text and then another. -/
theorem Matches.append_iff {next : Text} :
    Matches (template ++ next) text ↔
      ∃ first second, text = first ++ second ∧ Matches template first ∧ Matches next second := by
  induction template generalizing text with
  | nil => simp
  | cons t template ih =>
    simp only [List.cons_append, Matches.cons_iff, ih]
    constructor
    · rintro ⟨piece, _, rfl, htakes, first, second, rfl, hfirst, hsecond⟩
      exact ⟨piece ++ first, second, (List.append_assoc ..).symm,
        ⟨piece, first, rfl, htakes, hfirst⟩, hsecond⟩
    · rintro ⟨_, second, rfl, ⟨piece, first, rfl, htakes, hfirst⟩, hsecond⟩
      exact ⟨piece, first ++ second, List.append_assoc .., htakes, first, second, rfl, hfirst,
        hsecond⟩

/-- A template matches a text of its length if each of its code points takes the one in its place. -/
theorem Matches.of_forall₂ (h : List.Forall₂ (fun t c => Takes t [c]) template text) :
    Matches template text := by
  induction h with
  | nil => exact .nil
  | @cons t c template text htakes _ ih => exact Matches.cons_iff.mpr ⟨[c], text, rfl, htakes, ih⟩

/-- Every template matches itself: its stars and question marks take themselves. -/
theorem Matches.refl (template : Text) : Matches template template := by
  apply Matches.of_forall₂
  apply List.forall₂_same.mpr
  intro t _
  rw [takes_singleton_iff]
  split
  · next hwild =>
    rintro rfl
    exact absurd hwild (by decide)
  · rfl

/-- A template without wildcards matches itself only. -/
theorem Matches.iff_eq_of_not_wild (hwild : ∀ t ∈ template, isWild t = false) :
    Matches template text ↔ text = template := by
  constructor
  · intro h
    induction template generalizing text with
    | nil => exact Matches.nil_iff.mp h
    | cons t template ih =>
      obtain ⟨piece, rest, rfl, htakes, hrest⟩ := Matches.cons_iff.mp h
      rw [(takes_self_iff (hwild t List.mem_cons_self)).mp htakes,
        ih (fun s hs => hwild s (List.mem_cons_of_mem t hs)) hrest]
      rfl
  · rintro rfl
    exact .refl text

/-- A template with wildcards matches other texts too: for one, the text with letters in their place. -/
theorem Matches.exists_ne (hwild : ∃ t ∈ template, isWild t = true) :
    ∃ text, text ≠ template ∧ Matches template text := by
  let letter (t : CodePoint) : CodePoint := if isWild t then CodePoint.ofChar 'x' else t
  refine ⟨template.map letter, ?_, ?_⟩
  · intro heq
    obtain ⟨t, ht, hwild⟩ := hwild
    have hletter : letter t = CodePoint.ofChar 'x' := if_pos hwild
    have hsame : letter t = t := List.map_inj_left.mp (heq.trans template.map_id.symm) t ht
    rw [← hsame, hletter] at hwild
    exact absurd hwild (by decide)
  · apply Matches.of_forall₂
    rw [List.forall₂_map_right_iff, List.forall₂_same]
    intro t _
    rw [takes_singleton_iff]
    split
    · next hwild =>
      rw [show letter t = CodePoint.ofChar 'x' from if_pos hwild]
      decide
    · next hself => exact if_neg hself

/-- A text that a template without slashes matches has no slashes. -/
theorem Matches.slash_not_mem (h : Matches template text)
    (hslash : CodePoint.ofChar '/' ∉ template) : CodePoint.ofChar '/' ∉ text := by
  induction template generalizing text with
  | nil =>
    rw [Matches.nil_iff.mp h]
    exact List.not_mem_nil
  | cons t template ih =>
    obtain ⟨piece, rest, rfl, htakes, hrest⟩ := Matches.cons_iff.mp h
    rw [List.mem_cons, not_or] at hslash
    rw [List.mem_append, not_or]
    exact ⟨slash_not_mem_of_takes htakes (Ne.symm hslash.1), ih hrest hslash.2⟩

/-- The language of a template, piece by piece. -/
theorem Matches.iff_exists_pieces :
    Matches template text ↔
      ∃ pieces : List Text, pieces.flatten = text ∧ List.Forall₂ Takes template pieces := by
  induction template generalizing text with
  | nil =>
    rw [Matches.nil_iff]
    constructor
    · rintro rfl
      exact ⟨[], rfl, .nil⟩
    · rintro ⟨pieces, rfl, hpieces⟩
      cases hpieces
      rfl
  | cons t template ih =>
    simp only [Matches.cons_iff, ih]
    constructor
    · rintro ⟨piece, _, rfl, htakes, pieces, rfl, hpieces⟩
      exact ⟨piece :: pieces, rfl, .cons htakes hpieces⟩
    · rintro ⟨_, rfl, hpieces⟩
      cases hpieces with
      | @cons _ piece _ pieces htakes hpieces =>
        exact ⟨piece, pieces.flatten, rfl, htakes, pieces, rfl, hpieces⟩

/-! ## Segments -/

/-- A template without slashes, and another one behind a slash, match the text before the first slash and
the text behind it. -/
theorem Matches.append_slash_iff {next : Text} (hslash : CodePoint.ofChar '/' ∉ template) :
    Matches (template ++ CodePoint.ofChar '/' :: next) text ↔
      ∃ first second, text = first ++ CodePoint.ofChar '/' :: second ∧
        CodePoint.ofChar '/' ∉ first ∧ Matches template first ∧ Matches next second := by
  rw [Matches.append_iff]
  constructor
  · rintro ⟨first, _, rfl, hfirst, hsecond⟩
    obtain ⟨piece, second, rfl, hpiece, hsecond⟩ := Matches.cons_iff.mp hsecond
    rw [(takes_self_iff (by decide)).mp hpiece]
    exact ⟨first, second, rfl, hfirst.slash_not_mem hslash, hfirst, hsecond⟩
  · rintro ⟨first, second, rfl, -, hfirst, hsecond⟩
    exact ⟨first, CodePoint.ofChar '/' :: second, rfl, hfirst, .self (by decide) hsecond⟩

/-- Segments with slashes in between match segment by segment. -/
theorem Matches.glue_iff {segments : List Text} (hne : segments ≠ [])
    (hslash : ∀ s ∈ segments, CodePoint.ofChar '/' ∉ s) :
    Matches (glue (CodePoint.ofChar '/') segments) text ↔
      List.Forall₂ Matches segments (cut (CodePoint.ofChar '/') text) := by
  induction segments generalizing text with
  | nil => exact absurd rfl hne
  | cons s segments ih =>
    have hs : CodePoint.ofChar '/' ∉ s := hslash s List.mem_cons_self
    cases segments with
    | nil =>
      rw [glue]
      constructor
      · intro h
        rw [cut_of_not_mem (h.slash_not_mem hs)]
        exact .cons h .nil
      · intro h
        obtain ⟨piece, pieces, hpiece, hpieces, hcut⟩ := List.forall₂_cons_left_iff.mp h
        rw [List.forall₂_nil_left_iff.mp hpieces] at hcut
        rw [← glue_cut (CodePoint.ofChar '/') text, hcut]
        exact hpiece
    | cons next segments =>
      have hrest (t : Text) := @ih t (List.cons_ne_nil next segments)
        fun t ht => hslash t (List.mem_cons_of_mem s ht)
      rw [glue, Matches.append_slash_iff hs]
      constructor
      · rintro ⟨first, second, rfl, hfree, hfirst, hsecond⟩
        rw [cut_append, cut_of_not_mem hfree]
        exact .cons hfirst ((hrest second).mp hsecond)
      · intro h
        obtain ⟨first, pieces, hfirst, hpieces, hcut⟩ := List.forall₂_cons_left_iff.mp h
        -- there are segments left, so the text goes on behind its first piece
        have hlater : pieces ≠ [] := by
          rintro rfl
          cases hpieces
        obtain ⟨second, rfl, hsecond⟩ := exists_of_cut_eq_cons hcut hlater
        rw [← hsecond] at hpieces
        have hfree : CodePoint.ofChar '/' ∉ first := by
          apply not_mem_of_mem_cut
          rw [hcut]
          exact List.mem_cons_self
        exact ⟨first, second, rfl, hfree, hfirst, (hrest second).mpr hpieces⟩

/-- A template matches a text exactly when the segments of the one match the segments of the other. -/
theorem Matches.iff_segments :
    Matches template text ↔
      List.Forall₂ Matches (Text.split '/' template) (Text.split '/' text) := by
  conv_lhs => rw [← glue_cut (CodePoint.ofChar '/') template]
  exact Matches.glue_iff (cut_ne_nil _ _) fun s hs => not_mem_of_mem_cut hs

/-! ## The search for pieces -/

/-- `afterRun` tries every run without a slash at the beginning of the text. -/
theorem afterRun_iff {accepts : Text → Bool} :
    afterRun accepts text = true ↔
      ∃ run rest, text = run ++ rest ∧ CodePoint.ofChar '/' ∉ run ∧ accepts rest = true := by
  induction text with
  | nil =>
    rw [afterRun]
    constructor
    · intro h
      exact ⟨[], [], rfl, List.not_mem_nil, h⟩
    · rintro ⟨run, rest, htext, -, h⟩
      rwa [(List.append_eq_nil_iff.mp htext.symm).2] at h
  | cons c text ih =>
    rw [afterRun, Bool.or_eq_true, Bool.and_eq_true, bne_iff_ne, ih]
    constructor
    · rintro (h | ⟨hc, run, rest, rfl, hrun, h⟩)
      · exact ⟨[], c :: text, rfl, List.not_mem_nil, h⟩
      · refine ⟨c :: run, rest, rfl, ?_, h⟩
        rw [List.mem_cons, not_or]
        exact ⟨hc.symm, hrun⟩
    · rintro ⟨run, rest, htext, hrun, h⟩
      cases run with
      | nil =>
        rw [htext]
        exact Or.inl h
      | cons d run =>
        obtain ⟨rfl, rfl⟩ := List.cons.inj htext
        rw [List.mem_cons, not_or] at hrun
        exact Or.inr ⟨Ne.symm hrun.1, run, rest, rfl, hrun.2, h⟩

theorem matches_star (template text : Text) :
    «matches» (CodePoint.ofChar '*' :: template) text = afterRun («matches» template) text := by
  cases text with
  | nil => rw [«matches», if_pos rfl]
  | cons c text => rw [«matches», if_pos rfl]

/-- The search decides the language. -/
theorem matches_iff : «matches» template text = true ↔ Matches template text := by
  induction template generalizing text with
  | nil => rw [«matches», List.isEmpty_iff, Matches.nil_iff]
  | cons t template ih =>
    rw [Matches.cons_iff]
    by_cases hstar : t = CodePoint.ofChar '*'
    · subst hstar
      rw [matches_star, afterRun_iff]
      simp only [takes_star_iff, ih]
    · simp only [takes_iff_of_ne_star hstar]
      cases text with
      | nil =>
        rw [«matches», if_neg hstar]
        simp
      | cons c text =>
        rw [«matches», if_neg hstar, Bool.and_eq_true, ih]
        constructor
        · rintro ⟨hc, hrest⟩
          exact ⟨[c], text, rfl, ⟨c, rfl, hc⟩, hrest⟩
        · rintro ⟨_, rest, htext, ⟨d, rfl, hd⟩, hrest⟩
          obtain ⟨rfl, rfl⟩ := List.cons.inj htext
          exact ⟨hd, hrest⟩

instance (template text : Text) : Decidable (Matches template text) :=
  decidable_of_iff _ matches_iff

end

/-- A template matches exactly the texts that can be cut into consecutive pieces, one for each code point
of the template, which takes it. -/
theorem matches_iff_exists_pieces (template text : Text) :
    «matches» template text = true ↔
      ∃ pieces : List Text, pieces.flatten = text ∧ List.Forall₂ Takes template pieces :=
  matches_iff.trans Matches.iff_exists_pieces

/-- Neither a line break nor a point means anything special, and no wildcard takes a slash. -/
example : Matches "?.*" "a.\n" ∧ ¬ Matches "?.*" "abc" ∧ ¬ Matches "a*" "a/b" := by decide

end Wildcard

end BundleManifest
