/-
# BundleManifest.Proofs.Text.Breaks — lines that a line feed, a carriage return or both end

`Text.lines` gives a line that holds no boundary as it is, whichever line break ends it
(`lines_append_break`). Only one thing can happen to lines beside each other: a carriage return and a line
feed that end two lines, the second of them empty, are one line break, and the empty line is lost.
-/
import BundleManifest.Text.Line
import Mathlib

namespace BundleManifest

/-- What ends a line. -/
inductive LineBreak where
  | lineFeed
  | carriageReturn
  /-- A carriage return and a line feed. -/
  | both
  deriving DecidableEq, Repr

/-- The text of a line break. -/
def LineBreak.text : LineBreak → Text
  | lineFeed => ['\n']
  | carriageReturn => ['\r']
  | both => ['\r', '\n']

namespace Text

theorem unifyBreaks_cons {c : CodePoint} (hc : c ≠ CodePoint.ofChar '\r') (t : Text) :
    unifyBreaks (c :: t) = c :: unifyBreaks t := by
  cases t with
  | nil => simp only [unifyBreaks, if_neg hc]
  | cons d t => rw [unifyBreaks, if_neg hc]

/-- No line ends in the text. -/
def IsUnbroken (t : Text) : Prop := ∀ c ∈ t, c.isLineBoundary = false

instance (t : Text) : Decidable t.IsUnbroken := List.decidableBAll _ t

section
variable {line : Text} (h : line.IsUnbroken)
include h

theorem IsUnbroken.not_mem {c : CodePoint} (hc : c.isLineBoundary = true) : c ∉ line := by
  intro hmem
  rw [h c hmem] at hc
  cases hc

/-- What stands before the first line break stays as it is. -/
theorem unifyBreaks_append (t : Text) : unifyBreaks (line ++ t) = line ++ unifyBreaks t := by
  induction line with
  | nil => rfl
  | cons c line ih =>
    have hc : c ≠ CodePoint.ofChar '\r' := by
      rintro rfl
      exact h.not_mem (by decide) List.mem_cons_self
    rw [List.cons_append, unifyBreaks_cons hc, ih fun d hd => h d (List.mem_cons_of_mem c hd)]
    rfl

theorem splitLines_append (t : Text) :
    splitLines (line ++ CodePoint.ofChar '\n' :: t) = line :: splitLines t := by
  induction line with
  | nil => rfl
  | cons c line ih =>
    obtain ⟨hc, hrest⟩ := List.forall_mem_cons.mp h
    rw [List.cons_append, splitLines, hc, ih hrest]
    rfl

/-- A text without line breaks is one line, unless it is empty. -/
theorem lines_of_isUnbroken : lines line = if line = [] then [] else [line] := by
  have hunified : unifyBreaks line = line := by
    have happend := unifyBreaks_append h []
    rw [List.append_nil, unifyBreaks, List.append_nil] at happend
    exact happend
  unfold lines
  rw [hunified]
  clear hunified
  induction line with
  | nil => rfl
  | cons c line ih =>
    obtain ⟨hc, hrest⟩ := List.forall_mem_cons.mp h
    rw [splitLines, hc, ih hrest]
    cases line <;> rfl

/-- A line that is ended is followed by the lines of what follows it, unless a carriage return that ends
it makes a line break with a line feed. -/
theorem lines_append_break {b : LineBreak} {t : Text}
    (ht : b = .carriageReturn → t.head? ≠ some (CodePoint.ofChar '\n')) :
    lines (line ++ (b.text ++ t)) = line :: lines t := by
  have hcr : CodePoint.ofChar '\n' ≠ CodePoint.ofChar '\r' := by decide
  have hunified : unifyBreaks (b.text ++ t) = CodePoint.ofChar '\n' :: unifyBreaks t := by
    cases b with
    | lineFeed =>
      show unifyBreaks (CodePoint.ofChar '\n' :: t) = _
      exact unifyBreaks_cons hcr t
    | both =>
      show unifyBreaks (CodePoint.ofChar '\r' :: CodePoint.ofChar '\n' :: t) = _
      rw [unifyBreaks, if_pos rfl, if_pos rfl]
    | carriageReturn =>
      show unifyBreaks (CodePoint.ofChar '\r' :: t) = _
      cases t with
      | nil => simp [unifyBreaks]
      | cons c t =>
        have hc : c ≠ CodePoint.ofChar '\n' := fun heq => ht rfl (congrArg some heq)
        rw [unifyBreaks, if_pos rfl, if_neg hc]
  unfold lines
  rw [unifyBreaks_append h, hunified, splitLines_append h]

end

end Text

end BundleManifest
