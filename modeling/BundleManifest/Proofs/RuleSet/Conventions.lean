/-
# BundleManifest.Proofs.RuleSet.Conventions — one line in either file

Both files read a line in the same way up to its blanks and comments, and then the basic file takes it for
a name and the pattern file for a template. Without separators the template is compared with the name of a
file (`excludes_unseparated_iff`), and every template matches itself. So what the line excludes in the basic
file it excludes in the pattern file too, and it excludes more there exactly if it has a wildcard
(`pattern_file_excludes_more`).
-/
import BundleManifest.Proofs.Pattern.Canonical
import BundleManifest.Proofs.Pattern.Language
import BundleManifest.Proofs.RuleSet.Union

namespace BundleManifest

namespace Pattern

section
variable {line : Text} (hline : ∀ c ∈ line, ¬ c.IsSeparator)
include hline

theorem replace_of_unseparated : Text.replace '\\' '/' line = line :=
  Text.replace_of_not_mem fun hmem => hline _ hmem (Or.inr rfl)

/-- A line without separators is its only part. -/
theorem parts_of_unseparated (hne : line ≠ []) : parts line = [line] := by
  have hslash : CodePoint.ofChar '/' ∉ line := fun hmem => hline _ hmem (Or.inl rfl)
  unfold parts
  rw [replace_of_unseparated hline, Text.split, cut_of_not_mem hslash,
    List.filter_cons_of_pos (by simpa using hne), List.filter_nil]

/-- It is neither tied to the root nor about directories. -/
theorem ends_of_unseparated : isOpened line = false ∧ isClosed line = false := by
  have hslash : CodePoint.ofChar '/' ∉ line := fun hmem => hline _ hmem (Or.inl rfl)
  unfold isOpened isClosed
  rw [replace_of_unseparated hline, beq_eq_false_iff_ne, beq_eq_false_iff_ne]
  exact ⟨fun h => hslash (List.mem_of_head? h), fun h => hslash (List.mem_of_getLast? h)⟩

/-- A line without separators is a rule, unless it says nothing, and its body is the whole line. -/
theorem parse?_of_unseparated (hmeans : ¬ SaysNothing line) :
    parse? line = some ⟨Text.trim line, .ofFlags false ((Text.trim line).any Wildcard.isWild),
      Text.trim line, false⟩ := by
  have htrim (c : CodePoint) (hc : c ∈ Text.trim line) : ¬ c.IsSeparator := fun hsep =>
    hline c ((Text.mem_trim_iff hsep.isBlank).mp hc) hsep
  have hne : Text.trim line ≠ [] := fun hnil => hmeans (Or.inl hnil)
  have hparts := parts_of_unseparated htrim hne
  obtain ⟨hopened, hclosed⟩ := ends_of_unseparated htrim
  rw [parse?_eq_some_iff, hparts]
  refine ⟨hmeans, List.cons_ne_nil _ _, ?_⟩
  unfold ofTrimmed
  rw [hparts, hopened, hclosed]
  rfl

/-- Such a rule is a template for the names of files. -/
theorem excludes_unseparated_iff {c : Candidate} :
    (∃ p, parse? line = some p ∧ p.excludes c = true) ↔
      ¬ SaysNothing line ∧ Wildcard.Matches (Text.trim line) c.name := by
  by_cases hnothing : SaysNothing line
  · have hnone : parse? line = none := parse?_eq_none_iff.mpr (Or.inl hnothing)
    simp [hnone, hnothing]
  have hparse := parse?_of_unseparated hline hnothing
  simp only [hparse, Option.some.injEq, exists_eq_left', hnothing, not_false_eq_true, true_and]
  have hslash : (Text.trim line).contains (CodePoint.ofChar '/') = false := by
    rw [Bool.eq_false_iff, ne_eq, List.contains_iff_mem, Text.mem_trim_iff (by decide)]
    exact fun hmem => hline _ hmem (Or.inl rfl)
  have hsubject (kind : PatternKind) :
      subject ⟨Text.trim line, kind, Text.trim line, false⟩ c = c.name := by
    unfold subject hasSeparator
    rw [hslash]
    rfl
  cases hwild : (Text.trim line).any Wildcard.isWild with
  | true =>
    show Wildcard.matches (Text.trim line) (subject _ c) = true ↔ _
    rw [hsubject, Wildcard.matches_iff]
  | false =>
    have hself : ∀ t ∈ Text.trim line, Wildcard.isWild t = false := by simpa using hwild
    show (subject _ c == Text.trim line) = true ↔ _
    rw [hsubject, beq_iff_eq, Wildcard.Matches.iff_eq_of_not_wild hself]

end

end Pattern

namespace RuleSet

/-- A line of the basic file excludes the files of one name. -/
theorem excludes_basic_iff {line : Text} {c : Candidate} :
    (parse [line] []).excludes c = true ↔ ¬ SaysNothing line ∧ c.name = Text.trim line := by
  rw [excludes_parse_iff]
  simp only [List.mem_singleton, exists_eq_left, List.not_mem_nil, false_and, exists_false, or_false]
  constructor
  · intro h
    refine ⟨fun hnothing => ?_, cleanLine?_eq_some h⟩
    rw [cleanLine?_eq_none_iff.mpr hnothing] at h
    cases h
  · rintro ⟨hmeans, hname⟩
    obtain ⟨text, htext⟩ := Option.ne_none_iff_exists'.mp (mt cleanLine?_eq_none_iff.mp hmeans)
    rw [htext, hname, cleanLine?_eq_some htext]

/-- A line of the pattern file, if it has no separators, excludes the files whose name it matches. -/
theorem excludes_enhanced_iff {line : Text} (hline : ∀ c ∈ line, ¬ c.IsSeparator) {c : Candidate} :
    (parse [] [line]).excludes c = true ↔
      ¬ SaysNothing line ∧ Wildcard.Matches (Text.trim line) c.name := by
  rw [excludes_parse_iff, ← Pattern.excludes_unseparated_iff hline]
  simp

/-- What a line without separators excludes as a line of the basic file it excludes as a line of the pattern
file, and it excludes the same there exactly if it says nothing or has no wildcard. -/
theorem pattern_file_excludes_more {line : Text} (hslash : CodePoint.ofChar '/' ∉ line)
    (hback : CodePoint.ofChar '\\' ∉ line) :
    (∀ c, (parse [line] []).excludes c = true → (parse [] [line]).excludes c = true) ∧
    ((∀ c, (parse [line] []).excludes c = (parse [] [line]).excludes c) ↔
      SaysNothing line ∨ CodePoint.ofChar '*' ∉ line ∧ CodePoint.ofChar '?' ∉ line) := by
  have hline : ∀ c ∈ line, ¬ c.IsSeparator := by
    rintro c hc (rfl | rfl)
    · exact hslash hc
    · exact hback hc
  have hmore (c : Candidate) (h : (parse [line] []).excludes c = true) :
      (parse [] [line]).excludes c = true := by
    obtain ⟨hmeans, hname⟩ := excludes_basic_iff.mp h
    rw [excludes_enhanced_iff hline, hname]
    exact ⟨hmeans, .refl _⟩
  -- trimming takes no wildcard away
  have hwild : (∃ t ∈ Text.trim line, Wildcard.isWild t = true) ↔
      CodePoint.ofChar '*' ∈ line ∨ CodePoint.ofChar '?' ∈ line := by
    rw [Wildcard.exists_isWild_iff, Text.mem_trim_iff (by decide), Text.mem_trim_iff (by decide)]
  refine ⟨hmore, ?_⟩
  rw [← not_or, ← hwild]
  constructor
  · intro hsame
    by_contra hdiffers
    rw [not_or, not_not] at hdiffers
    obtain ⟨hmeans, hexists⟩ := hdiffers
    obtain ⟨name, hne, hname⟩ := Wildcard.Matches.exists_ne hexists
    have hexcluded : (parse [] [line]).excludes ⟨name, [name]⟩ = true :=
      (excludes_enhanced_iff hline).mpr ⟨hmeans, hname⟩
    rw [← hsame] at hexcluded
    exact hne (excludes_basic_iff.mp hexcluded).2
  · intro h c
    rw [Bool.eq_iff_iff, excludes_basic_iff, excludes_enhanced_iff hline]
    apply and_congr_right
    intro hmeans
    have hself : ∀ t ∈ Text.trim line, Wildcard.isWild t = false := by
      simpa using h.resolve_left hmeans
    exact (Wildcard.Matches.iff_eq_of_not_wild hself).symm

/-- The name of a file that looks like a template excludes this file in either way, and the template excludes
another one besides. -/
theorem pattern_file_excludes_more_log :
    CodePoint.ofChar '/' ∉ (" *.log" : Text) ∧ CodePoint.ofChar '\\' ∉ (" *.log" : Text) ∧
    (parse [] [" *.log"]).excludes (.ofPath "old/*.log") = true ∧
    ∃ c, (parse [" *.log"] []).excludes c ≠ (parse [] [" *.log"]).excludes c := by
  have hslash : CodePoint.ofChar '/' ∉ (" *.log" : Text) := by decide
  have hback : CodePoint.ofChar '\\' ∉ (" *.log" : Text) := by decide
  obtain ⟨hmore, hsame⟩ := pattern_file_excludes_more hslash hback
  refine ⟨hslash, hback, hmore _ (by decide), ?_⟩
  rw [← not_forall, hsame]
  decide

end RuleSet

end BundleManifest
