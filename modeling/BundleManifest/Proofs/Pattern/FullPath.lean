/-
# BundleManifest.Proofs.Pattern.FullPath — wildcards that are compared with whole paths

A wildcard rule that is written with a separator is about the path of a file and not about its name
(`comparesPath_of_mem_isSeparator`). No wildcard takes a slash, so its stars can neither swallow a slash of
the path nor make one up, and the comparison comes to one comparison for each segment, the same that
directory rules make (`excludes_iff_segments`).
-/
import BundleManifest.Proofs.Pattern.Canonical
import BundleManifest.Proofs.Pattern.Directories

namespace BundleManifest

/-- Where two groups of pieces are joined stands a separator. -/
theorem sep_mem_glue_append {α : Type} (sep : α) {before after : List (List α)} (hbefore : before ≠ [])
    (hafter : after ≠ []) : sep ∈ glue sep (before ++ after) := by
  obtain ⟨first, before, rfl⟩ := List.exists_cons_of_ne_nil hbefore
  obtain ⟨next, others, hnext⟩ := List.exists_cons_of_ne_nil
    (List.append_ne_nil_of_right_ne_nil before hafter)
  rw [List.cons_append, hnext, glue]
  exact List.mem_append_right _ List.mem_cons_self

namespace Pattern

/-! ## Rules that are written with a separator -/

section
variable {t : Text}

/-- A text without parts is made of separators, so it begins and ends with one. -/
theorem opened_and_closed_of_parts_eq_nil (hne : t ≠ []) (hnil : parts t = []) :
    isOpened t = true ∧ isClosed t = true := by
  have hslash : ∀ c ∈ Text.replace '\\' '/' t, c = CodePoint.ofChar '/' := by
    apply forall_mem_cut_eq_nil_iff.mp
    simpa [parts, Text.split] using hnil
  have hline : Text.replace '\\' '/' t ≠ [] := fun hempty => hne (List.map_eq_nil_iff.mp hempty)
  constructor
  · rw [isOpened, List.head?_eq_some_head hline, hslash _ (List.head_mem hline), beq_self_eq_true]
  · rw [isClosed, List.getLast?_eq_some_getLast hline, hslash _ (List.getLast_mem hline),
      beq_self_eq_true]

/-- A separator in a line stands in front of everything else, behind it, or between two parts. -/
theorem mem_body_of_mem_isSeparator {c : CodePoint} (hmem : c ∈ t) (hc : c.IsSeparator)
    (hopened : isOpened t = false) (hclosed : isClosed t = false) :
    CodePoint.ofChar '/' ∈ Text.join '/' (parts t) := by
  obtain ⟨before, after, rfl⟩ := List.append_of_mem hmem
  rw [isOpened_append_cons hc, Bool.or_eq_false_iff, List.isEmpty_eq_false_iff] at hopened
  rw [isClosed_append_cons hc, Bool.or_eq_false_iff, List.isEmpty_eq_false_iff] at hclosed
  rw [parts_append_cons hc]
  apply sep_mem_glue_append
  · intro hnil
    have htrue := (opened_and_closed_of_parts_eq_nil hopened.1 hnil).1
    rw [hopened.2] at htrue
    cases htrue
  · intro hnil
    have htrue := (opened_and_closed_of_parts_eq_nil hclosed.1 hnil).2
    rw [hclosed.2] at htrue
    cases htrue

end

/-- A rule about files that is written with a separator has one in its body, or is tied to the root. -/
theorem comparesPath_of_mem_isSeparator {line : Text} {p : Pattern} (hp : parse? line = some p)
    (hfile : p.kind.isDirectory = false) (hline : ∃ c ∈ line, c.IsSeparator) :
    (p.hasSeparator || p.anchored) = true := by
  obtain ⟨-, -, rfl⟩ := parse?_eq_some_iff.mp hp
  obtain ⟨c, hmem, hc⟩ := hline
  have htrim : c ∈ Text.trim line := (Text.mem_trim_iff hc.isBlank).mpr hmem
  have hclosed : isClosed (Text.trim line) = false := by
    rw [← hfile]
    exact (PatternKind.isDirectory_ofFlags _ _).symm
  cases hopened : isOpened (Text.trim line) with
  | true => rw [show (ofTrimmed (Text.trim line)).anchored = true from hopened, Bool.or_true]
  | false =>
    rw [Bool.or_eq_true]
    left
    apply List.contains_iff_mem.mpr
    exact mem_body_of_mem_isSeparator htrim hc hopened hclosed

/-! ## Segment by segment -/

/-- The rule with the same body that is about directories. -/
def directoryRule (p : Pattern) : Pattern := { p with kind := .ofFlags true p.kind.isWildcard }

theorem directoryRule_segmentAccepts (p : Pattern) :
    p.directoryRule.segmentAccepts = p.segmentAccepts := by
  unfold segmentAccepts directoryRule
  rw [PatternKind.isWildcard_ofFlags]

/-- A template compared with a whole path. -/
theorem matches_iff_segmentAccepts {p : Pattern} (hwild : p.kind.isWildcard = true) (path : Text) :
    Wildcard.matches p.body path = true ↔
      p.segments.length = (Text.split '/' path).length ∧
        ∀ pair ∈ p.segments.zip (Text.split '/' path), p.segmentAccepts pair.1 pair.2 = true := by
  have haccepts : p.segmentAccepts = Wildcard.matches := if_pos hwild
  rw [Wildcard.matches_iff, Wildcard.Matches.iff_segments, List.forall₂_iff_zip, haccepts]
  apply and_congr_right
  intro _
  simp only [Wildcard.matches_iff, Prod.forall]
  rfl

/-- A wildcard rule that is written with a separator excludes exactly the files whose path has as many
segments as the rule, each of which matches the segment of the rule in its place, compared as wildcard
rules about directories compare. So it excludes no file at another depth. (The segments of a path are what
stands between its slashes: the empty path has one, which is empty.) -/
theorem excludes_iff_segments {line : Text} {p : Pattern} {c : Candidate} (hp : parse? line = some p)
    (hkind : p.kind = .wildcard) (hline : ∃ d ∈ line, d.IsSeparator)
    (hsegments : ∀ s ∈ c.segments, s ≠ [] ∧ CodePoint.ofChar '/' ∉ s)
    (hpath : c.path = Text.join '/' c.segments) :
    (p.excludes c = true ↔
      p.segments.length = (Text.split '/' c.path).length ∧
        ∀ pair ∈ p.segments.zip (Text.split '/' c.path),
          p.directoryRule.segmentAccepts pair.1 pair.2 = true) ∧
    (c.segments ≠ [] → Text.split '/' c.path = c.segments) ∧
    (c.segments ≠ [] → c.segments.length ≠ p.segments.length → p.excludes c = false) := by
  have hexcludes : p.excludes c = Wildcard.matches p.body c.path := by
    have hsubject : p.subject c = c.path :=
      if_pos (comparesPath_of_mem_isSeparator hp (hkind ▸ rfl) hline)
    unfold excludes
    rw [hkind, ← hsubject]
  have hsplit : c.segments ≠ [] → Text.split '/' c.path = c.segments := by
    intro hne
    rw [hpath]
    exact cut_glue hne fun s hs => (hsegments s hs).2
  have hiff := matches_iff_segmentAccepts (p := p) (hkind ▸ rfl) c.path
  rw [← hexcludes] at hiff
  refine ⟨?_, hsplit, ?_⟩
  · rw [hiff, directoryRule_segmentAccepts]
  · intro hne hdepth
    rw [Bool.eq_false_iff]
    intro hexcluded
    rw [hiff, hsplit hne] at hexcluded
    exact hdepth hexcluded.1.symm

/-- A rule of three segments excludes a file at its depth, and not the same file one directory deeper. -/
theorem excludes_iff_segments_generated :
    let rule : Pattern := ⟨"src\\*/?.gen*", .wildcard, "src/*/?.gen*", false⟩
    let file : Candidate := ⟨"src/deep/a.gen.py", ["src", "deep", "a.gen.py"]⟩
    let deeper : Candidate := ⟨"src/deep/er/a.gen.py", ["src", "deep", "er", "a.gen.py"]⟩
    parse? "src\\*/?.gen*" = some rule ∧ rule.excludes file = true ∧ rule.excludes deeper = false := by
  intro rule file deeper
  have hparse : parse? "src\\*/?.gen*" = some rule := by decide
  have hline : ∃ d ∈ ("src\\*/?.gen*" : Text), d.IsSeparator :=
    ⟨CodePoint.ofChar '/', by decide, Or.inl rfl⟩
  obtain ⟨hexcludes, -, -⟩ := excludes_iff_segments (c := file) hparse rfl hline (by decide) (by decide)
  obtain ⟨-, -, hdepth⟩ := excludes_iff_segments (c := deeper) hparse rfl hline (by decide) (by decide)
  exact ⟨hparse, hexcludes.mpr (by decide), hdepth (by decide) (by decide)⟩

end Pattern

end BundleManifest
