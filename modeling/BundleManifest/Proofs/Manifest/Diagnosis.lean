/-
# BundleManifest.Proofs.Manifest.Diagnosis — trying a line out tells what it does

`Pattern.excludedBy` lists the files that one line alone would exclude, so that a rule can be tried out
before it is added. It looks at the line and the walk only; a manifest is made with all the other rules,
from a selection that leaves further paths out. Still both agree: with one more line a manifest is the one
without it, less the paths that the line alone excludes (`generate_with_line`).
-/
import BundleManifest.Proofs.Manifest.Stages

namespace BundleManifest

/-! ## Trying a line out -/

namespace Pattern

theorem excludedBy_sublist (line : Text) (candidates : List Candidate) :
    (excludedBy line candidates).Sublist (candidates.map Candidate.path) := by
  unfold excludedBy
  split
  · exact List.nil_sublist _
  · exact List.filter_sublist.map _

/-- A line that is no rule excludes nothing. -/
theorem excludedBy_eq_nil {line : Text} (h : parse? line = none) (candidates : List Candidate) :
    excludedBy line candidates = [] := by
  rw [excludedBy, h]

/-- Among files that are known by their paths, a line excludes those that its rule excludes. -/
theorem mem_excludedBy_iff {line path : Text} {files : List Text} :
    path ∈ excludedBy line (files.map Candidate.under) ↔
      path ∈ files ∧ (parse? line).any (·.excludes (Candidate.under path)) = true := by
  cases hparse : parse? line with
  | none =>
    rw [excludedBy_eq_nil hparse]
    simp
  | some p =>
    simp only [excludedBy, hparse, List.mem_map, List.mem_filter, Option.any_some]
    constructor
    · rintro ⟨_, ⟨⟨file, hfile, rfl⟩, hexcludes⟩, rfl⟩
      exact ⟨hfile, hexcludes⟩
    · rintro ⟨hpath, hexcludes⟩
      exact ⟨Candidate.under path, ⟨⟨path, hpath, rfl⟩, hexcludes⟩, rfl⟩

end Pattern

/-- A line more excludes what its rule does. -/
theorem RuleSet.excludes_parse_snoc (basic lines : List Text) (line : Text) (c : Candidate) :
    (parse basic (lines ++ [line])).excludes c
      = ((parse basic lines).excludes c || (Pattern.parse? line).any (·.excludes c)) := by
  have happend := excludes_parse_append basic [] lines [line] c
  rw [List.append_nil] at happend
  rw [Bool.eq_iff_iff, happend, Bool.or_eq_true]
  apply or_congr Iff.rfl
  rw [excludes_parse_iff]
  cases hparse : Pattern.parse? line with
  | none => simp [hparse]
  | some p => simp [hparse]

namespace Manifest

section
variable {fs : FileSystem} {token : CancellationToken} {options : Options} {root : Path}

/-- Without an output a manifest is what is selected. -/
theorem generate_of_ready (hfs : fs.Sound) {loading : RuleSet.Loading}
    (hready : Ready fs options root loading []) (hout : options.output = none) :
    (generate fs token options root).result
      = (select fs token options root loading.rules []).result := by
  cases hselect : (select fs token options root loading.rules []).result with
  | error f =>
    unfold generate
    simp only [hready.probe, hready.load, hready.skip, hselect]
  | ok kept =>
    obtain ⟨d, hroot⟩ := stat_of_probe hready.probe
    rw [generate_of_stages hready.probe hready.load hready.skip hselect, hout,
      eraseDups_of_nodup (nodup_of_select hfs hroot hselect)]

/-- Without an output, and with patterns that the caller gives, a manifest is what these select, or the root
makes all of them fail alike. -/
theorem generate_eq_select_or_failure (hfs : fs.Sound) (token : CancellationToken)
    (hout : options.output = none) (root : Path) :
    (∃ d, fs.stat root.text = .ok d ∧ ∀ lines,
      (generate fs token { options with patterns := some lines } root).result
        = (select fs token options root
          (.parse (ruleLines fs (root.child RuleSet.basicFile)) lines) []).result) ∨
    ∃ f, ∀ patterns, (generate fs token { options with patterns } root).result = .error f := by
  by_cases hprobe : fs.probe root.text = .ok (some .directory)
  · left
    obtain ⟨d, hroot⟩ := stat_of_probe hprobe
    refine ⟨d, hroot, fun lines => ?_⟩
    obtain ⟨loading, hload⟩ := RuleSet.exists_load hroot (some lines)
    have hready : Ready fs { options with patterns := some lines } root loading [] := by
      refine ⟨hprobe, hload, ?_⟩
      unfold skipped
      rw [hout]
    rw [generate_of_ready hfs hready hout, rules_of_load hready.load]
    rfl
  · right
    obtain ⟨f, hunready⟩ : ∃ f, ∀ patterns, Unready fs { options with patterns } root f := by
      cases hroot : fs.probe root.text with
      | error fault => exact ⟨_, fun patterns => .root hroot⟩
      | ok kind? =>
        refine ⟨_, fun patterns => .missing hroot ?_⟩
        rintro rfl
        exact hprobe hroot
    refine ⟨f, fun patterns => ?_⟩
    rw [← generateFrom_select]
    exact (generateFrom_of_unready (hunready patterns)).1

/-- With a line more, what is selected loses what the line excludes. -/
theorem select_snoc (hfs : fs.Sound) {d : Inode} (hroot : fs.stat root.text = .ok d)
    (basic lines : List Text) (line : Text) :
    (select fs token options root (.parse basic (lines ++ [line])) []).result
      = (select fs token options root (.parse basic lines) []).result.map
        (List.filter (· ∉ Pattern.excludedBy line
          ((walked fs token options root).map Candidate.under))) := by
  cases hselect : (select fs token options root (.parse basic lines) []).result with
  | error f =>
    -- whatever it is that fails, one rule more does not keep it from failing
    exact ((Filter.endsLike_run _ _ _ _ _ _ _).failure f).mp hselect
  | ok kept =>
    obtain ⟨htoken, hsize, rfl⟩ := selected_eq hfs hroot hselect
    rw [select_result hfs htoken options (FileSystem.askable_of_stat hroot) _ _ hsize]
    show Except.ok _ = Except.ok _
    rw [List.filter_filter]
    congr 1
    apply List.filter_congr
    intro path hpath
    have hlisted : decide (path ∉ Pattern.excludedBy line
          ((walked fs token options root).map Candidate.under))
        = !(Pattern.parse? line).any (·.excludes (Candidate.under path)) := by
      rw [Bool.eq_iff_iff, decide_eq_true_eq, Bool.not_eq_true', Bool.eq_false_iff, ne_eq, not_iff_not,
        Pattern.mem_excludedBy_iff]
      exact and_iff_right hpath
    rw [hlisted]
    unfold Filter.isDropped
    rw [RuleSet.excludes_parse_snoc, ← Bool.or_assoc, Bool.not_or, Bool.and_assoc, Bool.and_left_comm]

/-- With a line more, the manifest of an application is the one without it, less the paths that the line
alone excludes from the walk. These are a sublist of the walk, and there are none if the line is blank, a
comment or nothing but separators. -/
theorem generate_with_line (hfs : fs.Sound) (token : CancellationToken) (hout : options.output = none)
    (root : Path) (lines : List Text) (line : Text) :
    let run := Walk.traverse { followLinks := options.followLinks } Walk.Receiver.passive root
      ⟨fs, token⟩
    let listed := Pattern.excludedBy line run.candidates
    (generate fs token { options with patterns := some (lines ++ [line]) } root).result
        = (generate fs token { options with patterns := some lines } root).result.map
          (List.filter (· ∉ listed)) ∧
      listed.Sublist run.files ∧
      (SaysNothing line ∨
          (∀ c ∈ Text.trim line, c = CodePoint.ofChar '/' ∨ c = CodePoint.ofChar '\\') →
        listed = []) := by
  intro run listed
  have hcandidates : run.candidates = run.files.map Candidate.under :=
    Walk.candidates_traverse _ _ root _
  refine ⟨?_, ?_, ?_⟩
  · rcases generate_eq_select_or_failure hfs token hout root with ⟨d, hroot, hselect⟩ | ⟨f, hfailure⟩
    · rw [hselect, hselect]
      show _ = Except.map (List.filter (· ∉ Pattern.excludedBy line run.candidates)) _
      rw [hcandidates]
      exact select_snoc hfs hroot _ lines line
    · rw [hfailure, hfailure]
      rfl
  · rw [Walk.Run.files_eq_map_candidates]
    exact Pattern.excludedBy_sublist line run.candidates
  · intro hline
    exact Pattern.excludedBy_eq_nil (Pattern.parse?_eq_none_iff.mpr hline) run.candidates

end

set_option maxRecDepth 10000 in
theorem generate_application_hidden :
    (generate application {} { patterns := some [".*"] } ⟨.here, []⟩).result
      = .ok [("c" : Text), ("d/b" : Text)] := by
  cbv

theorem generate_with_line_application :
    let run := Walk.traverse {} Walk.Receiver.passive ⟨.here, []⟩ ⟨application, {}⟩
    let listed := Pattern.excludedBy "d/" run.candidates
    application.Sound ∧
    (generate application {} { patterns := some [".*"] } ⟨.here, []⟩).result
      = .ok [("c" : Text), ("d/b" : Text)] ∧
    (generate application {} { patterns := some [".*", "d/"] } ⟨.here, []⟩).result
      = .ok ([("c" : Text), ("d/b" : Text)].filter (· ∉ listed)) ∧
    listed.Sublist run.files := by
  intro run listed
  have hfs : application.Sound := by decide
  obtain ⟨hgenerate, hsublist, -⟩ :=
    @generate_with_line application {} hfs {} rfl ⟨.here, []⟩ [".*"] "d/"
  rw [generate_application_hidden] at hgenerate
  exact ⟨hfs, generate_application_hidden, hgenerate, hsublist⟩

end Manifest

end BundleManifest
