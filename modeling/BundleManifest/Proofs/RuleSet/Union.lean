/-
# BundleManifest.Proofs.RuleSet.Union — every rule excludes for itself

A rule set excludes a candidate as soon as one line of either file does (`excludes_parse_iff`), whatever the
other lines are. So two sets of lines together exclude what either of them excludes, the order of the lines
does not matter, and further lines only ever take paths away from a list. Nor do rules decide whether
filtering fails: with other rules it fails in the same way or not at all (`Filter.narrows_run`).
-/
import BundleManifest.Proofs.Manifest.Batches
import BundleManifest.Proofs.Pattern.Parsing

namespace BundleManifest

namespace RuleSet

section
variable {basic enhanced : List Text} {c : Candidate}

/-- What the lines of both files exclude, line by line. -/
theorem excludes_parse_iff :
    (parse basic enhanced).excludes c = true ↔
      (∃ line ∈ basic, cleanLine? line = some c.name) ∨
        ∃ line ∈ enhanced, ∃ p, Pattern.parse? line = some p ∧ p.excludes c = true := by
  unfold excludes parse
  rw [Bool.or_eq_true, List.contains_iff_mem, List.mem_eraseDups, List.mem_filterMap,
    List.any_eq_true]
  apply or_congr Iff.rfl
  simp only [List.mem_filterMap]
  constructor
  · rintro ⟨p, ⟨line, hline, hparse⟩, hexcludes⟩
    exact ⟨line, hline, p, hparse, hexcludes⟩
  · rintro ⟨line, hline, p, hparse, hexcludes⟩
    exact ⟨p, ⟨line, hline, hparse⟩, hexcludes⟩

/-- Lines together exclude what either of them excludes. -/
theorem excludes_parse_append (basic₁ basic₂ enhanced₁ enhanced₂ : List Text) (c : Candidate) :
    (parse (basic₁ ++ basic₂) (enhanced₁ ++ enhanced₂)).excludes c = true ↔
      (parse basic₁ enhanced₁).excludes c = true ∨
        (parse basic₂ enhanced₂).excludes c = true := by
  simp only [excludes_parse_iff, List.mem_append, or_and_right, exists_or]
  exact or_or_or_comm ..

/-- Whatever some lines exclude is excluded by all sources that have these lines. Blank lines and comments
may be missing there. -/
theorem excludes_mono {basic' enhanced' : List Text}
    (hbasic : ∀ line ∈ basic, ¬ SaysNothing line → line ∈ basic')
    (henhanced : ∀ line ∈ enhanced, ¬ SaysNothing line → line ∈ enhanced')
    (h : (parse basic enhanced).excludes c = true) :
    (parse basic' enhanced').excludes c = true := by
  rw [excludes_parse_iff] at h ⊢
  rcases h with ⟨line, hline, hclean⟩ | ⟨line, hline, p, hparse, hexcludes⟩
  · left
    refine ⟨line, hbasic line hline ?_, hclean⟩
    intro hnothing
    rw [cleanLine?_eq_none_iff.mpr hnothing] at hclean
    cases hclean
  · right
    refine ⟨line, henhanced line hline ?_, p, hparse, hexcludes⟩
    intro hnothing
    rw [Pattern.parse?_eq_none_iff.mpr (Or.inl hnothing)] at hparse
    cases hparse

end

end RuleSet

/-! ## Lists with more rules -/

namespace Filter

/-- A result narrows another one: it is a sublist, or both are the same failure. -/
inductive Narrows : Except Failure (List Text) → Except Failure (List Text) → Prop
  | list {fewer files : List Text} (h : fewer.Sublist files) : Narrows (.ok fewer) (.ok files)
  | failure (f : Failure) : Narrows (.error f) (.error f)

theorem kept_sublist {rules rules' : RuleSet}
    (h : ∀ c, rules.excludes c = true → rules'.excludes c = true) (skip : List Text)
    (candidates : List Candidate) :
    (kept rules' skip candidates).Sublist (kept rules skip candidates) := by
  apply List.Sublist.map
  apply List.monotone_filter_right
  intro c hc
  rw [Bool.and_eq_true, Bool.not_eq_true', isDropped, Bool.or_eq_false_iff] at hc ⊢
  obtain ⟨⟨hskip, hrules⟩, hpath⟩ := hc
  refine ⟨⟨hskip, ?_⟩, hpath⟩
  rw [Bool.eq_false_iff] at hrules ⊢
  exact mt (h c) hrules

/-- With rules that exclude more, filtering lists less, or fails as it does anyway. -/
theorem narrows_run {rules rules' : RuleSet}
    (h : ∀ c, rules.excludes c = true → rules'.excludes c = true) (options : FilterOptions)
    (skip : List Text) (token : CancellationToken) (source : Source) :
    Narrows (run options rules' skip token source).result
      (run options rules skip token source).result := by
  have hends := endsLike_run options rules rules' skip skip token source
  cases hresult : (run options rules skip token source).result with
  | error f =>
    rw [(hends.failure f).mp hresult]
    exact .failure f
  | ok files =>
    cases hresult' : (run options rules' skip token source).result with
    | error f =>
      rw [(hends.failure f).mpr hresult'] at hresult
      cases hresult
    | ok fewer =>
      have hfiles := (accounts_of_run hresult).2.result
      have hfewer := (accounts_of_run hresult').2.result
      rw [hresult] at hfiles
      rw [hresult'] at hfewer
      rw [Except.ok.inj hfiles, Except.ok.inj hfewer]
      exact .list (kept_sublist h skip _)

end Filter

namespace RuleSet

/-- Lines together exclude what either of them excludes. The decision depends on which lines there are, not
on their order, on repetitions or on blank lines and comments. Wherever further lines are inserted, filtering
any source gives a sublist of what it gave before, or fails as it did before; filtering a sequence of
candidates gives a list. -/
theorem exclusion_is_union :
    (∀ basic₁ basic₂ enhanced₁ enhanced₂ c,
      (parse (basic₁ ++ basic₂) (enhanced₁ ++ enhanced₂)).excludes c = true ↔
        (parse basic₁ enhanced₁).excludes c = true ∨
          (parse basic₂ enhanced₂).excludes c = true) ∧
    (∀ basic₁ basic₂ enhanced₁ enhanced₂,
      (∀ line, ¬ SaysNothing line → (line ∈ basic₁ ↔ line ∈ basic₂)) →
      (∀ line, ¬ SaysNothing line → (line ∈ enhanced₁ ↔ line ∈ enhanced₂)) →
      ∀ c, (parse basic₁ enhanced₁).excludes c = (parse basic₂ enhanced₂).excludes c) ∧
    ∀ basic₁ basic₂ enhanced₁ enhanced₂,
      basic₁.Sublist basic₂ → enhanced₁.Sublist enhanced₂ →
      (∀ options skip token source,
        Filter.Narrows (Filter.run options (parse basic₂ enhanced₂) skip token source).result
          (Filter.run options (parse basic₁ enhanced₁) skip token source).result) ∧
      ∀ workers batchSize, batchSize < 2 ^ 63 → ∀ skip (candidates : List Candidate),
        let source : Source := { steps := candidates.map .candidate }
        ∃ files fewer,
          (Filter.run ⟨workers, batchSize⟩ (parse basic₁ enhanced₁) skip {} source).result
            = .ok files ∧
          (Filter.run ⟨workers, batchSize⟩ (parse basic₂ enhanced₂) skip {} source).result
            = .ok fewer ∧
          fewer.Sublist files := by
  refine ⟨excludes_parse_append, ?_, ?_⟩
  · intro basic₁ basic₂ enhanced₁ enhanced₂ hbasic henhanced c
    rw [Bool.eq_iff_iff]
    constructor
    · exact excludes_mono (fun line hline hmeans => (hbasic line hmeans).mp hline)
        fun line hline hmeans => (henhanced line hmeans).mp hline
    · exact excludes_mono (fun line hline hmeans => (hbasic line hmeans).mpr hline)
        fun line hline hmeans => (henhanced line hmeans).mpr hline
  · intro basic₁ basic₂ enhanced₁ enhanced₂ hbasic henhanced
    have hmore (c : Candidate) (h : (parse basic₁ enhanced₁).excludes c = true) :
        (parse basic₂ enhanced₂).excludes c = true :=
      excludes_mono (fun line hline _ => hbasic.subset hline)
        (fun line hline _ => henhanced.subset hline) h
    refine ⟨fun options skip token source => Filter.narrows_run hmore options skip token source, ?_⟩
    intro workers batchSize hbatch skip candidates source
    have hsize : (FilterOptions.mk workers batchSize).size ≤ FilterOptions.batchLimit :=
      FilterOptions.size_le_batchLimit hbatch
    have hresult (rules : RuleSet) :
        (Filter.run ⟨workers, batchSize⟩ rules skip {} source).result
          = .ok (Filter.kept rules skip (Source.candidates source.steps)) :=
      Filter.run_result hsize rules skip rfl (by simp)
    exact ⟨_, _, hresult _, hresult _, Filter.kept_sublist hmore skip _⟩

/-- A log, a document and a file of notes. -/
def drafts : List Candidate := [.ofPath "a.log", .ofPath "docs/x", .ofPath "notes"]

theorem exclusion_is_union_drafts :
    (∀ line, ¬ SaysNothing line →
      (line ∈ (["notes"] : List Text) ↔ line ∈ (["# names", "notes", "notes"] : List Text))) ∧
    (∀ c, (parse ["notes"] ["*.log"]).excludes c
      = (parse ["# names", "notes", "notes"] ["*.log"]).excludes c) ∧
    (["notes"] : List Text).Sublist ["x", "notes"] ∧
    (["*.log"] : List Text).Sublist ["*.log", "docs/"] ∧
    ∃ files fewer,
      (Filter.run ⟨4, 2⟩ (parse ["notes"] ["*.log"]) [] {}
        { steps := drafts.map .candidate }).result = .ok files ∧
      (Filter.run ⟨4, 2⟩ (parse ["x", "notes"] ["*.log", "docs/"]) [] {}
        { steps := drafts.map .candidate }).result = .ok fewer ∧
      fewer.Sublist files := by
  obtain ⟨-, hsame, hmore⟩ := exclusion_is_union
  have hnames (line : Text) (hmeans : ¬ SaysNothing line) :
      line ∈ (["notes"] : List Text) ↔ line ∈ (["# names", "notes", "notes"] : List Text) := by
    have hcomment : line ≠ ("# names" : Text) := by
      rintro rfl
      exact hmeans (by decide)
    simp [hcomment]
  have hbasic : (["notes"] : List Text).Sublist ["x", "notes"] := by decide
  have henhanced : (["*.log"] : List Text).Sublist ["*.log", "docs/"] := by decide
  exact ⟨hnames, hsame _ _ _ _ hnames fun _ _ => Iff.rfl, hbasic, henhanced,
    (hmore _ _ _ _ hbasic henhanced).2 4 2 (by decide) [] drafts⟩

end RuleSet

end BundleManifest
