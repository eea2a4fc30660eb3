/-
# BundleManifest.Proofs.Manifest.Selection — a manifest lists the files of the walk that stay

Generating a manifest loads rules, walks, filters in batches and drops repetitions. Put together,
these stages are one plain filter: `Stays` says of a path alone whether it stays, and
`generate_eq_filter` says that a manifest that is generated lists the paths that the walk hands out
and that stay, in the order of the walk. The walk hands out no path twice, so there are no
repetitions to drop, and batches and workers leave no trace in the list.
-/
import BundleManifest.Manifest.Generation
import BundleManifest.Proofs.RuleSet.Union
import BundleManifest.Proofs.Walk.Candidates
import BundleManifest.Proofs.Walk.Cancellation
import BundleManifest.Proofs.Walk.Sorted

namespace BundleManifest

/-! ## Which files stay -/

/-- The last segment of a path. -/
def Text.baseName (path : Text) : Text := (Text.split '/' path).getLastD []

/-- The lines of a rule file; one that cannot be read has none. -/
def ruleLines (fs : FileSystem) (path : Path) : List Text :=
  match fs.read path.text with
  | .ok bytes => RuleSet.linesOf bytes
  | .error _ => []

namespace Manifest

/-- The lines with patterns: those that the caller gives, or else those of the pattern file. -/
def patternLines (fs : FileSystem) (options : Options) (root : Path) : List Text :=
  options.patterns.getD (ruleLines fs (root.child RuleSet.patternFile))

/-- The path of the manifest below the root, if it is to be left out and lies there. -/
def ownPath? (fs : FileSystem) (options : Options) (root : Path) : Option Text :=
  match options.output with
  | some output =>
    if options.excludeManifest then ((pathBelow fs output root).toOption).join else none
  | none => none

/-- A path stays: no line of either rule file excludes it, it can stand on a line of its own, and
it is not the path of the manifest. -/
structure Stays (fs : FileSystem) (options : Options) (root : Path) (path : Text) : Prop where
  name : ∀ line ∈ ruleLines fs (root.child RuleSet.basicFile), cleanLine? line ≠ some path.baseName
  pattern : ∀ line ∈ patternLines fs options root, ∀ p ∈ Pattern.parse? line,
    p.excludes (Candidate.under path) = false
  lineFeed : CodePoint.ofChar '\n' ∉ path
  carriageReturn : CodePoint.ofChar '\r' ∉ path
  manifest : ownPath? fs options root ≠ some path

instance (fs : FileSystem) (options : Options) (root : Path) : DecidablePred (Stays fs options root) :=
  fun path => decidable_of_iff
    ((∀ line ∈ ruleLines fs (root.child RuleSet.basicFile), cleanLine? line ≠ some path.baseName) ∧
      (∀ line ∈ patternLines fs options root, ∀ p ∈ Pattern.parse? line,
        p.excludes (Candidate.under path) = false) ∧
      CodePoint.ofChar '\n' ∉ path ∧ CodePoint.ofChar '\r' ∉ path ∧
      ownPath? fs options root ≠ some path)
    ⟨fun ⟨h₁, h₂, h₃, h₄, h₅⟩ => ⟨h₁, h₂, h₃, h₄, h₅⟩,
      fun ⟨h₁, h₂, h₃, h₄, h₅⟩ => ⟨h₁, h₂, h₃, h₄, h₅⟩⟩

end Manifest

/-! ## Rules and paths to skip -/

/-- What the rules that some lines denote do not exclude. -/
theorem excludes_parse_eq_false_iff {basic enhanced : List Text} {path : Text} :
    (RuleSet.parse basic enhanced).excludes (Candidate.under path) = false ↔
      (∀ line ∈ basic, cleanLine? line ≠ some path.baseName) ∧
        ∀ line ∈ enhanced, ∀ p ∈ Pattern.parse? line,
          p.excludes (Candidate.under path) = false := by
  have hname : (Candidate.under path).name = path.baseName := rfl
  rw [Bool.eq_false_iff, ne_eq, RuleSet.excludes_parse_iff, not_or, hname]
  simp only [not_exists, not_and, Bool.not_eq_true, Option.mem_def, ne_eq]

/-- A rule file that is read gives its lines; one that cannot be read gives none. -/
theorem lines_of_reader {fs : FileSystem} {path : Path} {read : RuleLines}
    (h : RuleSet.reader fs path = .ok read) : read.lines = ruleLines fs path := by
  unfold RuleSet.reader at h
  unfold ruleLines
  split at h
  · next bytes hbytes =>
    cases h
    rw [hbytes]
  · next hmissing =>
    cases h
    rw [hmissing]
  · next fault _ hfault =>
    cases h
    rw [hfault]
  · cases h

theorem rules_of_load {fs : FileSystem} {options : Manifest.Options} {root : Path}
    {loading : RuleSet.Loading}
    (h : RuleSet.load (RuleSet.reader fs) root options.patterns = .ok loading) :
    loading.rules = RuleSet.parse (ruleLines fs (root.child RuleSet.basicFile))
      (Manifest.patternLines fs options root) := by
  unfold RuleSet.load at h
  unfold Manifest.patternLines
  simp only [bind, Except.bind, pure, Except.pure] at h
  split at h
  · cases h
  next basic hbasic =>
  rw [← lines_of_reader hbasic]
  split at h
  · next lines hlines =>
    cases h
    rw [hlines]
    rfl
  · next hnone =>
    split at h
    · cases h
    next enhanced henhanced =>
    cases h
    rw [hnone, ← lines_of_reader henhanced]
    rfl

namespace Manifest

/-- The only path to skip is that of the manifest. -/
theorem skip_eq_of_skipped {fs : FileSystem} {options : Options} {root : Path} {skip : List Text}
    (h : skipped fs options root = .ok skip) : skip = (ownPath? fs options root).toList := by
  unfold skipped at h
  unfold ownPath?
  cases hout : options.output with
  | none =>
    rw [hout] at h
    cases h
    rfl
  | some output =>
    rw [hout] at h
    simp only at h ⊢
    split at h
    · next hexclude =>
      rw [if_pos hexclude]
      cases hbelow : pathBelow fs output root with
      | error f =>
        rw [hbelow] at h
        cases h
      | ok found =>
        rw [hbelow] at h
        cases h
        rfl
    · next hinclude =>
      cases h
      rw [if_neg hinclude]
      rfl

theorem mem_of_skipped {fs : FileSystem} {options : Options} {root : Path} {skip : List Text}
    (h : skipped fs options root = .ok skip) {path : Text} :
    path ∈ skip ↔ ownPath? fs options root = some path := by
  rw [skip_eq_of_skipped h, Option.mem_toList]

/-- The filter keeps exactly what stays. -/
theorem stays_iff {fs : FileSystem} {options : Options} {root : Path} {loading : RuleSet.Loading}
    (hload : RuleSet.load (RuleSet.reader fs) root options.patterns = .ok loading)
    {skip : List Text} (hskip : skipped fs options root = .ok skip) {path : Text} :
    Stays fs options root path ↔
      (!Filter.isDropped loading.rules skip (Candidate.under path) &&
        Filter.isRepresentable path) = true := by
  have hexcludes := @excludes_parse_eq_false_iff (ruleLines fs (root.child RuleSet.basicFile))
    (patternLines fs options root) path
  rw [← rules_of_load hload] at hexcludes
  have hmem : path ∈ skip ↔ ownPath? fs options root = some path := mem_of_skipped hskip
  unfold Filter.isDropped Filter.isRepresentable
  simp only [Bool.and_eq_true, Bool.not_eq_true', Bool.or_eq_false_iff, List.contains_eq_mem,
    decide_eq_false_iff_not]
  constructor
  · intro h
    exact ⟨⟨fun hs => h.manifest (hmem.mp hs), hexcludes.mpr ⟨h.name, h.pattern⟩⟩, h.lineFeed,
      h.carriageReturn⟩
  · rintro ⟨⟨hown, hrules⟩, hlf, hcr⟩
    obtain ⟨hname, hpattern⟩ := hexcludes.mp hrules
    exact ⟨hname, hpattern, hlf, hcr, fun hp => hown (hmem.mpr hp)⟩

/-! ## The walk as a source -/

theorem candidates_sourceOf (run : Walk.Run) :
    Source.candidates (sourceOf run).steps = run.candidates := by
  unfold Source.candidates sourceOf Walk.Run.candidates
  rw [List.filterMap_filterMap]
  congr 1
  funext e
  cases e <;> rfl

theorem not_cancel_mem_sourceOf (run : Walk.Run) (reason : Text) :
    .cancel reason ∉ (sourceOf run).steps := by
  unfold sourceOf
  rw [List.mem_filterMap]
  rintro ⟨e, -, he⟩
  cases e <;> cases he

theorem sourceOf_of_not_halt {run : Walk.Run} (h : run.halt = none) :
    sourceOf run = { steps := (sourceOf run).steps } := by
  unfold sourceOf
  rw [h]

/-- The walk whose files a manifest is made from. -/
def walked (fs : FileSystem) (token : CancellationToken) (options : Options) (root : Path) :
    List Text :=
  (Walk.traverse { followLinks := options.followLinks } Walk.Receiver.passive root ⟨fs, token⟩).files

section
variable {fs : FileSystem} (hfs : fs.Sound) {token : CancellationToken}
  (htoken : token.isCancelled = false) (options : Options) {root : Path}
include hfs htoken

theorem walked_increasing : (walked fs token options root).Pairwise (· < ·) :=
  (Walk.steady_passive hfs htoken).files_traverse _ root rfl

/-- Selecting files filters what the walk hands out. -/
theorem select_result (hroot : root.text.Askable) (rules : RuleSet) (skip : List Text)
    (hsize : options.filter.size ≤ FilterOptions.batchLimit) :
    (select fs token options root rules skip).result
      = .ok ((walked fs token options root).filter fun path =>
          !Filter.isDropped rules skip (Candidate.under path) && Filter.isRepresentable path) := by
  have hsteady := Walk.steady_passive hfs htoken
  have hlinks : options.walk.followLinks
      = ({ followLinks := options.followLinks } : Walk.Options).followLinks := rfl
  have hwalk := hsteady.traverse_batchSize hlinks root rfl
  unfold select walked
  rw [hwalk]
  generalize hrun : Walk.traverse { followLinks := options.followLinks } Walk.Receiver.passive root
    ⟨fs, token⟩ = run
  have hhalt : run.halt = none := by
    rw [← hrun]
    exact (hsteady.halt_traverse _ root rfl).mpr hroot
  have hcandidates : run.candidates = run.files.map Candidate.under := by
    rw [← hrun]
    exact Walk.candidates_traverse _ _ root _
  simp only
  rw [sourceOf_of_not_halt hhalt, Filter.run_result hsize rules skip htoken
    (not_cancel_mem_sourceOf run), candidates_sourceOf, hcandidates, Filter.kept, List.filter_map,
    List.map_map]
  exact congrArg Except.ok (List.map_id _)

end

/-- A cancelled token makes selecting fail. -/
theorem select_of_cancelled {fs : FileSystem} {token : CancellationToken}
    (htoken : token.isCancelled = true) (options : Options) {root : Path} {d : Inode}
    (hroot : fs.stat root.text = .ok d) (rules : RuleSet) (skip : List Text) :
    ∃ e, (select fs token options root rules skip).result = .error e := by
  obtain ⟨message, hwalk⟩ := Walk.traverse_of_cancelled options.walk htoken hroot
  unfold select
  rw [hwalk]
  exact Filter.run_result_of_failure _ _ _ _ _

/-- Batches that are too large make selecting fail. -/
theorem size_le_of_select {fs : FileSystem} {token : CancellationToken} {options : Options}
    {root : Path} {rules : RuleSet} {skip kept : List Text}
    (h : (select fs token options root rules skip).result = .ok kept) :
    options.filter.size ≤ FilterOptions.batchLimit :=
  Filter.size_le_of_run h

/-- Files that are selected are those of the walk that the rules and the paths to skip leave. -/
theorem selected_eq {fs : FileSystem} (hfs : fs.Sound) {token : CancellationToken}
    {options : Options} {root : Path} {e : Inode} (hroot : fs.stat root.text = .ok e)
    {rules : RuleSet} {skip kept : List Text}
    (h : (select fs token options root rules skip).result = .ok kept) :
    token.isCancelled = false ∧ options.filter.size ≤ FilterOptions.batchLimit ∧
      kept = (walked fs token options root).filter fun path =>
        !Filter.isDropped rules skip (Candidate.under path) && Filter.isRepresentable path := by
  have htoken : token.isCancelled = false := by
    rw [Bool.eq_false_iff]
    intro hcancelled
    obtain ⟨fault, hfault⟩ := select_of_cancelled hcancelled options hroot rules skip
    rw [h] at hfault
    cases hfault
  have hsize := size_le_of_select h
  rw [select_result hfs htoken options (FileSystem.askable_of_stat hroot) rules skip hsize] at h
  exact ⟨htoken, hsize, (Except.ok.inj h).symm⟩

/-- What is selected has no duplicates. -/
theorem nodup_of_select {fs : FileSystem} (hfs : fs.Sound) {token : CancellationToken}
    {options : Options} {root : Path} {r : Inode} (hroot : fs.stat root.text = .ok r)
    {rules : RuleSet} {skip kept : List Text}
    (h : (select fs token options root rules skip).result = .ok kept) : kept.Nodup := by
  obtain ⟨htoken, -, rfl⟩ := selected_eq hfs hroot h
  exact (walked_increasing hfs htoken options).nodup.filter _

/-! ## Manifests -/

section
variable {fs : FileSystem} {token : CancellationToken} {options : Options} {root : Path}

/-- A manifest is generated only if the root is a directory, the rules are loaded and the files are
selected. -/
theorem stages_of_generate {files : List Text}
    (h : (generate fs token options root).result = .ok files) :
    fs.probe root.text = .ok (some .directory) ∧
      ∃ loading skip kept,
        RuleSet.load (RuleSet.reader fs) root options.patterns = .ok loading ∧
        skipped fs options root = .ok skip ∧
        (select fs token options root loading.rules skip).result = .ok kept := by
  unfold generate at h
  split at h
  · cases h
  · next hprobe =>
    split at h
    · cases h
    next loading hload =>
    split at h
    · cases h
    next skip hskip =>
    extract_lets selection notices at h
    split at h
    · cases h
    next kept hselect => exact ⟨hprobe, loading, skip, kept, hload, hskip, hselect⟩
  · cases h

/-- Once files are selected only writing them can fail. -/
theorem generate_of_stages (hprobe : fs.probe root.text = .ok (some .directory))
    {loading : RuleSet.Loading}
    (hload : RuleSet.load (RuleSet.reader fs) root options.patterns = .ok loading)
    {skip kept : List Text} (hskip : skipped fs options root = .ok skip)
    (hselect : (select fs token options root loading.rules skip).result = .ok kept) :
    (generate fs token options root).result
      = match options.output with
        | none => .ok kept.eraseDups
        | some output => (write fs output kept.eraseDups).result.map fun _ => kept.eraseDups := by
  unfold generate
  simp only [hprobe, hload, hskip, hselect]
  cases options.output with
  | none => rfl
  | some output => rfl

/-- The stages of generating a manifest, when all of them succeed. -/
theorem generate_eq_ok_iff {files : List Text} :
    (generate fs token options root).result = .ok files ↔
      fs.probe root.text = .ok (some .directory) ∧
        ∃ loading skip kept,
          RuleSet.load (RuleSet.reader fs) root options.patterns = .ok loading ∧
          skipped fs options root = .ok skip ∧
          (select fs token options root loading.rules skip).result = .ok kept ∧
          files = kept.eraseDups ∧
          ∀ output, options.output = some output →
            ∃ path, (write fs output files).result = .ok path := by
  constructor
  · intro h
    obtain ⟨hprobe, loading, skip, kept, hload, hskip, hselect⟩ := stages_of_generate h
    refine ⟨hprobe, loading, skip, kept, hload, hskip, hselect, ?_⟩
    rw [generate_of_stages hprobe hload hskip hselect] at h
    cases hout : options.output with
    | none =>
      rw [hout] at h
      exact ⟨(Except.ok.inj h).symm, fun output hsome => by cases hsome⟩
    | some output =>
      rw [hout] at h
      simp only at h
      cases hwrite : (write fs output kept.eraseDups).result with
      | error f =>
        rw [hwrite] at h
        cases h
      | ok path =>
        rw [hwrite] at h
        have hfiles : kept.eraseDups = files := Except.ok.inj h
        subst hfiles
        refine ⟨rfl, fun output' hsome => ?_⟩
        cases hsome
        exact ⟨path, hwrite⟩
  · rintro ⟨hprobe, loading, skip, kept, hload, hskip, hselect, rfl, hwrite⟩
    rw [generate_of_stages hprobe hload hskip hselect]
    cases hout : options.output with
    | none => rfl
    | some output =>
      obtain ⟨path, hpath⟩ := hwrite output hout
      simp only [hpath]
      rfl

end

theorem files_of_generate {fs : FileSystem} {token : CancellationToken} {options : Options}
    {root output : Path} (hprobe : fs.probe root.text = .ok (some .directory))
    {loading : RuleSet.Loading}
    (hload : RuleSet.load (RuleSet.reader fs) root options.patterns = .ok loading)
    {skip kept : List Text} (hskip : skipped fs options root = .ok skip)
    (hselect : (select fs token options root loading.rules skip).result = .ok kept)
    (hout : options.output = some output) :
    (generate fs token options root).files = (write fs output kept.eraseDups).files := by
  unfold generate
  simp only [hprobe, hload, hskip, hselect, hout]

theorem stat_of_probe {fs : FileSystem} {path : Text} {kind : NodeKind}
    (h : fs.probe path = .ok (some kind)) : ∃ d, fs.stat path = .ok d := by
  unfold FileSystem.probe at h
  split at h
  · next d hd => exact ⟨d, hd⟩
  · split at h <;> cases h
  · cases h
  · cases h

theorem eraseDups_of_nodup {α : Type} [BEq α] [LawfulBEq α] {as : List α} (h : as.Nodup) :
    as.eraseDups = as := by
  induction as with
  | nil => rfl
  | cons a as ih =>
    rw [List.nodup_cons] at h
    have hfilter : as.filter (fun b => !b == a) = as := by
      rw [List.filter_eq_self]
      intro b hb
      rw [Bool.not_eq_true', beq_eq_false_iff_ne]
      rintro rfl
      exact h.1 hb
    rw [List.eraseDups_cons, hfilter, ih h.2]

/-- A manifest that is generated lists the files of the walk that stay, in the order of the walk,
which is strictly increasing. With other batches and another number of workers the same list is
generated. -/
theorem generate_eq_filter {fs : FileSystem} (hfs : fs.Sound) {token : CancellationToken}
    {options : Options} {root : Path} {files : List Text}
    (h : (generate fs token options root).result = .ok files) :
    files = (walked fs token options root).filter (Stays fs options root) ∧
      files.Pairwise (· < ·) ∧
      ∀ workers batchSize, batchSize < 2 ^ 63 →
        (generate fs token { options with workers, batchSize } root).result = .ok files := by
  obtain ⟨hprobe, loading, skip, kept, hload, hskip, hselect, rfl, hwrite⟩ :=
    generate_eq_ok_iff.mp h
  obtain ⟨d, hroot⟩ := stat_of_probe hprobe
  have hask := FileSystem.askable_of_stat hroot
  -- a manifest that is generated says that nobody cancelled
  have htoken : token.isCancelled = false := by
    rw [Bool.eq_false_iff]
    intro hcancelled
    obtain ⟨e, he⟩ := select_of_cancelled hcancelled options hroot loading.rules skip
    rw [hselect] at he
    cases he
  have hselected := select_result hfs htoken options hask loading.rules skip
    (size_le_of_select hselect)
  rw [hselect] at hselected
  have hkept : kept = (walked fs token options root).filter (Stays fs options root) := by
    rw [Except.ok.inj hselected]
    refine List.filter_congr fun path _ => ?_
    rw [Bool.eq_iff_iff, decide_eq_true_eq]
    exact (stays_iff hload hskip).symm
  have hincreasing : kept.Pairwise (· < ·) :=
    hkept ▸ (walked_increasing hfs htoken options).filter _
  have hnodup : kept.Nodup := hincreasing.nodup
  rw [eraseDups_of_nodup hnodup] at hwrite h ⊢
  refine ⟨hkept, hincreasing, fun workers batchSize hbatch => ?_⟩
  -- all other stages neither see the workers nor the batches
  have hsize : (FilterOptions.mk workers batchSize).size ≤ FilterOptions.batchLimit :=
    FilterOptions.size_le_batchLimit hbatch
  have hother := select_result hfs htoken { options with workers, batchSize } hask loading.rules
    skip hsize
  exact generate_eq_ok_iff.mpr ⟨hprobe, loading, skip, kept, hload, hskip,
    hother.trans hselected.symm, (eraseDups_of_nodup hnodup).symm, hwrite⟩

/-- An application folder with rules of both kinds: no base name `a`, and no hidden path. -/
def application : FileSystem :=
  FileSystem.empty.applyAll [.makeDirectory "d", .write "d/a" [], .write "d/b" [], .write "c" [],
    .write ".rscignore" [0x61, 0x0A], .write ".rsconnectignore" [0x2E, 0x2A, 0x0A]]

/-- A manifest `m` that four workers make, one path a batch. -/
def applicationOptions : Options :=
  { output := some ⟨.here, ["m"]⟩, workers := 4, batchSize := 1 }

set_option maxRecDepth 10000 in
theorem generate_application :
    (generate application {} applicationOptions ⟨.here, []⟩).result =
      .ok [("c" : Text), ("d/b" : Text)] := by
  cbv

theorem generate_eq_filter_application :
    application.Sound ∧
    (generate application {} applicationOptions ⟨.here, []⟩).result =
      .ok [("c" : Text), ("d/b" : Text)] ∧
    [("c" : Text), ("d/b" : Text)] =
      (walked application {} applicationOptions ⟨.here, []⟩).filter
        (Stays application applicationOptions ⟨.here, []⟩) ∧
    [("c" : Text), ("d/b" : Text)].Pairwise (· < ·) ∧
    ∀ workers batchSize, batchSize < 2 ^ 63 →
      (generate application {} { applicationOptions with workers, batchSize }
        ⟨.here, []⟩).result = .ok [("c" : Text), ("d/b" : Text)] :=
  have hfs : application.Sound := by decide
  ⟨hfs, generate_application, generate_eq_filter hfs generate_application⟩

end Manifest

end BundleManifest
