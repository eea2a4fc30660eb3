/-
# BundleManifest.Proofs.Manifest.Interruption — what a failure leaves behind

Generating a manifest can fail at every stage, and others may cancel it between any two files that the
walk hands out. `generateAmid` is `generate` amid such cancellations, and the same where nobody cancels
(`generateAmid_never`). Selecting files amid cancellations gives the whole selection or fails
(`select_of_selectAmid`). Hence whatever fails, the file system is as it was, and a failure to write
keeps the list that would have been written, down to the last file (`failure_keeps_list`).
-/
import BundleManifest.Proofs.Manifest.Atomicity
import BundleManifest.Proofs.Manifest.Exclusion
import BundleManifest.Proofs.Manifest.Stages

namespace BundleManifest

/-- The token after a cancellation, if there is one. -/
def CancellationToken.cancel? (token : CancellationToken) : Option Text → CancellationToken
  | none => token
  | some reason => token.cancel reason

namespace Manifest

open FileSystem

/-! ## Cancellations -/

/-- When others cancel. For the `n`-th file that a walk hands out, counted from one: the reason of a
cancellation before the filter takes the file, and of one before the walk goes on behind it. -/
structure Cancellations where
  taken : Nat → Option Text
  resumed : Nat → Option Text

namespace Cancellations

/-- Nobody cancels. -/
def never : Cancellations := ⟨fun _ => none, fun _ => none⟩

/-- What the walk sees of cancellations. -/
def receiver (c : Cancellations) : Walk.Receiver := fun n world =>
  { world := { world with token := (world.token.cancel? (c.taken n)).cancel? (c.resumed n) } }

/-- What the filter sees of them, when a number of files have been handed out. -/
def steps (c : Cancellations) : Nat → List Walk.Event → List SourceStep
  | _, [] => []
  | n, .file f :: events =>
    (c.taken (n + 1)).toList.map .cancel ++ .candidate f ::
      ((c.resumed (n + 1)).toList.map .cancel ++ c.steps (n + 1) events)
  | n, .note x :: events => .note x :: c.steps n events
  | n, .entered .. :: events => c.steps n events

/-- A walk amid cancellations as a source of candidates. -/
def source (c : Cancellations) (run : Walk.Run) : Source :=
  { sourceOf run with steps := c.steps 0 run.trace }

theorem onlyCancels (c : Cancellations) : c.receiver.OnlyCancels := fun _ _ => ⟨rfl, rfl⟩

theorem candidates_cancels (reason? : Option Text) (steps : List SourceStep) :
    Source.candidates (reason?.toList.map .cancel ++ steps) = Source.candidates steps := by
  cases reason? <;> rfl

/-- Cancelling neither adds candidates nor takes any away. -/
theorem candidates_source (c : Cancellations) (run : Walk.Run) :
    Source.candidates (c.source run).steps = run.candidates := by
  show Source.candidates (c.steps 0 run.trace) = run.trace.filterMap _
  generalize run.trace = events
  generalize 0 = n
  induction events generalizing n with
  | nil => rfl
  | cons event events ih =>
    cases event with
    | file f =>
      rw [steps, candidates_cancels, Source.candidates_candidate, candidates_cancels, ih]
      rfl
    | note x => exact ih n
    | entered path d via => exact ih n

theorem source_never (run : Walk.Run) : never.source run = sourceOf run := by
  have hsteps (n : Nat) : never.steps n run.trace = (sourceOf run).steps := by
    show never.steps n run.trace = run.trace.filterMap _
    generalize run.trace = events
    induction events generalizing n with
    | nil => rfl
    | cons event events ih =>
      cases event with
      | file f => exact congrArg (.candidate f :: ·) (ih (n + 1))
      | note x => exact congrArg (.note x :: ·) (ih n)
      | entered path d via => exact ih n
  rw [source, hsteps]

end Cancellations

/-! ## Selecting files amid cancellations -/

/-- The files of an application that stay, selected amid cancellations. -/
def selectAmid (fs : FileSystem) (token : CancellationToken) (options : Options) (root : Path)
    (c : Cancellations) (rules : RuleSet) (skip : List Text) : FilterOutcome :=
  Filter.run options.filter rules skip token
    (c.source (Walk.traverse options.walk c.receiver root ⟨fs, token⟩))

theorem selectAmid_never (fs : FileSystem) (token : CancellationToken) (options : Options)
    (root : Path) : selectAmid fs token options root .never = select fs token options root := by
  funext rules skip
  rw [selectAmid, Cancellations.source_never]
  rfl

/-- A source fails as its walk does. -/
theorem failure_sourceOf_eq_some_iff {run : Walk.Run} {f : Failure} :
    (sourceOf run).failure = some f ↔ run.halt = some (.failed f) := by
  unfold sourceOf
  dsimp only
  split
  · next g hhalt => simp [hhalt]
  · next hother =>
    constructor
    · intro h
      cases h
    · exact fun hhalt => absurd hhalt (hother f)

/-- A cancelled token makes whoever looks at it fail with a cancellation. -/
theorem cancelled_of_cancellation? {token : CancellationToken} {f : Failure}
    (h : Filter.cancellation? token = some f) :
    ∃ message, f = .bundle (.cancelled message) := by
  obtain ⟨message, -, rfl⟩ := Option.map_eq_some_iff.mp h
  exact ⟨message, rfl⟩

section
variable {fs : FileSystem} {token : CancellationToken} {options : Options} {root : Path} {d : Inode}
  (hroot : fs.stat root.text = .ok d) {c : Cancellations} {rules : RuleSet} {skip : List Text}
include hroot

/-- Where the walk does not end with a cancellation, it is the one that nobody cancels. -/
theorem walk_cases :
    let run := Walk.traverse options.walk c.receiver root ⟨fs, token⟩
    let quiet := Walk.traverse options.walk Walk.Receiver.passive root ⟨fs, token⟩
    (∃ message, run.halt = some (.failed (.bundle (.cancelled message)))) ∨
      token.isCancelled = false ∧ run.trace = quiet.trace ∧ run.halt = quiet.halt := by
  intro run quiet
  cases htoken : token.isCancelled with
  | true =>
    obtain ⟨message, hwalk⟩ :=
      @Walk.traverse_of_cancelled c.receiver options.walk token htoken fs root d hroot
    exact Or.inl ⟨message, congrArg Walk.Run.halt hwalk⟩
  | false =>
    have habreast : Walk.Abreast run quiet :=
      Walk.abreast_traverse c.onlyCancels options.walk root fs token htoken
    cases habreast with
    | together htrace hhalt _ => exact Or.inr ⟨rfl, htrace, hhalt⟩
    | stopped hhalt _ => exact Or.inl ⟨_, hhalt⟩

/-- What is selected amid cancellations is selected without them. -/
theorem select_of_selectAmid {kept : List Text}
    (h : (selectAmid fs token options root c rules skip).result = .ok kept) :
    (select fs token options root rules skip).result = .ok kept := by
  obtain ⟨hfailure, haccounts⟩ := Filter.accounts_of_run h
  rcases @walk_cases fs token options root d hroot c with
    ⟨message, hhalt⟩ | ⟨htoken, htrace, hhalt⟩
  · cases hfailure.symm.trans (failure_sourceOf_eq_some_iff.mpr hhalt)
  · unfold select
    generalize Walk.traverse options.walk Walk.Receiver.passive root ⟨fs, token⟩ = quiet
      at htrace hhalt
    have hnone : (sourceOf quiet).failure = none := by
      rw [← hfailure]
      apply Option.ext
      intro f
      rw [failure_sourceOf_eq_some_iff, ← hhalt, ← failure_sourceOf_eq_some_iff]
      rfl
    have hsource : sourceOf quiet = { steps := (sourceOf quiet).steps } :=
      congrArg (Source.mk (sourceOf quiet).steps) hnone
    have hcandidates := candidates_sourceOf quiet
    rw [Walk.Run.candidates, ← htrace, ← Walk.Run.candidates, ← c.candidates_source] at hcandidates
    dsimp only
    rw [hsource, Filter.run_result (Filter.size_le_of_run h) rules skip htoken
      (not_cancel_mem_sourceOf quiet), hcandidates, ← haccounts.result]
    exact h

/-- Selecting files fails only if the batches are too large or somebody cancels. -/
theorem failure_of_selectAmid (hfs : fs.Sound) {f : Failure}
    (h : (selectAmid fs token options root c rules skip).result = .error f) :
    f = .batchTooLarge ∧ FilterOptions.batchLimit < options.filter.size ∨
      ∃ message, f = .bundle (.cancelled message) := by
  rcases Filter.failure_of_run h with hlarge | hfailure | ⟨batch, -, hcancelled⟩
  · exact Or.inl hlarge
  · right
    replace hfailure := failure_sourceOf_eq_some_iff.mp hfailure
    rcases @walk_cases fs token options root d hroot c with
      ⟨message, hhalt⟩ | ⟨htoken, -, hhalt⟩
    · cases hhalt.symm.trans hfailure
      exact ⟨message, rfl⟩
    · -- nothing ends the walk of a directory
      have hnone := ((Walk.steady_passive hfs htoken).halt_traverse options.walk root rfl).mpr
        (askable_of_stat hroot)
      rw [hhalt, hnone] at hfailure
      cases hfailure
  · exact Or.inr (cancelled_of_cancellation? hcancelled)

end

/-! ## Generating amid cancellations -/

/-- Generates the manifest of an application amid cancellations. -/
def generateAmid (fs : FileSystem) (token : CancellationToken) (options : Options) (root : Path)
    (c : Cancellations) : Outcome (List Text) :=
  generateFrom fs options root (selectAmid fs token options root c)

theorem generateAmid_never (fs : FileSystem) (token : CancellationToken) (options : Options)
    (root : Path) : generateAmid fs token options root .never = generate fs token options root := by
  rw [generateAmid, selectAmid_never, generateFrom_select]

/-- Files that are selected are those of the list that is made without an output, less the path of the
manifest. -/
theorem exists_list_of_select {fs : FileSystem} (hfs : fs.Sound) {token : CancellationToken}
    {options : Options} {root : Path} {loading : RuleSet.Loading} {skip kept : List Text}
    (hready : Ready fs options root loading skip)
    (hselect : (select fs token options root loading.rules skip).result = .ok kept) :
    ∃ all, (generate fs token { options with output := none } root).result = .ok all ∧
      kept.eraseDups = all.filter fun x => ownPath? fs options root ≠ some x := by
  obtain ⟨d, hroot⟩ := stat_of_probe hready.probe
  obtain ⟨all, hall, hkept⟩ : ∃ all,
      (select fs token options root loading.rules []).result = .ok all ∧
        kept = all.filter fun x => ownPath? fs options root ≠ some x := by
    rw [skip_eq_of_skipped hready.skip] at hselect
    cases hown : ownPath? fs options root with
    | none =>
      rw [hown] at hselect
      exact ⟨kept, hselect, by simp⟩
    | some own =>
      rw [hown] at hselect
      obtain ⟨all, hall, rfl⟩ := (select_singleton_iff hfs hroot).mp hselect
      exact ⟨all, hall, by simp [eq_comm]⟩
  have hnodup := nodup_of_select hfs hroot hall
  refine ⟨all, ?_, ?_⟩
  · exact generate_eq_ok_iff.mpr ⟨hready.probe, loading, [], all, hready.load, rfl, hall,
      (eraseDups_of_nodup hnodup).symm, fun _ h => by cases h⟩
  · rw [eraseDups_of_nodup (hkept ▸ hnodup.filter _), hkept]

/-- A failure before files are selected is no failure to write. -/
theorem Unready.ne_writeFailed {fs : FileSystem} {options : Options} {root : Path} {f : Failure}
    (h : Unready fs options root f) (path reason : Text) (files : List Text) :
    f ≠ .bundle (.writeFailed path reason files) := by
  rintro rfl
  cases h with
  | skip _ _ hskip =>
    obtain ⟨-, p, -, -, heq, -⟩ := failure_of_skipped hskip
    cases heq

/-- Whatever others cancel and whatever fails, the file system is as it was; and a failure to write keeps
the list that is made without an output, less the path of the manifest. -/
theorem failure_keeps_list {fs : FileSystem} (hfs : fs.Sound) (hwhole : fs.Whole)
    (hnumbers : fs.numbers.Nodup) (token : CancellationToken) {options : Options} (root : Path)
    {target? : Option Text} (hout : options.output = target?.map Path.ofText) :
    generateAmid fs token options root .never = generate fs token options root ∧
    ∀ (c : Cancellations) (f : Failure),
      (generateAmid fs token options root c).result = .error f →
      (generateAmid fs token options root c).files = fs ∧
      ∀ path reason files, f = .bundle (.writeFailed path reason files) →
        ∃ all, (generate fs token { options with output := none } root).result = .ok all ∧
          files = all.filter fun x => ownPath? fs options root ≠ some x := by
  refine ⟨generateAmid_never fs token options root, fun c f h => ?_⟩
  rcases ready_or_unready fs options root with ⟨loading, skip, hready⟩ | ⟨g, hunready⟩
  · obtain ⟨d, hroot⟩ := stat_of_probe hready.probe
    rcases failure_of_ready hready h with
      ⟨hfiles, hselect⟩ | ⟨output, kept, houtput, hselect, hwrite, hfiles⟩
    · refine ⟨hfiles, fun path reason files heq => ?_⟩
      subst heq
      rcases failure_of_selectAmid hroot hfs hselect with ⟨heq, -⟩ | ⟨message, heq⟩
      · cases heq
      · cases heq
    · obtain ⟨target, rfl⟩ := exists_target_of_output hout houtput
      have hplain : (Path.ofText target).Plain := Path.plain_ofText target
      refine ⟨hfiles.trans (files_of_write_error hfs hwhole hnumbers hplain hwrite), ?_⟩
      rintro path reason files rfl
      obtain ⟨fault, heq, -⟩ := failure_of_write hwrite
      have hlist : files = kept.eraseDups := by
        cases fault <;> cases heq <;> rfl
      rw [hlist]
      exact exists_list_of_select hfs hready (select_of_selectAmid hroot hselect)
  · obtain ⟨hresult, hfiles⟩ := generateFrom_of_unready hunready
    cases hresult.symm.trans h
    exact ⟨hfiles, fun path reason files heq =>
      absurd heq (hunready.ne_writeFailed path reason files)⟩

/-- Two files. -/
def pair : FileSystem := FileSystem.empty.applyAll [.write "m" [], .write "t" []]

/-- The manifest is one of them, by a path that goes through the other. -/
def pairOptions : Options := { output := some (Path.ofText "t/../m"), workers := 2 }

theorem whole_pair : pair.Whole := FileSystem.whole_made _

set_option maxRecDepth 10000 in
theorem generate_pair :
    (generate pair {} pairOptions ⟨.here, []⟩).result
      = .error (.bundle (.writeFailed "t/../m" "Not a directory" ["t"])) := by
  cbv

theorem failure_keeps_list_pair :
    (generate pair {} pairOptions ⟨.here, []⟩).result
      = .error (.bundle (.writeFailed "t/../m" "Not a directory" ["t"])) ∧
    (generate pair {} pairOptions ⟨.here, []⟩).files = pair ∧
    ∃ all, (generate pair {} { pairOptions with output := none } ⟨.here, []⟩).result = .ok all ∧
      ([("t" : Text)] = all.filter fun x => ownPath? pair pairOptions ⟨.here, []⟩ ≠ some x) := by
  obtain ⟨hnever, hkeeps⟩ := failure_keeps_list (by decide) whole_pair (by decide) {} ⟨.here, []⟩
    (show pairOptions.output = (some "t/../m").map Path.ofText from rfl)
  obtain ⟨hfiles, hlist⟩ := hkeeps .never _ (hnever ▸ generate_pair)
  exact ⟨generate_pair, hnever ▸ hfiles, hlist _ _ _ rfl⟩

end Manifest

end BundleManifest
