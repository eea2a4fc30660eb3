/-
# BundleManifest.Proofs.Manifest.Reproduction — manifests do not depend on how files are listed

Where files appear in a guise, in whatever order directories give their entries and however nodes are
numbered, the walk hands out the same candidates (`Walk.mirrors_traverse`). What is selected from them
depends on nothing else of the walk, and neither do the list and the file that are made of it
(`generateAs_eq_generate`).
-/
import BundleManifest.Proofs.Manifest.Stages
import BundleManifest.Proofs.Walk.Guise

namespace BundleManifest.Manifest

open Walk (Guise Receiver)

/-- Only what is selected decides about the list and the files that are left. -/
theorem generateFrom_congr {fs : FileSystem} {options : Options} {root : Path}
    {selecting other : RuleSet → List Text → FilterOutcome}
    (h : ∀ loading skip, Ready fs options root loading skip →
      (selecting loading.rules skip).result = (other loading.rules skip).result) :
    (generateFrom fs options root selecting).result = (generateFrom fs options root other).result ∧
      (generateFrom fs options root selecting).files = (generateFrom fs options root other).files := by
  rcases ready_or_unready fs options root with ⟨loading, skip, hready⟩ | ⟨f, hunready⟩
  · have hselect := h loading skip hready
    unfold generateFrom
    simp only [hready.probe, hready.load, hready.skip, hselect]
    cases (other loading.rules skip).result with
    | error f => exact ⟨rfl, rfl⟩
    | ok kept => cases options.output <;> exact ⟨rfl, rfl⟩
  · have hrefused (selecting : RuleSet → List Text → FilterOutcome) :
        (generateFrom fs options root selecting).result = .error f ∧
          (generateFrom fs options root selecting).files = fs := generateFrom_of_unready hunready
    rw [(hrefused selecting).1, (hrefused other).1, (hrefused selecting).2, (hrefused other).2]
    exact ⟨rfl, rfl⟩

/-- The files that stay of an application whose files appear in a guise, as `select` gives them. -/
def selectAs (g : Guise) (fs : FileSystem) (token : CancellationToken) (options : Options)
    (root : Path) (rules : RuleSet) (skip : List Text) : FilterOutcome :=
  let run := Walk.traverseAs g options.walk Receiver.passive root ⟨fs, token⟩
  Filter.run options.filter rules skip token (sourceOf run)

/-- Generates the manifest of an application whose files appear in a guise, as `generate` does. -/
def generateAs (g : Guise) (fs : FileSystem) (token : CancellationToken) (options : Options)
    (root : Path) : Outcome (List Text) :=
  generateFrom fs options root (selectAs g fs token options root)

/-- A manifest is generated from files as they are kept. -/
theorem generateAs_natural (fs : FileSystem) (token : CancellationToken) (options : Options)
    (root : Path) : generateAs .natural fs token options root = generate fs token options root := by
  rw [← generateFrom_select]
  unfold generateAs
  congr 1
  funext rules skip
  unfold selectAs select
  rw [Walk.traverseAs_natural]

theorem keepsSound_passive : Receiver.passive.KeepsSound := fun _ _ h => h

section
variable {fs : FileSystem} (hfs : fs.Sound) (g : Guise) (token : CancellationToken)
  (options : Options) {root : Path} {d : Inode} (hroot : fs.stat root.text = .ok d)
include hfs hroot

/-- What is selected does not depend on the guise. -/
theorem selectAs_result (rules : RuleSet) (skip : List Text) :
    (selectAs g fs token options root rules skip).result
      = (select fs token options root rules skip).result := by
  have hmirrors : Walk.Mirrors g
      (Walk.traverseAs g options.walk Receiver.passive root ⟨fs, token⟩)
      (Walk.traverse options.walk Receiver.passive root ⟨fs, token⟩) :=
    Walk.mirrors_traverse g keepsSound_passive options.walk root hfs
  unfold selectAs select
  cases htoken : token.isCancelled with
  | true =>
    -- neither walk comes to see anything
    have htrace : (Walk.traverseAs g options.walk Receiver.passive root ⟨fs, token⟩).trace = [] :=
      Walk.trace_traverseAs_of_cancelled g options.walk htoken hroot
    obtain ⟨message, hquiet⟩ : ∃ message, Walk.traverse options.walk Receiver.passive root ⟨fs, token⟩
        = Walk.Run.fail (.bundle (.cancelled message)) ⟨⟨fs, token⟩, [d], 0⟩ :=
      Walk.traverse_of_cancelled options.walk htoken hroot
    unfold sourceOf
    dsimp only
    rw [hmirrors.halt, htrace, hquiet]
    rfl
  | false =>
    have hquiet : (Walk.traverse options.walk Receiver.passive root ⟨fs, token⟩).halt = none :=
      ((Walk.steady_passive hfs htoken).halt_traverse options.walk root rfl).mpr
        (FileSystem.askable_of_stat hroot)
    dsimp only
    rw [sourceOf_of_not_halt hquiet, sourceOf_of_not_halt (hmirrors.halt.trans hquiet)]
    by_cases hsize : options.filter.size ≤ FilterOptions.batchLimit
    · rw [Filter.run_result hsize rules skip htoken (not_cancel_mem_sourceOf _),
        Filter.run_result hsize rules skip htoken (not_cancel_mem_sourceOf _), candidates_sourceOf,
        candidates_sourceOf, hmirrors.candidates]
    · -- the size of the batches is refused before a candidate is taken
      unfold Filter.run
      rw [if_pos (Nat.lt_of_not_le hsize), if_pos (Nat.lt_of_not_le hsize)]

omit hroot in
/-- However the directories are listed each time, and however the nodes are numbered, a walk hands out
the same candidates in the same order and ends in the same way, and the manifest is the same: the list,
or why there is none, and the files that are left. -/
theorem generateAs_eq_generate (root : Path) :
    (∀ walkOptions : Walk.Options,
      let run := Walk.traverseAs g walkOptions Receiver.passive root ⟨fs, token⟩
      let quiet := Walk.traverse walkOptions Receiver.passive root ⟨fs, token⟩
      run.candidates = quiet.candidates ∧ run.halt = quiet.halt) ∧
    (generateAs g fs token options root).result = (generate fs token options root).result ∧
    (generateAs g fs token options root).files = (generate fs token options root).files := by
  constructor
  · intro walkOptions run quiet
    have hmirrors : Walk.Mirrors g run quiet :=
      Walk.mirrors_traverse g keepsSound_passive walkOptions root hfs
    exact ⟨hmirrors.candidates, hmirrors.halt⟩
  · rw [← generateFrom_select fs token]
    apply generateFrom_congr
    intro loading skip hready
    obtain ⟨d, hroot⟩ := stat_of_probe hready.probe
    exact selectAs_result hfs g token options hroot loading.rules skip

end

/-- Every directory is listed from its end, and every node has the next number. -/
def backward : Guise where
  order _ _ listed := listed.reverse
  number i := i + 1
  order_perm _ _ listed := List.reverse_perm listed
  number_injective _ _ h := Nat.succ.inj h

theorem generateAs_eq_generate_backward :
    Walk.crossing.Sound ∧
      let options : Options := { output := some (Path.ofText "x/list") }
      (∀ walkOptions : Walk.Options,
        let run := Walk.traverseAs backward walkOptions Receiver.passive ⟨.here, []⟩
          ⟨Walk.crossing, {}⟩
        let quiet := Walk.traverse walkOptions Receiver.passive ⟨.here, []⟩ ⟨Walk.crossing, {}⟩
        run.candidates = quiet.candidates ∧ run.halt = quiet.halt) ∧
      (generateAs backward Walk.crossing {} options ⟨.here, []⟩).result
        = (generate Walk.crossing {} options ⟨.here, []⟩).result ∧
      (generateAs backward Walk.crossing {} options ⟨.here, []⟩).files
        = (generate Walk.crossing {} options ⟨.here, []⟩).files :=
  ⟨by decide, generateAs_eq_generate (by decide) backward {} _ ⟨.here, []⟩⟩

end BundleManifest.Manifest
