/-
# BundleManifest.Proofs.Manifest.Stages — where generating a manifest can fail

A manifest is generated in stages. `Unready` lists the failures before any files are selected, and
`Ready` is what is needed to select them; after that selecting fails, or writing does
(`failure_of_ready`). How files are selected is left open by `generateFrom`, so that all this also holds
of ways of selecting that `generate` does not use.
-/
import BundleManifest.Proofs.FileSystem.Asking
import BundleManifest.Proofs.Manifest.Selection

namespace BundleManifest

/-! ## Stages that fail -/

/-- A rule file that cannot be read is taken for an empty one, unless it cannot be asked for. -/
theorem RuleSet.failure_of_reader {fs : FileSystem} {path : Path} {f : Failure}
    (h : reader fs path = .error f) :
    ∃ e, fs.read path.text = .error e ∧ ∀ fault, e ≠ .fault fault := by
  unfold reader at h
  split at h
  · cases h
  · cases h
  · cases h
  · next e hmissing hfault hread =>
    cases h
    exact ⟨e, hread, hfault⟩

/-- A file below a directory can be read, or there is a fault in reading it. -/
theorem fault_of_read_child {fs : FileSystem} {root : Path} {d : Inode}
    (hroot : fs.stat root.text = .ok d) {name : Text} (hname : name.Askable) {e : PathFault}
    (h : fs.read (root.child name).text = .error e) : ∃ fault, e = .fault fault := by
  have hask := Path.askable_child (FileSystem.askable_of_stat hroot) hname
  unfold FileSystem.read at h
  cases hstat : fs.stat (root.child name).text with
  | error e' =>
    rw [hstat] at h
    cases h
    exact (FileSystem.stat_error_iff_askable hstat).mpr hask
  | ok i =>
    simp only [hstat, bind, Except.bind] at h
    split at h <;> cases h <;> exact ⟨_, rfl⟩

/-- The rules of a directory are always loaded. -/
theorem RuleSet.exists_load {fs : FileSystem} {root : Path} {d : Inode}
    (hroot : fs.stat root.text = .ok d) (override : Option (List Text)) :
    ∃ loading, load (reader fs) root override = .ok loading := by
  have hread (name : Text) (hname : name.Askable) :
      ∃ read, reader fs (root.child name) = .ok read := by
    cases hreader : reader fs (root.child name) with
    | ok read => exact ⟨read, rfl⟩
    | error f =>
      obtain ⟨e, herror, hfault⟩ := failure_of_reader hreader
      obtain ⟨fault, rfl⟩ := fault_of_read_child hroot hname herror
      exact absurd rfl (hfault fault)
  obtain ⟨basic, hbasic⟩ := hread basicFile ⟨_, rfl, by decide⟩
  obtain ⟨pattern, hpattern⟩ := hread patternFile ⟨_, rfl, by decide⟩
  unfold load
  cases override with
  | some lines => simp [hbasic, bind, Except.bind, pure, Except.pure]
  | none => simp [hbasic, hpattern, bind, Except.bind, pure, Except.pure]

namespace Manifest

/-- The path to skip is found unless the links of the output, or of the root, go round in a circle. -/
theorem failure_of_skipped {fs : FileSystem} {options : Options} {root : Path} {f : Failure}
    (h : skipped fs options root = .error f) :
    ∃ output p, options.output = some output ∧ options.excludeManifest = true ∧
      f = .linkLoop p.text ∧ (fs.resolved output = .circle p ∨ fs.resolved root = .circle p) := by
  unfold skipped at h
  split at h
  · next output hout =>
    split at h
    · next hexclude =>
      refine ⟨output, ?_⟩
      unfold pathBelow at h
      split at h
      · next p hcircle =>
        cases h
        exact ⟨p, hout, hexclude, rfl, Or.inl hcircle⟩
      · cases h
      · split at h
        · next r hcircle =>
          cases h
          exact ⟨r, hout, hexclude, rfl, Or.inr hcircle⟩
        · cases h
        · cases h
    · cases h
  · cases h

/-- Writing fails because of one fault, and the failure keeps what was to be written. -/
theorem failure_of_write {fs : FileSystem} {path : Path} {files : List Text} {f : Failure}
    (h : (write fs path files).result = .error f) :
    ∃ fault, f = writeFailure path files fault ∧
      (makeTemporary fs path = .error fault ∨
        ∃ made temporary, makeTemporary fs path = .ok (made, temporary) ∧
          publish made temporary path files = .error fault) := by
  unfold write at h
  cases hmade : makeTemporary fs path with
  | error fault =>
    simp only [hmade] at h
    cases h
    exact ⟨fault, rfl, Or.inl rfl⟩
  | ok found =>
    obtain ⟨made, temporary⟩ := found
    simp only [hmade] at h
    cases hpublish : publish made temporary path files with
    | error fault =>
      simp only [hpublish] at h
      cases h
      exact ⟨fault, rfl, Or.inr ⟨made, temporary, rfl, hpublish⟩⟩
    | ok written =>
      simp only [hpublish] at h
      cases h

/-! ## Generating in stages -/

/-- Generates the manifest of an application, when files are selected in some way. -/
def generateFrom (fs : FileSystem) (options : Options) (root : Path)
    (selecting : RuleSet → List Text → FilterOutcome) : Outcome (List Text) :=
  let failed (notices : List Notice) (f : Failure) : Outcome (List Text) := ⟨fs, notices, .error f⟩
  match fs.probe root.text with
  | .error fault => failed [] (.file fault [root.text])
  | .ok (some .directory) =>
    match RuleSet.load (RuleSet.reader fs) root options.patterns with
    | .error f => failed [] f
    | .ok loading =>
      match skipped fs options root with
      | .error f => failed loading.notices f
      | .ok skip =>
        let selection := selecting loading.rules skip
        let notices := loading.notices ++ selection.notices
        match selection.result with
        | .error f => failed notices f
        | .ok kept =>
          let files := kept.eraseDups
          let generated :=
            Notice.manifestGenerated root.text loading.rules.size files.length options.workers
          let notices := notices ++ [generated]
          match options.output with
          | none => ⟨fs, notices, .ok files⟩
          | some output =>
            let written := write fs output files
            ⟨written.files, notices ++ written.notices, written.result.map fun _ => files⟩
  | .ok _ => failed [] (.bundle (.rootMissing root.text))

theorem generateFrom_select (fs : FileSystem) (token : CancellationToken) (options : Options)
    (root : Path) :
    generateFrom fs options root (select fs token options root) = generate fs token options root :=
  rfl

/-- Why no files are selected at all. -/
inductive Unready (fs : FileSystem) (options : Options) (root : Path) : Failure → Prop
  | root {fault : FileFault} (h : fs.probe root.text = .error fault) :
    Unready fs options root (.file fault [root.text])
  | missing {kind? : Option NodeKind} (h : fs.probe root.text = .ok kind?)
    (hkind : kind? ≠ some .directory) :
    Unready fs options root (.bundle (.rootMissing root.text))
  | skip {f : Failure} {loading : RuleSet.Loading}
    (h : fs.probe root.text = .ok (some .directory))
    (hload : RuleSet.load (RuleSet.reader fs) root options.patterns = .ok loading)
    (hskip : skipped fs options root = .error f) : Unready fs options root f

/-- All that is needed to select files. -/
structure Ready (fs : FileSystem) (options : Options) (root : Path) (loading : RuleSet.Loading)
    (skip : List Text) : Prop where
  probe : fs.probe root.text = .ok (some .directory)
  load : RuleSet.load (RuleSet.reader fs) root options.patterns = .ok loading
  skip : skipped fs options root = .ok skip

section
variable {fs : FileSystem} {options : Options} {root : Path}

theorem ready_or_unready (fs : FileSystem) (options : Options) (root : Path) :
    (∃ loading skip, Ready fs options root loading skip) ∨ ∃ f, Unready fs options root f := by
  cases hprobe : fs.probe root.text with
  | error fault => exact Or.inr ⟨_, .root hprobe⟩
  | ok kind? =>
    by_cases hkind : kind? = some .directory
    · rw [hkind] at hprobe
      obtain ⟨d, hroot⟩ := stat_of_probe hprobe
      obtain ⟨loading, hload⟩ := RuleSet.exists_load hroot options.patterns
      cases hskip : skipped fs options root with
      | error f => exact Or.inr ⟨f, .skip hprobe hload hskip⟩
      | ok skip => exact Or.inl ⟨loading, skip, hprobe, hload, hskip⟩
    · exact Or.inr ⟨_, .missing hprobe hkind⟩

variable {selecting : RuleSet → List Text → FilterOutcome}

theorem generateFrom_of_unready {f : Failure} (h : Unready fs options root f) :
    (generateFrom fs options root selecting).result = .error f ∧
      (generateFrom fs options root selecting).files = fs := by
  unfold generateFrom
  cases h with
  | root h => simp only [h, and_self]
  | missing h hkind => simp only [h, and_self]
  | skip h hload hskip => simp only [h, hload, hskip, and_self]

/-- An output that is given as a text is read from it. -/
theorem exists_target_of_output {target? : Option Text} {output : Path}
    (hout : options.output = target?.map Path.ofText) (h : options.output = some output) :
    ∃ target, output = Path.ofText target := by
  rw [h] at hout
  obtain ⟨target, -, heq⟩ := Option.map_eq_some_iff.mp hout.symm
  exact ⟨target, heq.symm⟩

/-- When everything is ready, selecting the files fails, or writing them does, and then the file system
is what that has left. -/
theorem failure_of_ready {loading : RuleSet.Loading} {skip : List Text}
    (hready : Ready fs options root loading skip) {f : Failure}
    (h : (generateFrom fs options root selecting).result = .error f) :
    (generateFrom fs options root selecting).files = fs ∧
        (selecting loading.rules skip).result = .error f ∨
      ∃ output kept, options.output = some output ∧
        (selecting loading.rules skip).result = .ok kept ∧
        (write fs output kept.eraseDups).result = .error f ∧
        (generateFrom fs options root selecting).files = (write fs output kept.eraseDups).files := by
  unfold generateFrom at h ⊢
  simp only [hready.probe, hready.load, hready.skip] at h ⊢
  cases hselect : (selecting loading.rules skip).result with
  | error g =>
    simp only [hselect] at h
    cases h
    exact Or.inl ⟨rfl, rfl⟩
  | ok kept =>
    simp only [hselect] at h
    cases hout : options.output with
    | none =>
      rw [hout] at h
      cases h
    | some output =>
      simp only [hout] at h
      refine Or.inr ⟨output, kept, rfl, rfl, ?_, rfl⟩
      cases hwrite : (write fs output kept.eraseDups).result with
      | error g =>
        rw [hwrite] at h
        cases h
        rfl
      | ok p =>
        rw [hwrite] at h
        cases h

end

end Manifest

end BundleManifest
