/-
# BundleManifest.Proofs.CommandLine.Modes — what is printed and what is written

The command `manifest` prints the paths of a bundle, or writes them to a file when it is given an output.
Both come from one list, but what is printed loses its control sequences. So the bytes on the stream are
those of the file exactly if no path holds a control sequence (`printed_eq_written_iff`), and there are
paths that do (`not_every_list_is_printed_as_written`).
-/
import BundleManifest.Proofs.CommandLine.Options
import BundleManifest.Proofs.CommandLine.Screen
import BundleManifest.Proofs.FileSystem.WellFormed
import BundleManifest.Proofs.Manifest.Fresh

namespace BundleManifest.CommandLine

open Config (load fileName documentAt Supplies merge_of_load)

/-! ## How a command ends -/

section
variable {fs : FileSystem}

/-- A command that was stopped succeeds only if it was asked for help. -/
theorem help_of_stopped {path synopsis : Text} {stop : Stop}
    (h : (stopped fs path synopsis stop).exit = .ok 0) : stop = .help := by
  cases stop with
  | usage fault => cases h
  | failure f =>
    cases f with
    | bundle e => cases h
    | _ => cases h
  | help => rfl

theorem pure_ne_help {α : Type} (a : α) : (pure a : Except Stop α) ≠ .error .help := nofun

/-- Steps one after the other show help only if one of them does. -/
theorem bind_ne_help {α β : Type} {x : Except Stop α} {f : α → Except Stop β} (hx : x ≠ .error .help)
    (hf : ∀ a, f a ≠ .error .help) : (x >>= f) ≠ .error .help := by
  intro h
  rcases Except.bind_eq_error_iff.mp h with h | ⟨a, -, h⟩
  · exact hx h
  · exact hf a h

theorem aboutFile_ne_help (parameter : Text) (fault : Text → ValueFault) (name : Text) :
    aboutFile parameter fault name ≠ .help := by
  unfold aboutFile
  split <;> exact Stop.noConfusion

theorem outputOf_ne_help (name : Text) : outputOf fs name ≠ .error .help := by
  unfold outputOf
  split
  · split
    · exact fun h => aboutFile_ne_help _ _ _ (Except.error.inj h)
    · nofun
  · nofun
  · nofun

theorem rootOf_ne_help (name : Text) : rootOf fs name ≠ .error .help := by
  unfold rootOf
  dsimp only
  split
  · exact fun h => aboutFile_ne_help _ _ _ (Except.error.inj h)
  · nofun
  · split
    · exact fun h => aboutFile_ne_help _ _ _ (Except.error.inj h)
    · nofun

theorem integerOf_ne_help (parameter t : Text) : integerOf parameter t ≠ .error .help := by
  unfold integerOf
  split <;> nofun

theorem suppliedBy_ne_help (a : Arguments) (s : Setting) : suppliedBy fs a s ≠ .error .help := by
  cases s with
  | output =>
    simp only [suppliedBy]
    split
    · exact bind_ne_help (outputOf_ne_help _) fun _ => pure_ne_help _
    · exact pure_ne_help _
  | workers | batchSize =>
    simp only [suppliedBy]
    split
    · exact bind_ne_help (integerOf_ne_help _ _) fun _ => pure_ne_help _
    · exact pure_ne_help _
  | followLinks | noFollowLinks =>
    simp only [suppliedBy]
    split <;> exact pure_ne_help _
  | debug | jsonLogs | help | version => exact pure_ne_help _

theorem supplied_ne_help (a : Arguments) (given : List Setting) :
    supplied fs a given ≠ .error .help := by
  induction given with
  | nil => exact pure_ne_help _
  | cons s given ih =>
    exact bind_ne_help (suppliedBy_ne_help a s) fun _ => bind_ne_help ih fun _ => pure_ne_help _

theorem rootAmong_ne_help (others : List Text) : rootAmong fs others ≠ .error .help := by
  apply bind_ne_help (rootOf_ne_help _)
  intro root
  split <;> nofun

/-- The command ends otherwise than by showing help. -/
theorem manifest_ne_help (e : Environment) (a : Arguments) : manifest fs e a ≠ .error .help := by
  apply bind_ne_help (supplied_ne_help a _)
  intro settings
  apply bind_ne_help (rootAmong_ne_help _)
  intro root
  split <;> nofun

end

/-! ## The command -/

/-- The configuration that the arguments of the command `manifest` ask for. -/
def Configured (fs : FileSystem) (e : Environment) (a : Arguments) (config : Config) : Prop :=
  ∃ settings root, supplied fs a a.settings = .ok settings ∧ rootAmong fs a.others = .ok root ∧
    load fs (some root.text) e settings = .ok config

/-- How a manifest is generated under a configuration. -/
def optionsOf (config : Config) : Manifest.Options where
  output := config.manifestPath.map Path.ofText
  workers := config.workers
  batchSize := config.batchSize
  followLinks := config.followLinks
  excludeManifest := config.excludeManifest

section
variable {fs : FileSystem} {e : Environment}

theorem run_manifest (program : Text) (args : List Text) :
    run fs program e ("manifest" :: args) = runCommand fs program e .manifest args := by
  have hparse : Arguments.parse programSwitches false ("manifest" :: args)
      = .ok ⟨[], "manifest" :: args⟩ := by
    rw [Arguments.parse, if_neg (by decide), if_neg (by decide), if_neg (by decide)]
  unfold run
  rw [hparse]
  rfl

/-- A manifest that is generated without a failure is printed or has been written. -/
theorem exists_list_of_generateAs {config : Config} (h : (generateAs fs config).exit = .ok 0) :
    ∃ files, (Manifest.generate fs {} (optionsOf config) (Path.ofText config.root)).result
        = .ok files ∧
      (generateAs fs config).files
        = (Manifest.generate fs {} (optionsOf config) (Path.ofText config.root)).files ∧
      (config.manifestPath = none → (generateAs fs config).output = screenLines files) := by
  unfold optionsOf
  unfold generateAs at h ⊢
  cases hresult : (Manifest.generate fs {} {
      output := config.manifestPath.map Path.ofText
      workers := config.workers
      batchSize := config.batchSize
      followLinks := config.followLinks
      excludeManifest := config.excludeManifest } (Path.ofText config.root)).result with
  | error f =>
    simp only [hresult] at h
    cases f with
    | bundle e => cases h
    | _ => cases h
  | ok files =>
    refine ⟨files, rfl, ?_⟩
    simp only [hresult]
    cases config.manifestPath with
    | none => exact ⟨rfl, fun _ => rfl⟩
    | some path => exact ⟨rfl, fun hnone => by cases hnone⟩

/-- A command that succeeds has generated a list. -/
theorem generated_of_run {program : Text} {args : List Text} {a : Arguments}
    (hparse : Arguments.parse Command.manifest.switches true args = .ok a)
    (hhelp : a.has .help = false)
    (hexit : (run fs program e ("manifest" :: args)).exit = .ok 0) :
    ∃ config, Configured fs e a config ∧ (generateAs fs config).exit = .ok 0 ∧
      run fs program e ("manifest" :: args) = generateAs fs config := by
  have hdispatch : dispatch fs e .manifest a = manifest fs e a := by
    unfold dispatch
    rw [hhelp]
    rfl
  rw [run_manifest] at hexit ⊢
  unfold runCommand at hexit ⊢
  simp only [hparse, Except.mapError, bind, Except.bind, hdispatch] at hexit ⊢
  cases hmanifest : manifest fs e a with
  | error stop =>
    simp only [hmanifest] at hexit
    cases help_of_stopped hexit
    exact absurd hmanifest (manifest_ne_help e a)
  | ok effect =>
    simp only [hmanifest] at hexit ⊢
    obtain ⟨settings, hsettings, h⟩ := Except.bind_eq_ok_iff.mp hmanifest
    obtain ⟨root, hroot, h⟩ := Except.bind_eq_ok_iff.mp h
    cases hload : load fs (some root.text) e settings with
    | error f =>
      simp only [hload] at h
      cases h
      cases f with
      | bundle e => cases hexit
      | _ => cases hexit
    | ok config =>
      simp only [hload] at h
      cases h
      exact ⟨config, ⟨settings, root, hsettings, hroot, hload⟩, hexit, rfl⟩

end

/-- Arguments ask for one configuration. -/
theorem Configured.unique {fs : FileSystem} {e : Environment} {a : Arguments} {config other : Config}
    (h : Configured fs e a config) (h' : Configured fs e a other) : config = other := by
  obtain ⟨settings, root, hsettings, hroot, hload⟩ := h
  obtain ⟨settings', root', hsettings', hroot', hload'⟩ := h'
  cases hsettings.symm.trans hsettings'
  cases hroot.symm.trans hroot'
  exact Except.ok.inj (hload.symm.trans hload')

/-- With an output in addition, and no manifest path in the configuration file, the arguments ask for the
same configuration with the path of the output. -/
theorem Configured.addsOutput {fs : FileSystem} {e : Environment} {a a' : Arguments}
    {config config' : Config} (hout : a.has .output = false) (h : Configured fs e a config)
    (hfile : ∀ d, documentAt fs ((Path.ofText config.root).child fileName) = .ok d →
      ∀ v, ¬ Supplies d.get? .manifestPath v) {out : Text} (hadds : a.AddsOutput a' out)
    (h' : Configured fs e a' config') :
    config.manifestPath = none ∧
      config' = { config with manifestPath := some (Path.ofText out).text } := by
  obtain ⟨settings, root, hsettings, hroot, hload⟩ := h
  obtain ⟨settings', root', hsettings', hroot', hload'⟩ := h'
  rw [hadds.others, hroot] at hroot'
  cases hroot'
  rw [(merge_of_load hload).1] at hfile
  exact (addsPath_of_addsOutput hadds hout hsettings hsettings').config_eq hfile hload hload'

/-! ## The two modes -/

section
variable {fs : FileSystem} (hfs : fs.Sound) (hwhole : fs.Whole) (hplaced : fs.Placed)
include hfs hwhole hplaced

/-- The command `manifest` prints the list that it writes when it is given an output where nothing is
yet. It prints the bytes that it writes exactly if no path on the list holds a control sequence. -/
theorem printed_eq_written_iff (program : Text) (e : Environment) {args args' : List Text}
    {a a' : Arguments} {out : Text}
    (hparse : Arguments.parse Command.manifest.switches true args = .ok a)
    (hparse' : Arguments.parse Command.manifest.switches true args' = .ok a')
    (hadds : a.AddsOutput a' out) (hout : a.has .output = false) (hhelp : a.has .help = false)
    {config : Config} (hconfig : Configured fs e a config)
    (hfile : ∀ d, documentAt fs ((Path.ofText config.root).child fileName) = .ok d →
      ∀ v, ¬ Supplies d.get? .manifestPath v)
    (hroomy : config.excludeManifest = true →
      fs.Roomy (Path.ofText config.root).text ∧ fs.Roomy (Path.ofText out).text)
    (hfresh : ∀ i, fs.lstat (Path.ofText out).text ≠ .ok i)
    (hprints : (run fs program e ("manifest" :: args)).exit = .ok 0)
    (hwrites : (run fs program e ("manifest" :: args')).exit = .ok 0) :
    let printing := run fs program e ("manifest" :: args)
    let writing := run fs program e ("manifest" :: args')
    printing.files = fs ∧ ∃ files bytes, printing.output = screenLines files ∧
      Utf8.encode (Manifest.text files) = .ok bytes ∧
      writing.files.read (Path.ofText out).text = .ok bytes ∧
      (Utf8.encode printing.output = .ok bytes ↔ ∀ x ∈ files, ¬ HoldsSequence x) := by
  intro printing writing
  obtain ⟨config₁, hconfig₁, hexit, hprinting⟩ := generated_of_run hparse hhelp hprints
  obtain ⟨config₂, hconfig₂, hexit', hwriting⟩ := generated_of_run hparse'
    ((hadds.has_eq (by decide)).trans hhelp) hwrites
  obtain rfl := hconfig.unique hconfig₁
  obtain ⟨hnone, rfl⟩ := hconfig.addsOutput hout hfile hadds hconfig₂
  obtain ⟨files, hresult, hleft, hlines⟩ := exists_list_of_generateAs hexit
  obtain ⟨files', hresult', hwritten, -⟩ := exists_list_of_generateAs hexit'
  have hnoOutput : (optionsOf config).output = none := congrArg (Option.map Path.ofText) hnone
  have houtput : (optionsOf { config with manifestPath := some (Path.ofText out).text }).output
      = some (Path.ofText out) := congrArg some (Path.ofText_text out)
  have hoptions : optionsOf config = { optionsOf { config with
      manifestPath := some (Path.ofText out).text } with output := none } := by
    unfold optionsOf
    rw [hnone]
    rfl
  obtain ⟨hsame, bytes, hbytes, hread⟩ :=
    Manifest.generate_of_fresh hfs hwhole hplaced houtput hroomy hfresh hresult'
  rw [← hoptions, hresult] at hsame
  obtain rfl := Except.ok.inj hsame
  have hprinted : printing.output = screenLines files := by
    show (run fs program e ("manifest" :: args)).output = screenLines files
    rw [hprinting]
    exact hlines hnone
  refine ⟨?_, files, bytes, hprinted, hbytes, ?_, ?_⟩
  · show (run fs program e ("manifest" :: args)).files = fs
    rw [hprinting, hleft]
    exact Manifest.files_of_generate_none hnoOutput
  · show (run fs program e ("manifest" :: args')).files.read _ = _
    rw [hwriting, hwritten]
    exact hread
  · rw [hprinted]
    exact encode_screenLines_iff hbytes

end

/-- An application with a file whose name holds a control sequence. -/
def painted : FileSystem :=
  FileSystem.empty.applyAll [.makeDirectory "app", .write "app/a\x1B[mb" []]

/-- The configuration of that application, which has no configuration file. -/
def paintedConfig : Config := ⟨"app", none, 1, 256, true, true, false, false⟩

theorem whole_painted : painted.Whole := FileSystem.whole_made _

theorem placed_painted : painted.Placed := FileSystem.placed_made _

set_option maxRecDepth 10000 in
theorem roomy_painted :
    painted.Roomy (Path.ofText "app").text ∧ painted.Roomy (Path.ofText "m").text := by
  constructor
  · have hpath : Utf8.decode [0x61, 0x70, 0x70] = (Path.ofText "app").text :=
      Utf8.decode_of_ascii (by simp)
    exact ⟨_, hpath.symm, by decide⟩
  · have hpath : Utf8.decode [0x6D] = (Path.ofText "m").text := Utf8.decode_of_ascii (by simp)
    exact ⟨_, hpath.symm, by decide⟩

theorem documentAt_painted :
    documentAt painted ((Path.ofText paintedConfig.root).child fileName) = .ok {} := by
  rfl

theorem configured_painted : Configured painted {} ⟨[], ["app"]⟩ paintedConfig :=
  ⟨[], Path.ofText "app", rfl, rfl, rfl⟩

set_option maxRecDepth 10000 in
theorem run_painted :
    (run painted "deploybundle" {} ["manifest", "app"]).exit = .ok 0 ∧
    (run painted "deploybundle" {} ["manifest", "app"]).output = "ab\n" := by
  constructor
  · cbv
  · cbv

set_option maxRecDepth 10000 in
theorem run_painted_output :
    (run painted "deploybundle" {} ["manifest", "app", "-o", "m"]).exit = .ok 0 ∧
    (run painted "deploybundle" {} ["manifest", "app", "-o", "m"]).files.read (Path.ofText "m").text
      = .ok [0x61, 0x1B, 0x5B, 0x6D, 0x62, 0x0A] := by
  constructor
  · cbv
  · cbv

theorem lstat_painted (i : Inode) : painted.lstat (Path.ofText "m").text ≠ .ok i := by
  have hmissing : painted.lstat (Path.ofText "m").text = .error (.fault .missing) := by decide
  simp [hmissing]

theorem printed_eq_written_iff_painted :
    painted.Sound ∧ painted.Whole ∧ painted.Placed ∧
    Configured painted {} ⟨[], ["app"]⟩ paintedConfig ∧
    let printing := run painted "deploybundle" {} ["manifest", "app"]
    let writing := run painted "deploybundle" {} ["manifest", "app", "-o", "m"]
    printing.exit = .ok 0 ∧ writing.exit = .ok 0 ∧
    printing.files = painted ∧ ∃ files bytes, printing.output = screenLines files ∧
      Utf8.encode (Manifest.text files) = .ok bytes ∧
      writing.files.read (Path.ofText "m").text = .ok bytes ∧
      (Utf8.encode printing.output = .ok bytes ↔ ∀ x ∈ files, ¬ HoldsSequence x) := by
  have hparse : Arguments.parse Command.manifest.switches true ["app"] = .ok ⟨[], ["app"]⟩ := rfl
  have hparse' : Arguments.parse Command.manifest.switches true ["app", "-o", "m"]
      = .ok ⟨[⟨.output, some "m"⟩], ["app"]⟩ := rfl
  have hfile : ∀ d, documentAt painted ((Path.ofText paintedConfig.root).child fileName) = .ok d →
      ∀ v, ¬ Supplies d.get? .manifestPath v := by
    intro d hd v hv
    cases documentAt_painted.symm.trans hd
    cases hv with
    | other _ hv _ => cases hv
    | name hv _ _ => cases hv
  exact ⟨by decide, whole_painted, placed_painted, configured_painted, run_painted.1,
    run_painted_output.1, printed_eq_written_iff (by decide) whole_painted placed_painted
      "deploybundle" {} hparse hparse' ⟨rfl, [], [], rfl, rfl⟩ rfl rfl configured_painted hfile
      (fun _ => roomy_painted) lstat_painted run_painted.1 run_painted_output.1⟩

/-- What is printed is not always what is written. -/
theorem not_every_list_is_printed_as_written :
    ¬ ∀ (fs : FileSystem) (program : Text) (e : Environment) (args args' : List Text)
      (a a' : Arguments) (config : Config) (out : Text) (bytes : Bytes),
      fs.Sound → fs.Whole → fs.Placed →
      Arguments.parse Command.manifest.switches true args = .ok a →
      Arguments.parse Command.manifest.switches true args' = .ok a' →
      a.AddsOutput a' out → a.has .output = false → a.has .help = false →
      Configured fs e a config → config.manifestPath = none →
      (∀ i, fs.lstat (Path.ofText out).text ≠ .ok i) →
      (run fs program e ("manifest" :: args)).exit = .ok 0 →
      (run fs program e ("manifest" :: args')).files.read (Path.ofText out).text = .ok bytes →
      Utf8.encode (run fs program e ("manifest" :: args)).output = .ok bytes := by
  intro h
  have hbytes := h painted "deploybundle" {} ["app"] ["app", "-o", "m"] _ _ paintedConfig "m" _
    (by decide) whole_painted placed_painted rfl rfl ⟨rfl, [], [], rfl, rfl⟩ rfl rfl
    configured_painted rfl lstat_painted run_painted.1 run_painted_output.2
  rw [run_painted.2] at hbytes
  exact absurd hbytes (by decide)

end BundleManifest.CommandLine
