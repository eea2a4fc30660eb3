/-
# BundleManifest.Proofs.Config.Stability — a configuration is its own settings

A configuration that is returned holds what its settings were taken for, and each of these values is taken
for itself (`takes_held`). Given back as the settings of a command line they therefore prevail over the
environment and the file. The manifest path is the exception, since one that is absent supplies nothing:
then nothing supplied one the first time either (`get_manifestPath_of_takes`).
-/
import BundleManifest.Proofs.Config.Precedence

namespace BundleManifest.Config

/-- The value that a configuration has for a setting. -/
def held (config : Config) : Field → Value
  | .manifestPath => (config.manifestPath.map Value.text).getD .null
  | .workers => .int config.workers
  | .batchSize => .int config.batchSize
  | .followLinks => .bool config.followLinks
  | .excludeManifest => .bool config.excludeManifest
  | .debug => .bool config.debug
  | .jsonLogs => .bool config.jsonLogs

/-- A configuration as the settings of a command line. -/
def settings (config : Config) : Settings :=
  [Field.manifestPath, .workers, .batchSize, .followLinks, .excludeManifest, .debug, .jsonLogs].map
    fun f => (f.name, config.held f)

theorem get?_settings (config : Config) (f : Field) : config.settings.get? f.name = some (config.held f) := by
  cases f <;> rfl

theorem get?_settings_otherName (config : Config) {f : Field} {other : Text}
    (h : f.otherName? = some other) : config.settings.get? other = none := by
  cases f <;> cases h <;> rfl

theorem Supplies.ne_null {source? : Text → Option Value} {f : Field} {v : Value}
    (h : Supplies source? f v) : v ≠ .null := by
  cases h with
  | other _ _ hnull => exact hnull
  | name _ hnull _ => exact hnull

/-- The settings of a configuration supply what it holds, unless that is null. -/
theorem supplies_settings_iff {config : Config} {f : Field} {v : Value} :
    Supplies config.settings.get? f v ↔ config.held f = v ∧ v ≠ .null := by
  constructor
  · intro h
    cases h with
    | other hother hv _ =>
      rw [get?_settings_otherName config hother] at hv
      cases hv
    | name hv hnull _ =>
      rw [get?_settings] at hv
      exact ⟨Option.some.inj hv, hnull⟩
  · rintro ⟨rfl, hnull⟩
    refine .name (get?_settings config f) hnull fun other hother w hw => ?_
    rw [get?_settings_otherName config hother] at hw
    cases hw

/-- Only the manifest path can be null. -/
theorem held_eq_null_iff {config : Config} {f : Field} :
    config.held f = .null ↔ f = .manifestPath ∧ config.manifestPath = none := by
  cases f with
  | manifestPath => cases hpath : config.manifestPath <;> simp [held, hpath]
  | _ => simp [held]

/-- What a configuration holds is taken for itself, if the counts are positive. -/
theorem takes_held {config : Config} (hworkers : 1 ≤ config.workers) (hsize : 1 ≤ config.batchSize)
    (f : Field) : config.Takes f (config.held f) := by
  cases f with
  | manifestPath =>
    show ((config.manifestPath.map Value.text).getD .null).Names config.manifestPath
    cases config.manifestPath with
    | none => exact .null
    | some t => exact .text t
  | workers => exact ⟨hworkers, .int _⟩
  | batchSize => exact ⟨hsize, .int _⟩
  | followLinks => exact .bool _
  | excludeManifest => exact .bool _
  | debug => exact .bool _
  | jsonLogs => exact .bool _

/-- Where a configuration ends up without a manifest path, no command line gave one, and there was none
before. -/
theorem get_manifestPath_of_takes {config : Config} {d : Draft} {arguments : Settings}
    (htakes : config.Takes .manifestPath ((d.apply arguments).get .manifestPath))
    (hnone : config.manifestPath = none) : d.get .manifestPath = .null := by
  have hnull : (d.apply arguments).get .manifestPath = .null := by
    have hnames : ((d.apply arguments).get .manifestPath).Names config.manifestPath := htakes
    rw [hnone] at hnames
    generalize (d.apply arguments).get .manifestPath = v at hnames
    cases hnames
    rfl
  rw [get_apply] at hnull
  cases hsupplied : suppliedFor? arguments .manifestPath with
  | none =>
    rw [hsupplied] at hnull
    exact hnull
  | some v =>
    rw [hsupplied] at hnull
    exact absurd hnull (suppliedFor?_eq_some_iff.mp hsupplied).ne_null

/-- Merging with the settings of the configuration that came out gives that configuration again, whatever the
environment says now. -/
theorem merge_settings {root : Text} {file arguments : Settings} {e : Environment} {config : Config}
    (h : merge root file e arguments = .ok config) (e' : Environment) :
    merge root file e' config.settings = .ok config := by
  obtain ⟨d, hrooted, hcheck⟩ := Except.bind_eq_ok_iff.mp h
  obtain ⟨hroot, htakes⟩ := check_eq_ok_iff.mp hcheck
  refine Except.bind_eq_ok_iff.mpr ⟨d, hrooted, check_eq_ok_iff.mpr ⟨hroot, fun f => ?_⟩⟩
  have hheld : config.Takes f (config.held f) := takes_held (htakes .workers).1 (htakes .batchSize).1 f
  suffices hget : ((d.applyEnvironment e').apply config.settings).get f = config.held f by
    rwa [hget]
  rw [get_apply]
  by_cases hnull : config.held f = .null
  · obtain ⟨rfl, hnone⟩ := held_eq_null_iff.mp hnull
    have hsupplied : suppliedFor? config.settings .manifestPath = none := by
      rw [suppliedFor?_eq_none_iff]
      intro w hw
      obtain ⟨rfl, hw⟩ := supplies_settings_iff.mp hw
      exact hw hnull
    rw [hsupplied, hnull]
    exact get_manifestPath_of_takes (htakes .manifestPath) hnone
  · have hsupplied : suppliedFor? config.settings f = some (config.held f) :=
      suppliedFor?_eq_some_iff.mpr (supplies_settings_iff.mpr ⟨rfl, hnull⟩)
    rw [hsupplied]
    rfl

/-- A configuration that is loaded has at least one worker and a batch size of at least one. Loading again
with its seven settings as the command line gives the same configuration, in the environment of the first
time and in every other. -/
theorem load_settings {fs : FileSystem} {root? : Option Text} {e : Environment} {arguments : Settings}
    {config : Config} (h : load fs root? e arguments = .ok config) :
    1 ≤ config.workers ∧ 1 ≤ config.batchSize ∧
      ∀ e', load fs root? e' config.settings = .ok config := by
  obtain ⟨file, hfile, hmerge⟩ := Except.bind_eq_ok_iff.mp h
  obtain ⟨d, hrooted, hcheck⟩ := Except.bind_eq_ok_iff.mp hmerge
  obtain ⟨-, htakes⟩ := check_eq_ok_iff.mp hcheck
  refine ⟨(htakes .workers).1, (htakes .batchSize).1, fun e' => ?_⟩
  exact Except.bind_eq_ok_iff.mpr ⟨file, hfile, merge_settings hmerge e'⟩

/-- The configuration of an application, loaded again in an environment that says something else. -/
theorem load_settings_layered :
    load layered none ⟨"yes", "2"⟩ [("batch_size", .int 16), ("batchSize", .null)]
      = .ok layeredConfig ∧
    load layered none ⟨"off", "many"⟩ layeredConfig.settings = .ok layeredConfig :=
  ⟨load_layered, (load_settings load_layered).2.2 ⟨"off", "many"⟩⟩

end BundleManifest.Config
