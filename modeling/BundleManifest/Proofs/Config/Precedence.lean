/-
# BundleManifest.Proofs.Config.Precedence — which source decides about a setting

Four sources give settings: the command line, the environment, the configuration file and the defaults.
`Prevails` says which value of which source counts for a setting, from the highest source down; a
dictionary supplies a setting under either of two names (`Supplies`), and null supplies nothing. A
configuration that is loaded takes every setting from the source that prevails, and only a manifest path
of the configuration file is joined to the application root (`load_takes_prevailing`). What a higher source
overrides, and what stands under names that nobody looks for, makes no difference.
-/
import BundleManifest.Proofs.Config.Coercion
import BundleManifest.Proofs.FileSystem.Changes

namespace BundleManifest.Config

/-! ## Sources -/

namespace Field

/-- The name of a setting. -/
def name : Field → Text
  | manifestPath => "manifest_path"
  | workers => "workers"
  | batchSize => "batch_size"
  | followLinks => "follow_symlinks"
  | excludeManifest => "exclude_manifest"
  | debug => "debug"
  | jsonLogs => "json_logs"

/-- The other name of a setting, if it has one. -/
def otherName? : Field → Option Text
  | manifestPath => some "manifest"
  | batchSize => some "batchSize"
  | followLinks => some "followSymlinks"
  | excludeManifest => some "excludeManifest"
  | jsonLogs => some "jsonLogs"
  | workers | debug => none

/-- What a setting is when no source supplies it. -/
def unset : Field → Value
  | manifestPath => .null
  | workers => .int 1
  | batchSize => .int 256
  | followLinks | excludeManifest => .bool true
  | debug | jsonLogs => .bool false

end Field

/-- A dictionary supplies a value for a setting: one that is not null, under the other name of the
setting, or under its name when there is none under the other. -/
inductive Supplies (source? : Text → Option Value) (f : Field) (v : Value) : Prop
  | other {other : Text} (hother : f.otherName? = some other) (hv : source? other = some v)
    (hnull : v ≠ .null)
  | name (hv : source? f.name = some v) (hnull : v ≠ .null)
    (hother : ∀ other, f.otherName? = some other → ∀ w, source? other = some w → w = .null)

/-- The environment gives two of the settings, as texts that are not empty. -/
inductive Gives (e : Environment) : Field → Value → Prop
  | debug (h : e.debug ≠ []) : Gives e .debug (.text e.debug)
  | workers (h : e.workers ≠ []) : Gives e .workers (.text e.workers)

/-- Where the value of a setting comes from. -/
inductive Origin where
  | arguments
  | environment
  | file
  | default
  deriving DecidableEq, Repr

/-- The value of a source counts for a setting: no higher source supplies it. -/
inductive Prevails (file? : Text → Option Value) (e : Environment) (argument? : Text → Option Value)
    (f : Field) : Origin → Value → Prop
  | arguments {v : Value} (h : Supplies argument? f v) : Prevails file? e argument? f .arguments v
  | environment {v : Value} (harguments : ∀ w, ¬ Supplies argument? f w) (h : Gives e f v) :
    Prevails file? e argument? f .environment v
  | file {v : Value} (harguments : ∀ w, ¬ Supplies argument? f w)
    (henvironment : ∀ w, ¬ Gives e f w) (h : Supplies file? f v) :
    Prevails file? e argument? f .file v
  | default (harguments : ∀ w, ¬ Supplies argument? f w) (henvironment : ∀ w, ¬ Gives e f w)
    (hfile : ∀ w, ¬ Supplies file? f w) : Prevails file? e argument? f .default f.unset

/-- A dictionary supplies one value for a setting at most. -/
theorem Supplies.unique {source? : Text → Option Value} {f : Field} {v w : Value}
    (hv : Supplies source? f v) (hw : Supplies source? f w) : v = w := by
  cases hv with
  | other hother hv hnull =>
    cases hw with
    | other hother' hw _ =>
      cases hother.symm.trans hother'
      exact Option.some.inj (hv.symm.trans hw)
    | name _ _ hnone => exact absurd (hnone _ hother _ hv) hnull
  | name hv _ hnone =>
    cases hw with
    | other hother hw hnull => exact absurd (hnone _ hother _ hw) hnull
    | name hw _ _ => exact Option.some.inj (hv.symm.trans hw)

theorem Gives.unique {e : Environment} {f : Field} {v w : Value} (hv : Gives e f v)
    (hw : Gives e f w) : v = w := by
  cases hv <;> cases hw <;> rfl

/-- One value of one source counts for a setting. -/
theorem Prevails.unique {file? argument? : Text → Option Value} {e : Environment} {f : Field}
    {o o' : Origin} {v w : Value} (hv : Prevails file? e argument? f o v)
    (hw : Prevails file? e argument? f o' w) : o = o' ∧ v = w := by
  cases hv with
  | arguments hv =>
    cases hw with
    | arguments hw => exact ⟨rfl, hv.unique hw⟩
    | environment hnone _ => exact absurd hv (hnone _)
    | file hnone _ _ => exact absurd hv (hnone _)
    | default hnone _ _ => exact absurd hv (hnone _)
  | environment hnone hv =>
    cases hw with
    | arguments hw => exact absurd hw (hnone _)
    | environment _ hw => exact ⟨rfl, hv.unique hw⟩
    | file _ hnone' _ => exact absurd hv (hnone' _)
    | default _ hnone' _ => exact absurd hv (hnone' _)
  | file hnone hnone' hv =>
    cases hw with
    | arguments hw => exact absurd hw (hnone _)
    | environment _ hw => exact absurd hw (hnone' _)
    | file _ _ hw => exact ⟨rfl, hv.unique hw⟩
    | default _ _ hnone => exact absurd hv (hnone _)
  | default hnone hnone' hnone'' =>
    cases hw with
    | arguments hw => exact absurd hw (hnone _)
    | environment _ hw => exact absurd hw (hnone' _)
    | file _ _ hw => exact absurd hw (hnone'' _)
    | default _ _ _ => exact ⟨rfl, rfl⟩

/-! ## Merging -/

/-- The value that a list of settings supplies for a setting. -/
def suppliedFor? (source : Settings) (f : Field) : Option Value :=
  (f.otherName?.bind source.supplied?).or (source.supplied? f.name)

theorem supplied?_eq_some_iff {source : Settings} {name : Text} {v : Value} :
    source.supplied? name = some v ↔ source.get? name = some v ∧ v ≠ .null := by
  unfold Settings.supplied?
  constructor
  · intro h
    split at h
    · cases h
    · cases h
    · next w hnull hw =>
      cases h
      exact ⟨hw, hnull⟩
  · rintro ⟨hv, hnull⟩
    rw [hv]
    cases v with
    | null => exact absurd rfl hnull
    | _ => rfl

theorem supplied?_eq_none_iff {source : Settings} {name : Text} :
    source.supplied? name = none ↔ ∀ w, source.get? name = some w → w = .null := by
  rw [Option.eq_none_iff_forall_ne_some]
  simp only [ne_eq, supplied?_eq_some_iff, not_and, not_not]

theorem suppliedFor?_eq_some_iff {source : Settings} {f : Field} {v : Value} :
    suppliedFor? source f = some v ↔ Supplies source.get? f v := by
  unfold suppliedFor?
  rw [Option.or_eq_some_iff]
  constructor
  · rintro (h | ⟨hnone, h⟩)
    · obtain ⟨other, hother, hv⟩ := Option.bind_eq_some_iff.mp h
      obtain ⟨hv, hnull⟩ := supplied?_eq_some_iff.mp hv
      exact .other hother hv hnull
    · obtain ⟨hv, hnull⟩ := supplied?_eq_some_iff.mp h
      refine .name hv hnull fun other hother => ?_
      rw [hother] at hnone
      exact supplied?_eq_none_iff.mp hnone
  · intro h
    cases h with
    | other hother hv hnull =>
      left
      rw [hother]
      exact supplied?_eq_some_iff.mpr ⟨hv, hnull⟩
    | name hv hnull hother =>
      right
      refine ⟨?_, supplied?_eq_some_iff.mpr ⟨hv, hnull⟩⟩
      cases hname : f.otherName? with
      | none => rfl
      | some other => exact supplied?_eq_none_iff.mpr (hother other hname)

theorem suppliedFor?_eq_none_iff {source : Settings} {f : Field} :
    suppliedFor? source f = none ↔ ∀ w, ¬ Supplies source.get? f w := by
  rw [Option.eq_none_iff_forall_ne_some]
  simp only [ne_eq, suppliedFor?_eq_some_iff]

/-- What a source supplies takes the place of what was there. -/
theorem get_apply (d : Draft) (source : Settings) (f : Field) :
    (d.apply source).get f = (suppliedFor? source f).getD (d.get f) := by
  cases f <;> rfl

/-- The value of a source for a setting, after a manifest path of the configuration file that is relative
and not empty has been joined to the application root. -/
def joined (root : Text) (f : Field) (o : Origin) (v : Value) : Value :=
  match f, o, v with
  | .manifestPath, .file, .text t =>
    if t = [] ∨ (Path.ofText t).isAbsolute = true then .text t
    else .text ((Path.ofText root).join (Path.ofText t)).text
  | _, _, v => v

theorem joined_of_ne_file {o : Origin} (ho : o ≠ .file) (root : Text) (f : Field) (v : Value) :
    joined root f o v = v := by
  unfold joined
  split
  · exact absurd rfl ho
  · rfl

/-- Only the manifest path is joined to the root. -/
theorem eq_of_rooted {d rooted : Draft} {root : Text} (h : d.rooted root = .ok rooted) :
    rooted = { d with manifestPath := joined root .manifestPath .file d.manifestPath } := by
  obtain ⟨path, workers, size, links, exclude, debug, logs⟩ := d
  obtain ⟨t?, htext, hrooted⟩ := Except.bind_eq_ok_iff.mp h
  have hnames : path.Names t? := textOf_eq_ok_iff.mp htext
  cases hnames with
  | null => exact (Except.ok.inj hrooted).symm
  | text t =>
    cases t with
    | nil => exact (Except.ok.inj hrooted).symm
    | cons c t =>
      show rooted = Draft.mk (if c :: t = [] ∨ (Path.ofText (c :: t)).isAbsolute = true then _ else _)
        workers size links exclude debug logs
      dsimp only at hrooted
      split at hrooted
      · next habsolute =>
        rw [if_pos (Or.inr habsolute)]
        exact (Except.ok.inj hrooted).symm
      · next hrelative =>
        rw [if_neg (by simp [hrelative])]
        exact (Except.ok.inj hrooted).symm

theorem get_rooted {d rooted : Draft} {root : Text} (h : d.rooted root = .ok rooted) (f : Field) :
    rooted.get f = joined root f .file (d.get f) := by
  rw [eq_of_rooted h]
  cases f <;> rfl

/-- What the environment gives takes the place of what was there, as far as it is looked at. -/
theorem takes_applyEnvironment {d : Draft} {e : Environment} {f : Field} {v : Value} (h : Gives e f v)
    {config : Config} (htakes : config.Takes f ((d.applyEnvironment e).get f)) : config.Takes f v := by
  cases h with
  | debug hdebug =>
    have hget : (d.applyEnvironment e).get .debug = .bool (isOn e.debug) := if_neg hdebug
    rw [hget] at htakes
    have hdebug : config.debug = isOn e.debug := Value.Switches.unique htakes (.bool _)
    show (Value.text e.debug).Switches config.debug
    rw [hdebug]
    exact .text e.debug
  | workers hworkers =>
    have hget : (d.applyEnvironment e).get .workers = .text e.workers := if_neg hworkers
    rw [hget] at htakes
    exact htakes

theorem get_applyEnvironment {d : Draft} {e : Environment} {f : Field} (h : ∀ v, ¬ Gives e f v) :
    (d.applyEnvironment e).get f = d.get f := by
  cases f with
  | debug =>
    refine if_pos ?_
    by_contra hdebug
    exact h _ (.debug hdebug)
  | workers =>
    refine if_pos ?_
    by_contra hworkers
    exact h _ (.workers hworkers)
  | _ => rfl

/-- After merging, each setting stands as the source that prevails has it. What the environment gives is
left as it was put there. -/
theorem prevails_merged {root : Text} {file arguments : Settings} {e : Environment} {rooted : Draft}
    (hrooted : (({} : Draft).apply file).rooted root = .ok rooted) (f : Field) :
    ∃ o v, Prevails file.get? e arguments.get? f o v ∧
      (((rooted.applyEnvironment e).apply arguments).get f = joined root f o v ∨
        Gives e f v ∧ joined root f o v = v ∧
          ((rooted.applyEnvironment e).apply arguments).get f = (rooted.applyEnvironment e).get f) := by
  rw [get_apply]
  cases harguments : suppliedFor? arguments f with
  | some v =>
    refine ⟨.arguments, v, .arguments (suppliedFor?_eq_some_iff.mp harguments), Or.inl ?_⟩
    exact (joined_of_ne_file (by decide) root f v).symm
  | none =>
    have hnone := suppliedFor?_eq_none_iff.mp harguments
    by_cases henvironment : ∃ v, Gives e f v
    · obtain ⟨v, hv⟩ := henvironment
      exact ⟨.environment, v, .environment hnone hv,
        Or.inr ⟨hv, joined_of_ne_file (by decide) root f v, rfl⟩⟩
    · have hnone' : ∀ v, ¬ Gives e f v := not_exists.mp henvironment
      rw [Option.getD_none, get_applyEnvironment hnone', get_rooted hrooted, get_apply]
      cases hfile : suppliedFor? file f with
      | some v =>
        exact ⟨.file, v, .file hnone hnone' (suppliedFor?_eq_some_iff.mp hfile), Or.inl rfl⟩
      | none =>
        refine ⟨.default, f.unset, .default hnone hnone' (suppliedFor?_eq_none_iff.mp hfile), ?_⟩
        left
        cases f <;> rfl

/-- Of the sources that are merged, the one that prevails decides about each setting. -/
theorem takes_of_merge {root : Text} {file arguments : Settings} {e : Environment} {config : Config}
    (h : merge root file e arguments = .ok config) :
    config.root = root ∧ ∀ f, ∃ o v, Prevails file.get? e arguments.get? f o v ∧
      config.Takes f (joined root f o v) := by
  obtain ⟨d, hrooted, hcheck⟩ := Except.bind_eq_ok_iff.mp h
  obtain ⟨hroot, htakes⟩ := check_eq_ok_iff.mp hcheck
  refine ⟨hroot, fun f => ?_⟩
  have hf := htakes f
  obtain ⟨o, v, hv, hget | ⟨hgives, hjoined, hget⟩⟩ :=
    @prevails_merged root file arguments e d hrooted f
  · rw [hget] at hf
    exact ⟨o, v, hv, hf⟩
  · rw [hget] at hf
    refine ⟨o, v, hv, ?_⟩
    rw [hjoined]
    exact takes_applyEnvironment hgives hf

/-! ## Loading -/

/-- A dictionary supplies what stands under the two names of a setting. -/
theorem supplies_congr {source? source'? : Text → Option Value} {f : Field}
    (hname : source'? f.name = source? f.name)
    (hother : ∀ other, f.otherName? = some other → source'? other = source? other) {v : Value} :
    Supplies source'? f v ↔ Supplies source? f v := by
  constructor
  · intro h
    cases h with
    | other h hv hnull => exact .other h ((hother _ h).symm.trans hv) hnull
    | name hv hnull hnone =>
      refine .name (hname.symm.trans hv) hnull fun other h w hw => ?_
      exact hnone other h w ((hother other h).trans hw)
  · intro h
    cases h with
    | other h hv hnull => exact .other h ((hother _ h).trans hv) hnull
    | name hv hnull hnone =>
      refine .name (hname.trans hv) hnull fun other h w hw => ?_
      exact hnone other h w ((hother other h).symm.trans hw)

theorem lookup_filterMap (source? : Text → Option Value) (name : Text) (names : List Text) :
    (names.filterMap fun n => (source? n).map fun v => (n, v)).lookup name
      = if name ∈ names then source? name else none := by
  induction names with
  | nil => rfl
  | cons first names ih =>
    by_cases hfirst : name = first
    · subst hfirst
      cases hget : source? name with
      | none => simp [hget, ih]
      | some v => simp [hget]
    · have hne : (name == first) = false := beq_false_of_ne hfirst
      cases hget : source? first with
      | none => simp [hget, ih, hfirst]
      | some v => simp [hget, ih, hfirst, List.lookup, hne]

/-- The settings of a document supply what the document does. -/
theorem supplies_settingsOf {d : Yaml.Document} {f : Field} {v : Value} :
    Supplies (settingsOf d).get? f v ↔ Supplies d.get? f v := by
  have hget {name : Text} (h : name ∈ settingNames) : (settingsOf d).get? name = d.get? name := by
    unfold settingsOf Settings.get?
    rw [lookup_filterMap, if_pos h]
  apply supplies_congr
  · apply hget
    cases f <;> decide
  · intro other hother
    apply hget
    cases f <;> cases hother <;> decide

/-- Two inputs differ only in what a higher source overrides, and under names that nobody looks for: the
command lines supply the same settings, and of the others the environments and then the files do. -/
structure Alike (file? file'? argument? argument'? : Text → Option Value) (e e' : Environment) :
    Prop where
  arguments : ∀ f v, Supplies argument? f v ↔ Supplies argument'? f v
  environment : ∀ f, (∀ w, ¬ Supplies argument? f w) → ∀ v, Gives e f v ↔ Gives e' f v
  file : ∀ f, (∀ w, ¬ Supplies argument? f w) → (∀ w, ¬ Gives e f w) →
    ∀ v, Supplies file? f v ↔ Supplies file'? f v

/-- In both inputs the same value prevails. -/
theorem Alike.prevails {file? file'? argument? argument'? : Text → Option Value} {e e' : Environment}
    (halike : Alike file? file'? argument? argument'? e e') {f : Field} {o : Origin} {v : Value}
    (h : Prevails file? e argument? f o v) : Prevails file'? e' argument'? f o v := by
  have hsame : (∀ w, ¬ Supplies argument? f w) → ∀ w, ¬ Supplies argument'? f w :=
    fun hnone w hw => hnone w ((halike.arguments f w).mpr hw)
  cases h with
  | arguments h => exact .arguments ((halike.arguments f v).mp h)
  | environment hnone h => exact .environment (hsame hnone) ((halike.environment f hnone v).mp h)
  | file hnone hnone' h =>
    refine .file (hsame hnone) ?_ ((halike.file f hnone hnone' v).mp h)
    exact fun w hw => hnone' w ((halike.environment f hnone w).mpr hw)
  | default hnone hnone' hnone'' =>
    refine .default (hsame hnone) ?_ ?_
    · exact fun w hw => hnone' w ((halike.environment f hnone w).mpr hw)
    · exact fun w hw => hnone'' w ((halike.file f hnone hnone' w).mpr hw)

/-- What prevails with the settings of a document prevails with the document. -/
theorem prevails_of_settingsOf {d : Yaml.Document} {e : Environment} {argument? : Text → Option Value}
    {f : Field} {o : Origin} {v : Value} (h : Prevails (settingsOf d).get? e argument? f o v) :
    Prevails d.get? e argument? f o v := by
  have halike : Alike (settingsOf d).get? d.get? argument? argument? e e :=
    ⟨fun _ _ => Iff.rfl, fun _ _ _ => Iff.rfl, fun _ _ _ _ => supplies_settingsOf⟩
  exact halike.prevails h

/-- The document whose settings a configuration is loaded from. -/
theorem merge_of_load {fs : FileSystem} {root? : Option Text} {e : Environment} {arguments : Settings}
    {config : Config} (h : load fs root? e arguments = .ok config) :
    config.root = root?.getD fs.herePath.text ∧
      ∃ d, documentAt fs ((Path.ofText config.root).child fileName) = .ok d ∧
        ∀ f, ∃ o v, Prevails d.get? e arguments.get? f o v ∧
          config.Takes f (joined config.root f o v) := by
  obtain ⟨d, hd, hmerge⟩ := Except.bind_eq_ok_iff.mp h
  obtain ⟨hroot, htakes⟩ := takes_of_merge hmerge
  rw [hroot]
  refine ⟨rfl, d, hd, fun f => ?_⟩
  obtain ⟨o, v, hv, htaken⟩ := htakes f
  exact ⟨o, v, prevails_of_settingsOf hv, htaken⟩

/-- A configuration that is loaded takes each setting from the highest source that supplies it. Inputs that
differ only in what a higher source overrides, and in names that are not looked for, give the same
configuration. -/
theorem load_takes_prevailing {fs : FileSystem} {root? : Option Text} {e : Environment}
    {arguments : Settings} {config : Config} (h : load fs root? e arguments = .ok config) :
    config.root = root?.getD fs.herePath.text ∧
    ∃ d, documentAt fs ((Path.ofText config.root).child fileName) = .ok d ∧
      (∀ f, ∃ o v, Prevails d.get? e arguments.get? f o v ∧
        config.Takes f (joined config.root f o v)) ∧
      ∀ fs' root'? e' arguments' config' d', load fs' root'? e' arguments' = .ok config' →
        config'.root = config.root →
        documentAt fs' ((Path.ofText config'.root).child fileName) = .ok d' →
        Alike d.get? d'.get? arguments.get? arguments'.get? e e' → config' = config := by
  obtain ⟨hroot, d, hd, htakes⟩ := merge_of_load h
  refine ⟨hroot, d, hd, htakes, ?_⟩
  intro fs' root'? e' arguments' config' d' h' hsame hd' halike
  obtain ⟨-, d'', hd'', htakes'⟩ := merge_of_load h'
  cases hd'.symm.trans hd''
  apply eq_of_takes hsame
  intro f
  obtain ⟨o, v, hv, htaken⟩ := htakes f
  obtain ⟨o', v', hv', htaken'⟩ := htakes' f
  obtain ⟨rfl, rfl⟩ := hv'.unique (halike.prevails hv)
  rw [hsame] at htaken'
  exact ⟨_, htaken', htaken⟩

/-- An application whose configuration file sets `workers` to 4, `manifest` to `m` and `batchSize`
to 8. -/
def layered : FileSystem :=
  FileSystem.empty.applyAll [.write ".deploybundle.yaml"
    [0x77, 0x6f, 0x72, 0x6b, 0x65, 0x72, 0x73, 0x3a, 0x20, 0x34, 0x0a,
     0x6d, 0x61, 0x6e, 0x69, 0x66, 0x65, 0x73, 0x74, 0x3a, 0x20, 0x6d, 0x0a,
     0x62, 0x61, 0x74, 0x63, 0x68, 0x53, 0x69, 0x7a, 0x65, 0x3a, 0x20, 0x38, 0x0a]]

/-- The configuration of that application when the environment gives two settings and the command line
one. -/
def layeredConfig : Config := ⟨"/", some "/m", 2, 16, true, true, true, false⟩

theorem load_layered :
    load layered none ⟨"yes", "2"⟩ [("batch_size", .int 16), ("batchSize", .null)]
      = .ok layeredConfig := by
  have h : (load layered none ⟨"yes", "2"⟩
      [("batch_size", .int 16), ("batchSize", .null)]).toOption = some layeredConfig := by
    decide +kernel
  cases hload : load layered none ⟨"yes", "2"⟩ [("batch_size", .int 16), ("batchSize", .null)] with
  | error f =>
    rw [hload] at h
    cases h
  | ok config =>
    rw [hload] at h
    exact congrArg Except.ok (Option.some.inj h)

/-- An entry of the command line under a name that nobody looks for makes no difference. -/
theorem load_takes_prevailing_layered :
    (∃ d, documentAt layered (Path.ofText "/.deploybundle.yaml") = .ok d ∧ ∀ f, ∃ o v,
      Prevails d.get? ⟨"yes", "2"⟩
        (Settings.get? [("batch_size", .int 16), ("batchSize", .null)]) f o v ∧
        layeredConfig.Takes f (joined "/" f o v)) ∧
    ∀ config, load layered none ⟨"yes", "2"⟩
        [("colour", .int 3), ("batch_size", .int 16), ("batchSize", .null)] = .ok config →
      config = layeredConfig := by
  obtain ⟨-, d, hd, htakes, hsame⟩ := load_takes_prevailing load_layered
  have hpath : (Path.ofText layeredConfig.root).child fileName = Path.ofText "/.deploybundle.yaml" := by
    decide
  rw [hpath] at hd
  refine ⟨⟨d, hd, htakes⟩, fun config hconfig => ?_⟩
  have hroot : config.root = layeredConfig.root := (merge_of_load hconfig).1
  refine hsame _ _ _ _ config d hconfig hroot ?_ ⟨?_, fun _ _ _ => Iff.rfl, fun _ _ _ _ => Iff.rfl⟩
  · rw [hroot, hpath]
    exact hd
  · intro f v
    apply supplies_congr
    · cases f <;> rfl
    · intro other hother
      cases f <;> cases hother <;> rfl

end BundleManifest.Config
