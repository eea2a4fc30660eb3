/-
# BundleManifest.Proofs.Config.Refusals — how loading a configuration fails

A value that cannot be what its setting has to be is refused, and the refusal names the setting (`Wrong`).
What a configuration file holds can make loading fail in other ways as well, which callers do not expect:
`Escapes` lists them. `failures_of_load` says that there is nothing more, that a malformed file counts as
empty, and that no configuration has a number of workers or a batch size below one. The runs after it
show that the failures that callers do not expect happen.
-/
import BundleManifest.Proofs.Config.Precedence
import BundleManifest.Proofs.FileSystem.Changes

namespace BundleManifest.Config

/-! ## Wrong values -/

namespace Field

/-- A setting is a positive integer. -/
def isCount : Field → Bool
  | workers | batchSize => true
  | manifestPath | followLinks | excludeManifest | debug | jsonLogs => false

/-- A setting is a truth value. -/
def isSwitch : Field → Bool
  | followLinks | excludeManifest | debug | jsonLogs => true
  | manifestPath | workers | batchSize => false

end Field

/-- What is wrong with a value of a setting. -/
inductive Wrong : Field → Value → Fault → Prop
  | text {v : Value} (h : ∀ t?, ¬ v.Names t?) :
    Wrong .manifestPath v (.notText Field.manifestPath.name v)
  | integer {f : Field} {v : Value} (hf : f.isCount = true)
    (hfinite : ∀ negative, v ≠ .real (.infinite negative)) (h : ∀ n, ¬ v.Denotes n) :
    Wrong f v (.notInteger f.name v)
  | small {f : Field} {v : Value} {n : Int} (hf : f.isCount = true) (h : v.Denotes n) (hn : n < 1) :
    Wrong f v (.tooSmall f.name n)
  | switch {f : Field} {v : Value} (hf : f.isSwitch = true) (h : ∀ b, ¬ v.Switches b) :
    Wrong f v (.notBoolean f.name v)

/-- A value of a setting fails its check. That an infinite number is no integer is not noticed as a
fault. -/
inductive Fails (f : Field) (v : Value) : Failure → Prop
  | wrong {fault : Fault} (h : Wrong f v fault) : Fails f v fault.failure
  | infinite {negative : Bool} (hf : f.isCount = true) (hv : v = .real (.infinite negative)) :
    Fails f v .infiniteInteger

section
variable {f : Field} {v : Value} {g : Failure}

theorem eq_of_getD_map {α : Type} {read : Option α} {h : Failure}
    (hread : (read.map Except.ok).getD (.error h) = .error g) : g = h := by
  cases read with
  | none => exact (Except.error.inj hread).symm
  | some b => cases hread

theorem fails_of_textOf (h : textOf Field.manifestPath.name v = .error g) :
    Fails .manifestPath v g := by
  have hnames : ∀ t?, ¬ v.Names t? := by
    intro t? ht
    cases h.symm.trans (textOf_eq_ok_iff.mpr ht)
  unfold textOf at h
  split at h
  · cases h
  · cases h
  · cases h
    exact .wrong (.text hnames)

theorem fails_of_switchOf (hf : f.isSwitch = true) (h : switchOf f.name v = .error g) :
    Fails f v g := by
  have hswitches : ∀ b, ¬ v.Switches b := by
    intro b hb
    cases h.symm.trans (switchOf_eq_ok_iff.mpr hb)
  unfold switchOf at h
  split at h
  · cases h
  · cases h
  · cases h
    exact .wrong (.switch hf hswitches)

/-- What is no integer is refused as one, unless it is infinite. -/
theorem failure_of_integerOf {name : Text} (h : integerOf name v = .error g) :
    (∀ negative, v ≠ .real (.infinite negative)) ∧ g = (Fault.notInteger name v).failure ∨
      (∃ negative, v = .real (.infinite negative)) ∧ g = .infiniteInteger := by
  unfold integerOf at h
  dsimp only at h
  split at h
  · cases h
  · cases h
    exact Or.inr ⟨⟨_, rfl⟩, rfl⟩
  · next hfinite =>
    refine Or.inl ⟨fun negative hv => ?_, eq_of_getD_map h⟩
    exact hfinite negative (Value.real.inj hv)
  · exact Or.inl ⟨fun _ => Value.noConfusion, eq_of_getD_map h⟩
  · exact Or.inl ⟨fun _ => Value.noConfusion, eq_of_getD_map h⟩
  · next hother _ _ =>
    exact Or.inl ⟨fun negative hv => hother _ hv, (Except.error.inj h).symm⟩

theorem fails_of_countOf (hf : f.isCount = true) (h : countOf f.name v = .error g) :
    Fails f v g := by
  rcases Except.bind_eq_error_iff.mp h with hinteger | ⟨n, hn, hsmall⟩
  · have hdenotes : ∀ n, ¬ v.Denotes n := by
      intro n hn
      cases hinteger.symm.trans (integerOf_eq_ok_iff.mpr hn)
    rcases failure_of_integerOf hinteger with ⟨hfinite, rfl⟩ | ⟨⟨negative, rfl⟩, rfl⟩
    · exact .wrong (.integer hf hfinite hdenotes)
    · exact .infinite hf rfl
  · split at hsmall
    · next hlt =>
      rw [← Except.error.inj hsmall]
      exact .wrong (.small hf (integerOf_eq_ok_iff.mp hn) hlt)
    · cases hsmall

/-- A draft fails its checks because of one of its values. -/
theorem fails_of_check {d : Draft} {root : Text} (h : d.check root = .error g) :
    ∃ f, Fails f (d.get f) g := by
  unfold Draft.check at h
  simp only [Except.bind_eq_error_iff] at h
  rcases h with h | ⟨_, -, h | ⟨_, -, h | ⟨_, -, h | ⟨_, -, h | ⟨_, -, h | ⟨_, -, h | ⟨_, -, h⟩⟩⟩⟩⟩⟩⟩
  · exact ⟨.manifestPath, fails_of_textOf h⟩
  · exact ⟨.workers, fails_of_countOf rfl h⟩
  · exact ⟨.batchSize, fails_of_countOf rfl h⟩
  · exact ⟨.followLinks, fails_of_switchOf rfl h⟩
  · exact ⟨.excludeManifest, fails_of_switchOf rfl h⟩
  · exact ⟨.debug, fails_of_switchOf rfl h⟩
  · exact ⟨.jsonLogs, fails_of_switchOf rfl h⟩
  · cases h

/-! ## Merging -/

theorem not_fails_path {t : Text} : ¬ Fails .manifestPath (.text t) g := by
  intro h
  cases h with
  | wrong h =>
    cases h with
    | text h => exact h _ (.text t)
    | integer hf _ _ => cases hf
    | small hf _ _ => cases hf
    | switch hf _ => cases hf
  | infinite hf _ => cases hf

theorem not_fails_debug {b : Bool} : ¬ Fails .debug (.bool b) g := by
  intro h
  cases h with
  | wrong h =>
    cases h with
    | integer hf _ _ => cases hf
    | small hf _ _ => cases hf
    | switch _ h => exact h b (.bool b)
  | infinite hf _ => cases hf

/-- A path that has been joined to the root is a text. -/
theorem fails_of_joined {root : Text} {o : Origin} (h : Fails f (joined root f o v) g) :
    Fails f v g := by
  unfold joined at h
  split at h
  · split at h
    · exact h
    · exact absurd h not_fails_path
  · exact h

/-- What the environment gives fails as it was given. -/
theorem fails_of_given {d : Draft} {e : Environment} (hgives : Gives e f v)
    (h : Fails f ((d.applyEnvironment e).get f) g) : Fails f v g := by
  cases hgives with
  | debug hdebug =>
    have hget : (d.applyEnvironment e).get .debug = .bool (isOn e.debug) := if_neg hdebug
    rw [hget] at h
    exact absurd h not_fails_debug
  | workers hworkers =>
    have hget : (d.applyEnvironment e).get .workers = .text e.workers := if_neg hworkers
    rw [hget] at h
    exact h

/-- A value is looked at: one that prevails, or the manifest path of the configuration file, which may
have been overridden. -/
inductive Consulted (file? : Text → Option Value) (e : Environment) (argument? : Text → Option Value)
    (f : Field) (v : Value) : Prop
  | prevailing {o : Origin} (h : Prevails file? e argument? f o v)
  | overridden (hf : f = .manifestPath) (h : Supplies file? .manifestPath v)

theorem fails_of_rooted {root : Text} {file : Settings}
    (h : (({} : Draft).apply file).rooted root = .error g) :
    ∃ v, Supplies file.get? .manifestPath v ∧ Fails .manifestPath v g := by
  have hget : (({} : Draft).apply file).manifestPath
      = (suppliedFor? file .manifestPath).getD .null := rfl
  rcases Except.bind_eq_error_iff.mp h with htext | ⟨t?, -, hrooted⟩
  · rw [hget] at htext
    cases hfile : suppliedFor? file .manifestPath with
    | none =>
      rw [hfile] at htext
      cases htext
    | some v =>
      rw [hfile] at htext
      exact ⟨v, suppliedFor?_eq_some_iff.mp hfile, fails_of_textOf htext⟩
  · split at hrooted
    · cases hrooted
    · cases hrooted
    · dsimp only at hrooted
      split at hrooted
      · cases hrooted
      · cases hrooted

/-- Merging fails because of a value that is looked at. -/
theorem fails_of_merge {root : Text} {file arguments : Settings} {e : Environment}
    (h : merge root file e arguments = .error g) :
    ∃ f v, Consulted file.get? e arguments.get? f v ∧ Fails f v g := by
  rcases Except.bind_eq_error_iff.mp h with hrooted | ⟨d, hrooted, hcheck⟩
  · obtain ⟨v, hv, hfails⟩ := fails_of_rooted hrooted
    exact ⟨.manifestPath, v, .overridden rfl hv, hfails⟩
  · obtain ⟨f, hfails⟩ := fails_of_check hcheck
    obtain ⟨o, v, hv, hget | ⟨hgives, -, hget⟩⟩ := @prevails_merged root file arguments e d hrooted f
    · rw [hget] at hfails
      exact ⟨f, v, .prevailing hv, fails_of_joined hfails⟩
    · rw [hget] at hfails
      exact ⟨f, v, .prevailing hv, fails_of_given hgives hfails⟩

theorem consulted_of_settingsOf {d : Yaml.Document} {e : Environment}
    {argument? : Text → Option Value} (h : Consulted (settingsOf d).get? e argument? f v) :
    Consulted d.get? e argument? f v := by
  cases h with
  | prevailing h => exact .prevailing (prevails_of_settingsOf h)
  | overridden hf h => exact .overridden hf (supplies_settingsOf.mp h)

end

/-! ## Loading -/

/-- The path of the configuration file for an application root. -/
def filePath (fs : FileSystem) (root? : Option Text) : Path :=
  (Path.ofText (root?.getD fs.herePath.text)).child fileName

/-- The failures to load a configuration that are no refusals. -/
inductive Escapes (fs : FileSystem) (path : Path) (e : Environment) (arguments : Settings) :
    Failure → Prop
  /-- The operating system cannot be asked for the configuration file. -/
  | path {fault : FileFault} (h : fs.probe path.text = .error fault) :
    Escapes fs path e arguments (.file fault [path.text])
  /-- The configuration file is not well-formed text. -/
  | undecodable {bytes : Bytes} {i : Utf8.IllFormed} (hread : fs.read path.text = .ok bytes)
    (h : Utf8.decodeStrict bytes = .error i) : Escapes fs path e arguments (.undecodable i)
  /-- A scalar looks like a value and is none. -/
  | scalar {bytes : Bytes} {t : Text} {fault : ScalarFault} (hread : fs.read path.text = .ok bytes)
    (hdecode : Utf8.decodeStrict bytes = .ok t)
    (h : Yaml.Document.ofText (Text.unifyBreaks t) = .error (.scalar fault)) :
    Escapes fs path e arguments (.scalar fault)
  /-- An infinite number stands for a positive integer. -/
  | infinite {d : Yaml.Document} {f : Field} {o : Origin} {negative : Bool}
    (hd : documentAt fs path = .ok d) (hf : f.isCount = true)
    (h : Prevails d.get? e arguments.get? f o (.real (.infinite negative))) :
    Escapes fs path e arguments .infiniteInteger
  /-- A wrong value has too many digits to be shown. -/
  | unwritable {d : Yaml.Document} {f : Field} {v : Value} {fault : Fault}
    (hd : documentAt fs path = .ok d) (hv : Consulted d.get? e arguments.get? f v)
    (hwrong : Wrong f v fault) (hshow : fault.isShowable = false) :
    Escapes fs path e arguments (.scalar .tooLongToShow)

/-- A configuration file that cannot be read, or whose text is malformed. -/
inductive Unusable (fs : FileSystem) (path : Path) : Prop
  | unreadable {kind? : Option NodeKind} {fault : PathFault} (hprobe : fs.probe path.text = .ok kind?)
    (hread : fs.read path.text = .error fault)
  | malformed {bytes : Bytes} {t : Text} (hread : fs.read path.text = .ok bytes)
    (hdecode : Utf8.decodeStrict bytes = .ok t)
    (h : Yaml.Document.ofText (Text.unifyBreaks t) = .error .malformed)

section
variable {fs : FileSystem} {path : Path}

/-- What is read exists. -/
theorem probe_of_read {t : Text} {bytes : Bytes} (h : fs.read t = .ok bytes) :
    ∃ kind, fs.probe t = .ok (some kind) := by
  obtain ⟨i, hstat, hnode⟩ := Except.bind_eq_ok_iff.mp h
  have hprobe : fs.probe t = .ok (fs.kind? i) := by
    unfold FileSystem.probe
    rw [hstat]
  rw [hprobe]
  unfold FileSystem.kind?
  cases hget : fs.node? i with
  | none =>
    rw [hget] at hnode
    cases hnode
  | some node => exact ⟨node.kind, rfl⟩

theorem documentAt_of_unusable (h : Unusable fs path) : documentAt fs path = .ok {} := by
  unfold documentAt
  cases h with
  | @unreadable kind? fault hprobe hread =>
    rw [hprobe, hread]
    cases kind? with
    | none => rfl
    | some kind => rfl
  | @malformed bytes t hread hdecode h =>
    obtain ⟨kind, hprobe⟩ := probe_of_read hread
    simp only [hprobe, hread, hdecode]
    unfold documentOf
    rw [h]

theorem escapes_of_documentAt {e : Environment} {arguments : Settings} {g : Failure}
    (h : documentAt fs path = .error g) : Escapes fs path e arguments g := by
  unfold documentAt at h
  split at h
  · next hprobe =>
    cases h
    exact .path hprobe
  · cases h
  · split at h
    · cases h
    · next bytes hread =>
      split at h
      · next i hdecode =>
        cases h
        exact .undecodable hread hdecode
      · next t hdecode =>
        unfold documentOf at h
        split at h
        · cases h
        · cases h
        · next fault hfault =>
          cases h
          exact .scalar hread hdecode hfault

end

/-- A value that is looked at and fails is refused, or is not noticed as a fault. -/
theorem refused_or_escapes {fs : FileSystem} {path : Path} {e : Environment} {arguments : Settings}
    {d : Yaml.Document} (hd : documentAt fs path = .ok d) {f : Field} {v : Value} {g : Failure}
    (hv : Consulted d.get? e arguments.get? f v) (hfails : Fails f v g) :
    (∃ fault, Wrong f v fault ∧ g = .bundle (.badConfiguration fault.message)) ∨
      Escapes fs path e arguments g := by
  cases hfails with
  | @wrong fault hwrong =>
    unfold Fault.failure
    cases hshow : fault.isShowable with
    | true => exact Or.inl ⟨fault, hwrong, rfl⟩
    | false => exact Or.inr (.unwritable hd hv hwrong hshow)
  | infinite hf heq =>
    subst heq
    cases hv with
    | prevailing h => exact Or.inr (.infinite hd hf h)
    | overridden hpath _ =>
      subst hpath
      cases hf

/-- What a configuration has for a positive integer is one. -/
theorem counts_of_takes {config : Config} {f : Field} {root : Text} {o : Origin} {v : Value}
    (hf : f.isCount = true) (h : config.Takes f (joined root f o v)) : ∃ n, v.Counts n := by
  cases f with
  | workers => exact ⟨_, h⟩
  | batchSize => exact ⟨_, h⟩
  | _ => cases hf

/-- An application whose configuration file is one byte that stands in no text. -/
def garbled : FileSystem := FileSystem.empty.applyAll [.write ".deploybundle.yaml" [0xFF]]

set_option maxRecDepth 10000 in
theorem load_garbled : load garbled none {} [] = .error (.undecodable ⟨0xFF, 0, 1, .start⟩) := by
  cbv

set_option maxRecDepth 10000 in
example : load .empty none {} [("workers", .real (.infinite false))] = .error .infiniteInteger := by
  rfl

set_option maxRecDepth 10000 in
example : load .empty none {} [("workers", .real (.finite false 5 (-1)))]
    = .ok ⟨"/", none, 2, 256, true, true, false, false⟩ := by
  rfl

end BundleManifest.Config
