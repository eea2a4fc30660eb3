/-
# BundleManifest.Proofs.Config.Coercion — what values are taken for

A setting may be given by any value until it is checked. `Value.Denotes`, `Value.Switches` and
`Value.Names` say which integers, truth values and texts values are taken for; the checks of
`Config.Load` accept exactly these. `Config.Takes` puts the seven settings together: a configuration comes
out of checking exactly if it takes every setting as it was given (`check_eq_ok_iff`).
-/
import BundleManifest.Config.Load
import BundleManifest.Proofs.Steps

namespace BundleManifest

/-! ## Integers, truth values, texts -/

/-- A value is taken for an integer. A real number is cut off after the point. -/
inductive Value.Denotes : Value → Int → Prop
  | int (n : Int) : Denotes (.int n) n
  | real {x : Binary64} {n : Int} (h : x.truncate? = some n) : Denotes (.real x) n
  | text {t : Text} {n : Int} (h : Text.readInt? t = some n) : Denotes (.text t) n
  | bytes {b : Bytes} {n : Int} (h : Config.readIntBytes? b = some n) : Denotes (.bytes b) n

/-- A value is taken for a positive integer. -/
def Value.Counts (v : Value) (n : Nat) : Prop := 1 ≤ n ∧ v.Denotes n

/-- A value is taken for a truth value. -/
inductive Value.Switches : Value → Bool → Prop
  | bool (b : Bool) : Switches (.bool b) b
  | text (t : Text) : Switches (.text t) (Config.isOn t)

/-- A value is a text, or absent. -/
inductive Value.Names : Value → Option Text → Prop
  | null : Names .null none
  | text (t : Text) : Names (.text t) (some t)

section
variable {v : Value}

theorem Value.Denotes.unique {m n : Int} (hm : v.Denotes m) (hn : v.Denotes n) : m = n := by
  cases hm with
  | int => cases hn; rfl
  | real hm =>
    cases hn with
    | real hn => exact Option.some.inj (hm.symm.trans hn)
  | text hm =>
    cases hn with
    | text hn => exact Option.some.inj (hm.symm.trans hn)
  | bytes hm =>
    cases hn with
    | bytes hn => exact Option.some.inj (hm.symm.trans hn)

theorem Value.Counts.unique {m n : Nat} (hm : v.Counts m) (hn : v.Counts n) : m = n :=
  Int.ofNat.inj (hm.2.unique hn.2)

theorem Value.Switches.unique {b c : Bool} (hb : v.Switches b) (hc : v.Switches c) : b = c := by
  cases hb <;> cases hc <;> rfl

theorem Value.Names.unique {s? t? : Option Text} (hs : v.Names s?) (ht : v.Names t?) : s? = t? := by
  cases hs <;> cases ht <;> rfl

end

namespace Config

/-- What becomes of a value that is read in some way, or refused. -/
theorem getD_map_ok_iff {α : Type} {read : Option α} {f : Failure} {a : α} :
    (read.map Except.ok).getD (.error f) = .ok a ↔ read = some a := by
  cases read with
  | none => simp
  | some b => simp

theorem integerOf_eq_ok_iff {name : Text} {v : Value} {n : Int} :
    integerOf name v = .ok n ↔ v.Denotes n := by
  constructor
  · intro h
    unfold integerOf at h
    dsimp only at h
    split at h
    · cases h
      exact .int n
    · cases h
    · exact .real (getD_map_ok_iff.mp h)
    · exact .text (getD_map_ok_iff.mp h)
    · exact .bytes (getD_map_ok_iff.mp h)
    · cases h
  · intro h
    cases h with
    | int => rfl
    | @real x _ h =>
      cases x with
      | infinite negative => cases h
      | nan => cases h
      | finite negative significand exponent =>
        unfold integerOf
        exact getD_map_ok_iff.mpr h
    | text h =>
      unfold integerOf
      exact getD_map_ok_iff.mpr h
    | bytes h =>
      unfold integerOf
      exact getD_map_ok_iff.mpr h

theorem countOf_eq_ok_iff {name : Text} {v : Value} {n : Nat} :
    countOf name v = .ok n ↔ v.Counts n := by
  unfold countOf Value.Counts
  rw [Except.bind_eq_ok_iff]
  constructor
  · rintro ⟨m, hm, hn⟩
    split at hn
    · cases hn
    · next hlarge =>
      have hn : m.toNat = n := Except.ok.inj hn
      have hm' : (n : Int) = m := by omega
      rw [hm']
      exact ⟨by omega, integerOf_eq_ok_iff.mp hm⟩
  · rintro ⟨hlarge, h⟩
    refine ⟨n, integerOf_eq_ok_iff.mpr h, ?_⟩
    rw [if_neg (by omega)]
    rfl

theorem switchOf_eq_ok_iff {name : Text} {v : Value} {b : Bool} :
    switchOf name v = .ok b ↔ v.Switches b := by
  constructor
  · intro h
    unfold switchOf at h
    split at h
    · cases h
      exact .bool b
    · cases h
      exact .text _
    · cases h
  · intro h
    cases h <;> rfl

theorem textOf_eq_ok_iff {name : Text} {v : Value} {t? : Option Text} :
    textOf name v = .ok t? ↔ v.Names t? := by
  constructor
  · intro h
    unfold textOf at h
    split at h
    · cases h
      exact .null
    · cases h
      exact .text _
    · cases h
  · intro h
    cases h <;> rfl

/-! ## The seven settings -/

/-- A setting that sources can supply. -/
inductive Field where
  | manifestPath
  | workers
  | batchSize
  | followLinks
  | excludeManifest
  | debug
  | jsonLogs
  deriving DecidableEq, Repr

/-- What a draft holds for a setting. -/
def Draft.get (d : Draft) : Field → Value
  | .manifestPath => d.manifestPath
  | .workers => d.workers
  | .batchSize => d.batchSize
  | .followLinks => d.followLinks
  | .excludeManifest => d.excludeManifest
  | .debug => d.debug
  | .jsonLogs => d.jsonLogs

/-- A configuration has for a setting what a value is taken for. -/
def Takes (config : Config) (f : Field) (v : Value) : Prop :=
  match f with
  | .manifestPath => v.Names config.manifestPath
  | .workers => v.Counts config.workers
  | .batchSize => v.Counts config.batchSize
  | .followLinks => v.Switches config.followLinks
  | .excludeManifest => v.Switches config.excludeManifest
  | .debug => v.Switches config.debug
  | .jsonLogs => v.Switches config.jsonLogs

/-- Two configurations with one root that take the same values are one. -/
theorem eq_of_takes {config other : Config} (hroot : config.root = other.root)
    (h : ∀ f, ∃ v, config.Takes f v ∧ other.Takes f v) : config = other := by
  obtain ⟨root, path, workers, size, links, exclude, debug, logs⟩ := config
  obtain ⟨root', path', workers', size', links', exclude', debug', logs'⟩ := other
  obtain ⟨p, hp, hp'⟩ := h .manifestPath
  obtain ⟨w, hw, hw'⟩ := h .workers
  obtain ⟨s, hs, hs'⟩ := h .batchSize
  obtain ⟨l, hl, hl'⟩ := h .followLinks
  obtain ⟨x, hx, hx'⟩ := h .excludeManifest
  obtain ⟨d, hd, hd'⟩ := h .debug
  obtain ⟨j, hj, hj'⟩ := h .jsonLogs
  rw [Config.mk.injEq]
  exact ⟨hroot, Value.Names.unique hp hp', Value.Counts.unique hw hw', Value.Counts.unique hs hs',
    Value.Switches.unique hl hl', Value.Switches.unique hx hx', Value.Switches.unique hd hd',
    Value.Switches.unique hj hj'⟩

/-- A draft passes its checks as a configuration that takes every setting as it was given. -/
theorem check_eq_ok_iff {d : Draft} {root : Text} {config : Config} :
    d.check root = .ok config ↔ config.root = root ∧ ∀ f, config.Takes f (d.get f) := by
  unfold Draft.check
  simp only [Except.bind_eq_ok_iff, textOf_eq_ok_iff, countOf_eq_ok_iff, switchOf_eq_ok_iff]
  constructor
  · rintro ⟨path, hpath, workers, hworkers, size, hsize, links, hlinks, exclude, hexclude, debug,
      hdebug, logs, hlogs, heq⟩
    cases heq
    refine ⟨rfl, fun f => ?_⟩
    cases f with
    | manifestPath => exact hpath
    | workers => exact hworkers
    | batchSize => exact hsize
    | followLinks => exact hlinks
    | excludeManifest => exact hexclude
    | debug => exact hdebug
    | jsonLogs => exact hlogs
  · rintro ⟨rfl, htakes⟩
    exact ⟨_, htakes .manifestPath, _, htakes .workers, _, htakes .batchSize, _,
      htakes .followLinks, _, htakes .excludeManifest, _, htakes .debug, _, htakes .jsonLogs, rfl⟩

end Config

end BundleManifest
