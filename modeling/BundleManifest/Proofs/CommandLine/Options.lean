/-
# BundleManifest.Proofs.CommandLine.Options — an option more

Options are looked at one by one, and each supplies settings of its own. So a command line that names an
output in addition, before everything else, asks for the same configuration with another manifest path
(`config_of_output`).
-/
import BundleManifest.CommandLine.Program
import BundleManifest.Proofs.Config.Precedence
import BundleManifest.Proofs.FileSystem.Places

namespace BundleManifest

/-! ## Paths as texts -/

namespace Path

theorem partsOf_slash_cons (t : Text) : partsOf (CodePoint.ofChar '/' :: t) = partsOf t := by
  have hsplit : Text.split '/' (CodePoint.ofChar '/' :: t) = [] :: Text.split '/' t := by
    show cut _ (_ :: t) = _
    rw [cut, if_pos rfl]
  unfold partsOf
  rw [hsplit, List.filter_cons_of_neg (by simp)]

theorem partsOf_join {parts : List Text} (hne : parts ≠ [])
    (h : ∀ part ∈ parts, part ≠ [] ∧ CodePoint.ofChar '/' ∉ part ∧ part ≠ Text.dot) :
    partsOf (Text.join '/' parts) = parts := by
  have hsplit : Text.split '/' (Text.join '/' parts) = parts :=
    cut_glue hne fun part hpart => (h part hpart).2.1
  unfold partsOf
  rw [hsplit, List.filter_eq_self]
  intro part hpart
  obtain ⟨hnil, -, hdot⟩ := h part hpart
  simp [hnil, hdot]

theorem exists_join_cons {first : Text} {others : List Text} (hne : first ≠ [])
    (hslash : CodePoint.ofChar '/' ∉ first) :
    ∃ c rest, Text.join '/' (first :: others) = c :: rest ∧ c ≠ CodePoint.ofChar '/' := by
  cases first with
  | nil => exact absurd rfl hne
  | cons c first =>
    have hc : c ≠ CodePoint.ofChar '/' := fun heq => hslash (heq ▸ List.mem_cons_self)
    cases others with
    | nil => exact ⟨c, first, rfl, hc⟩
    | cons next others => exact ⟨c, _, rfl, hc⟩

/-- A path is read from its text again. -/
theorem ofText_text (t : Text) : ofText (ofText t).text = ofText t := by
  have hparts : ∀ part ∈ partsOf t, part ≠ [] ∧ CodePoint.ofChar '/' ∉ part ∧ part ≠ Text.dot := by
    intro part hpart
    obtain ⟨hnil, hslash⟩ := plain_ofText t part hpart
    have hkept := (List.mem_filter.mp hpart).2
    simp only [Bool.and_eq_true, bne_iff_ne, ne_eq] at hkept
    exact ⟨hnil, hslash, hkept.2⟩
  show ofText (text ⟨Anchor.ofText t, partsOf t⟩) = ⟨Anchor.ofText t, partsOf t⟩
  generalize partsOf t = parts at hparts
  generalize Anchor.ofText t = anchor
  cases parts with
  | nil => cases anchor <;> decide
  | cons first others =>
    obtain ⟨hnil, hslash, -⟩ := hparts first List.mem_cons_self
    have hjoin := partsOf_join (List.cons_ne_nil first others) hparts
    obtain ⟨c, rest, hcons, hc⟩ := @exists_join_cons first others hnil hslash
    have htext : text ⟨anchor, first :: others⟩ = anchor.text ++ Text.join '/' (first :: others) := by
      cases anchor <;> rfl
    unfold ofText
    rw [htext, mk.injEq]
    constructor
    · have hroot : Anchor.root.text = [CodePoint.ofChar '/'] := rfl
      have hdouble : Anchor.doubleRoot.text = [CodePoint.ofChar '/', CodePoint.ofChar '/'] := rfl
      rw [hcons]
      cases anchor with
      | here => simp [Anchor.text, Anchor.ofText, hc]
      | root => simp [hroot, Anchor.ofText, hc]
      | doubleRoot => simp [hdouble, Anchor.ofText, hc]
    · cases anchor with
      | here => exact hjoin
      | root => exact (partsOf_slash_cons _).trans hjoin
      | doubleRoot =>
        exact (partsOf_slash_cons _).trans ((partsOf_slash_cons _).trans hjoin)

end Path

namespace CommandLine

/-! ## Arguments -/

/-- Arguments with an output in addition, anywhere among the options. -/
structure Arguments.AddsOutput (a a' : Arguments) (out : Text) : Prop where
  others : a'.others = a.others
  options : ∃ before after, a.options = before ++ after ∧
    a'.options = before ++ ⟨.output, some out⟩ :: after

namespace Arguments.AddsOutput

variable {a a' : Arguments} {out : Text} (h : a.AddsOutput a' out)
include h

theorem has_eq {s : Setting} (hs : s ≠ .output) : a'.has s = a.has s := by
  obtain ⟨before, after, hfewer, hmore⟩ := h.options
  unfold has
  rw [hfewer, hmore, List.any_append, List.any_append, List.any_cons, decide_eq_false (Ne.symm hs),
    Bool.false_or]

theorem value?_eq {s : Setting} (hs : s ≠ .output) : a'.value? s = a.value? s := by
  obtain ⟨before, after, hfewer, hmore⟩ := h.options
  unfold value?
  rw [hfewer, hmore, List.filter_append, List.filter_append,
    List.filter_cons_of_neg (by simpa using Ne.symm hs)]

theorem last?_eq {choices : List Setting} (hchoices : .output ∉ choices) :
    a'.last? choices = a.last? choices := by
  obtain ⟨before, after, hfewer, hmore⟩ := h.options
  unfold last?
  rw [hfewer, hmore, List.map_append, List.map_append, List.filter_append, List.filter_append,
    List.map_cons, List.filter_cons_of_neg (by simpa using hchoices)]

section
variable (hout : a.has .output = false)
include hout

theorem value?_output : a'.value? .output = some out := by
  obtain ⟨before, after, hfewer, hmore⟩ := h.options
  unfold has at hout
  rw [hfewer, List.any_append, Bool.or_eq_false_iff] at hout
  have hnone {options : List Given} (hany : (options.any fun g => g.setting = .output) = false) :
      options.filter (fun g => g.setting = .output) = [] := by
    rw [List.filter_eq_nil_iff]
    exact List.any_eq_false.mp hany
  unfold value?
  rw [hmore, List.filter_append, List.filter_cons_of_pos (by simp), hnone hout.1, hnone hout.2]
  rfl

/-- The output is looked at once, somewhere between the other settings. -/
theorem settings_eq :
    ∃ first second, a.settings = first ++ second ∧ a'.settings = first ++ .output :: second := by
  obtain ⟨before, after, hfewer, hmore⟩ := h.options
  unfold has at hout
  rw [hfewer, List.any_append, Bool.or_eq_false_iff] at hout
  have hnone {options : List Given} (hany : (options.any fun g => g.setting = .output) = false) :
      ∀ s ∈ options.map Given.setting, s ≠ .output := by
    intro s hs
    obtain ⟨g, hg, rfl⟩ := List.mem_map.mp hs
    simpa using List.any_eq_false.mp hany g hg
  have hbefore : .output ∉ before.map Given.setting := fun hmem => hnone hout.1 _ hmem rfl
  refine ⟨(before.map Given.setting).eraseDups,
    ((after.map Given.setting).removeAll (before.map Given.setting)).eraseDups, ?_, ?_⟩
  · unfold settings
    rw [hfewer, List.map_append, List.eraseDups_append]
  · unfold settings
    rw [hmore, List.map_append, List.map_cons, List.eraseDups_append]
    have hremove : (Setting.output :: after.map Given.setting).removeAll (before.map Given.setting)
        = .output :: (after.map Given.setting).removeAll (before.map Given.setting) := by
      unfold List.removeAll
      rw [List.filter_cons_of_pos (by simpa using hbefore)]
    rw [hremove, List.eraseDups_cons, List.filter_eq_self.mpr]
    intro s hs
    have hafter := hnone hout.2 s (List.mem_of_mem_filter hs)
    simpa using hafter

end

variable (fs : FileSystem)

theorem suppliedBy_eq {s : Setting} (hs : s ≠ .output) :
    suppliedBy fs a' s = suppliedBy fs a s := by
  have hlast : a'.last? [.followLinks, .noFollowLinks] = a.last? [.followLinks, .noFollowLinks] :=
    h.last?_eq (by decide)
  cases s with
  | output => exact absurd rfl hs
  | workers => simp only [suppliedBy, h.value?_eq hs]
  | batchSize => simp only [suppliedBy, h.value?_eq hs]
  | followLinks => simp only [suppliedBy, hlast]
  | noFollowLinks => simp only [suppliedBy, hlast]
  | debug => rfl
  | jsonLogs => rfl
  | help => rfl
  | version => rfl

theorem supplied_eq {given : List Setting} (hgiven : .output ∉ given) :
    supplied fs a' given = supplied fs a given := by
  induction given with
  | nil => rfl
  | cons s given ih =>
    rw [List.mem_cons, not_or] at hgiven
    unfold supplied
    rw [h.suppliedBy_eq fs (Ne.symm hgiven.1), ih hgiven.2]

end Arguments.AddsOutput

/-! ## Settings that options supply -/

/-- No setting of a list is a manifest path. -/
def LacksPath (s : Settings) : Prop := s.get? "manifest_path" = none ∧ s.get? "manifest" = none

theorem LacksPath.append {s t : Settings} (hs : LacksPath s) (ht : LacksPath t) :
    LacksPath (s ++ t) := by
  unfold LacksPath Settings.get? at *
  rw [List.lookup_append, List.lookup_append, hs.1, hs.2, ht.1, ht.2]
  exact ⟨rfl, rfl⟩

/-- Settings with a manifest path in addition. -/
structure AddsPath (s s' : Settings) (t : Text) : Prop where
  lacks : LacksPath s
  path : s'.get? "manifest_path" = some (.text t)
  others : ∀ name : Text, name ≠ "manifest_path" → s'.get? name = s.get? name

theorem addsPath_append {s t : Settings} (hs : LacksPath s) (ht : LacksPath t) (p : Text) :
    AddsPath (s ++ t) (s ++ ((Text.ofString "manifest_path", Value.text p) :: t)) p where
  lacks := hs.append ht
  path := by
    have hfirst : List.lookup (Text.ofString "manifest_path") s = none := hs.1
    unfold Settings.get?
    rw [List.lookup_append, hfirst, List.lookup_cons_self]
    rfl
  others name hname := by
    unfold Settings.get?
    rw [List.lookup_append, List.lookup_append, List.lookup_cons, beq_false_of_ne hname]

section
variable {fs : FileSystem} {a : Arguments}

/-- Only the output supplies a manifest path. -/
theorem lacksPath_of_suppliedBy {s : Setting} (hs : s ≠ .output) {settings : Settings}
    (h : suppliedBy fs a s = .ok settings) : LacksPath settings := by
  cases s with
  | output => exact absurd rfl hs
  | workers | batchSize =>
    simp only [suppliedBy] at h
    split at h
    · obtain ⟨n, -, hn⟩ := Except.bind_eq_ok_iff.mp h
      cases hn
      exact ⟨rfl, rfl⟩
    · cases h
      exact ⟨rfl, rfl⟩
  | followLinks | noFollowLinks =>
    simp only [suppliedBy] at h
    split at h <;> cases h <;> exact ⟨rfl, rfl⟩
  | debug | jsonLogs | help | version =>
    cases h
    exact ⟨rfl, rfl⟩

theorem supplied_cons_eq_ok_iff {s : Setting} {given : List Setting} {settings : Settings} :
    supplied fs a (s :: given) = .ok settings ↔
      ∃ first rest, suppliedBy fs a s = .ok first ∧ supplied fs a given = .ok rest ∧
        settings = first ++ rest := by
  rw [supplied, Except.bind_eq_ok_iff]
  constructor
  · rintro ⟨first, hfirst, hthen⟩
    obtain ⟨rest, hrest, heq⟩ := Except.bind_eq_ok_iff.mp hthen
    exact ⟨first, rest, hfirst, hrest, (Except.ok.inj heq).symm⟩
  · rintro ⟨first, rest, hfirst, hrest, rfl⟩
    exact ⟨first, hfirst, Except.bind_eq_ok_iff.mpr ⟨rest, hrest, rfl⟩⟩

/-- What some options and others supply is supplied one after the other. -/
theorem supplied_append_eq_ok_iff {given others : List Setting} {settings : Settings} :
    supplied fs a (given ++ others) = .ok settings ↔
      ∃ first rest, supplied fs a given = .ok first ∧ supplied fs a others = .ok rest ∧
        settings = first ++ rest := by
  induction given generalizing settings with
  | nil =>
    constructor
    · exact fun h => ⟨[], settings, rfl, h, rfl⟩
    · rintro ⟨first, rest, hfirst, hrest, rfl⟩
      cases hfirst
      exact hrest
  | cons s given ih =>
    simp only [List.cons_append, supplied_cons_eq_ok_iff, ih]
    constructor
    · rintro ⟨own, -, hown, ⟨first, rest, hfirst, hrest, rfl⟩, rfl⟩
      exact ⟨own ++ first, rest, ⟨own, first, hown, hfirst, rfl⟩, hrest,
        (List.append_assoc ..).symm⟩
    · rintro ⟨-, rest, ⟨own, first, hown, hfirst, rfl⟩, hrest, rfl⟩
      exact ⟨own, first ++ rest, hown, ⟨first, rest, hfirst, hrest, rfl⟩, List.append_assoc ..⟩

theorem lacksPath_of_supplied {given : List Setting} (hgiven : .output ∉ given)
    {settings : Settings} (h : supplied fs a given = .ok settings) : LacksPath settings := by
  induction given generalizing settings with
  | nil =>
    cases h
    exact ⟨rfl, rfl⟩
  | cons s given ih =>
    rw [List.mem_cons, not_or] at hgiven
    obtain ⟨first, rest, hfirst, hrest, rfl⟩ := supplied_cons_eq_ok_iff.mp h
    exact (lacksPath_of_suppliedBy (Ne.symm hgiven.1) hfirst).append (ih hgiven.2 hrest)

theorem path_of_outputOf {name : Text} {p : Path} (h : outputOf fs name = .ok p) :
    p = Path.ofText name := by
  unfold outputOf at h
  split at h
  · split at h
    · cases h
    · exact (Except.ok.inj h).symm
  · exact (Except.ok.inj h).symm
  · cases h

/-- An output supplies its path in addition to what the other options supply. -/
theorem addsPath_of_addsOutput {a' : Arguments} {out : Text} (hadds : a.AddsOutput a' out)
    (hout : a.has .output = false) {settings settings' : Settings}
    (h : supplied fs a a.settings = .ok settings) (h' : supplied fs a' a'.settings = .ok settings') :
    AddsPath settings settings' (Path.ofText out).text := by
  have hnone : .output ∉ a.settings := by
    intro hmem
    obtain ⟨g, hg, hset⟩ := List.mem_map.mp (List.mem_eraseDups.mp hmem)
    have hall := List.any_eq_false.mp hout g hg
    simp [hset] at hall
  obtain ⟨given, others, hgiven, hgiven'⟩ := hadds.settings_eq hout
  rw [hgiven] at h hnone
  rw [hgiven'] at h'
  rw [List.mem_append, not_or] at hnone
  obtain ⟨first, rest, hfirst, hrest, rfl⟩ := supplied_append_eq_ok_iff.mp h
  obtain ⟨first', more, hfirst', hmore, rfl⟩ := supplied_append_eq_ok_iff.mp h'
  obtain ⟨own, rest', hown, hrest', rfl⟩ := supplied_cons_eq_ok_iff.mp hmore
  rw [hadds.supplied_eq fs hnone.1, hfirst] at hfirst'
  rw [hadds.supplied_eq fs hnone.2, hrest] at hrest'
  cases hfirst'
  cases hrest'
  simp only [suppliedBy, hadds.value?_output hout] at hown
  obtain ⟨p, hp, hown⟩ := Except.bind_eq_ok_iff.mp hown
  cases path_of_outputOf hp
  cases hown
  exact addsPath_append (lacksPath_of_supplied hnone.1 hfirst) (lacksPath_of_supplied hnone.2 hrest) _

end

/-! ## Configurations -/

namespace AddsPath

open Config

variable {s s' : Settings} {t : Text} (h : AddsPath s s' t)
include h

theorem not_supplies (v : Value) : ¬ Supplies s.get? .manifestPath v := by
  intro hv
  cases hv with
  | other hother hv _ =>
    cases hother
    rw [h.lacks.2] at hv
    cases hv
  | name hv _ _ =>
    have hname : s.get? Field.manifestPath.name = none := h.lacks.1
    rw [hname] at hv
    cases hv

theorem supplies_path : Supplies s'.get? .manifestPath (.text t) := by
  refine .name h.path Value.noConfusion fun other hother w hw => ?_
  cases hother
  rw [h.others _ (by decide), h.lacks.2] at hw
  cases hw

/-- A manifest path is no other setting. -/
theorem prevails {file? : Text → Option Value} {e : Environment} {f : Field}
    (hf : f ≠ .manifestPath) {o : Origin} {v : Value} (hv : Prevails file? e s.get? f o v) :
    Prevails file? e s'.get? f o v := by
  have hsupplies (w : Value) : Supplies s.get? f w ↔ Supplies s'.get? f w := by
    apply supplies_congr
    · apply Eq.symm
      apply h.others
      cases f with
      | manifestPath => exact absurd rfl hf
      | _ => decide
    · intro other hother
      apply Eq.symm
      apply h.others
      cases f <;> cases hother <;> decide
  have hnone (hs : ∀ w, ¬ Supplies s.get? f w) (w : Value) : ¬ Supplies s'.get? f w :=
    fun hw => hs w ((hsupplies w).mpr hw)
  cases hv with
  | arguments h => exact .arguments ((hsupplies v).mp h)
  | environment h h' => exact .environment (hnone h) h'
  | file h h' h'' => exact .file (hnone h) h' h''
  | default h h' h'' => exact .default (hnone h) h' h''

/-- With a manifest path on the command line, and none in the configuration file, the configuration is
the one without it, apart from the path. -/
theorem config_eq {fs : FileSystem} {root : Text} {e : Environment} {config config' : Config}
    (hfile : ∀ d, documentAt fs ((Path.ofText root).child fileName) = .ok d →
      ∀ v, ¬ Supplies d.get? .manifestPath v)
    (hload : load fs (some root) e s = .ok config)
    (hload' : load fs (some root) e s' = .ok config') :
    config.manifestPath = none ∧ config' = { config with manifestPath := some t } := by
  obtain ⟨hroot, d, hd, htakes⟩ := merge_of_load hload
  obtain ⟨hroot', d', hd', htakes'⟩ := merge_of_load hload'
  rw [hroot] at hd htakes
  rw [hroot'] at hd' htakes'
  cases hd.symm.trans hd'
  constructor
  · obtain ⟨o, v, hv, htaken⟩ := htakes .manifestPath
    have hdefault : Prevails d.get? e s.get? .manifestPath .default .null :=
      .default h.not_supplies (fun w hw => by cases hw) (hfile d hd)
    obtain ⟨rfl, rfl⟩ := hv.unique hdefault
    exact Value.Names.unique htaken .null
  · refine eq_of_takes (hroot'.trans hroot.symm) fun f => ?_
    obtain ⟨o', v', hv', htaken'⟩ := htakes' f
    refine ⟨_, htaken', ?_⟩
    by_cases hf : f = .manifestPath
    · subst hf
      obtain ⟨rfl, rfl⟩ := hv'.unique (.arguments h.supplies_path)
      exact .text t
    · obtain ⟨o, v, hv, htaken⟩ := htakes f
      obtain ⟨rfl, rfl⟩ := hv'.unique (h.prevails hf hv)
      cases f with
      | manifestPath => exact absurd rfl hf
      | _ => exact htaken

end AddsPath

end CommandLine

end BundleManifest
