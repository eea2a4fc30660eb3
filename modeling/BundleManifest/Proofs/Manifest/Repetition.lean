/-
# BundleManifest.Proofs.Manifest.Repetition — a manifest is generated again

Generating a manifest changes the tree that is walked the next time: the manifest is there now. Its own
path is left out, but a walk that follows links may come to it by another path, and that path is listed
the second time (`generate_detour_again`). Nothing else is listed in addition, and a manifest that was
there already is made again as it was (`generate_again`).
-/
import BundleManifest.Proofs.FileSystem.WellFormed
import BundleManifest.Proofs.Manifest.Lines
import BundleManifest.Proofs.Manifest.Selection
import BundleManifest.Proofs.Manifest.Writing
import BundleManifest.Proofs.Walk.Publication

namespace BundleManifest

/-! ## Rules -/

section
variable {fs gs : FileSystem} {d k : Inode} {name content : Bytes} (hwhole : fs.Whole)
  (h : fs.Published gs d name k content) (hlink : ∀ j, fs.Holds d name j → fs.kind? j ≠ some .link)
include hwhole h hlink

/-- The lines of a rule file that is not the new file are those from before. -/
theorem lines_of_elsewhere {path : Path} (hpath : gs.stat path.text ≠ .ok k) {read : RuleLines}
    (hread : RuleSet.reader fs path = .ok read) :
    ∃ again, RuleSet.reader gs path = .ok again ∧ again.lines = read.lines := by
  unfold RuleSet.reader at hread ⊢
  rcases h.read_of_elsewhere hwhole hlink hpath with hsame | ⟨hmissing, hbehind⟩
  · rw [hsame]
    exact ⟨read, hread, rfl⟩
  · rw [hmissing] at hread
    cases hread
    rw [hbehind]
    exact ⟨_, rfl, rfl⟩

/-- The rules of an application are the same if no rule file is the new file. -/
theorem rules_of_elsewhere {root : Path} {override : Option (List Text)}
    (hbasic : gs.stat (root.child RuleSet.basicFile).text ≠ .ok k)
    (hpattern : gs.stat (root.child RuleSet.patternFile).text ≠ .ok k) {loading : RuleSet.Loading}
    (hload : RuleSet.load (RuleSet.reader fs) root override = .ok loading) :
    ∃ again, RuleSet.load (RuleSet.reader gs) root override = .ok again ∧
      again.rules = loading.rules := by
  unfold RuleSet.load at hload ⊢
  simp only [bind, Except.bind, pure, Except.pure] at hload ⊢
  split at hload
  · cases hload
  next basic hread =>
  obtain ⟨basic', hread', hlines⟩ := lines_of_elsewhere hwhole h hlink hbasic hread
  simp only [hread']
  split at hload
  · cases hload
    refine ⟨_, rfl, ?_⟩
    simp only [hlines]
  · split at hload
    · cases hload
    next enhanced hread =>
    obtain ⟨enhanced', hread', hlines'⟩ := lines_of_elsewhere hwhole h hlink hpattern hread
    cases hload
    simp only [hread']
    refine ⟨_, rfl, ?_⟩
    simp only [hlines, hlines']

namespace Manifest

/-- The paths that are left out are the same. -/
theorem skipped_eq (options : Options) (root : Path) :
    skipped gs options root = skipped fs options root := by
  unfold skipped pathBelow
  simp only [h.resolved hwhole hlink]

end Manifest

end

namespace Manifest

/-! ## Texts of manifests -/

/-- A path that leads somewhere has an encoding. -/
theorem exists_encode_of_leadsTo {fs : FileSystem} {path x : Text} {i : Inode}
    (h : Walk.LeadsTo fs path x i) : ∃ bytes, Utf8.encode x = .ok bytes := by
  obtain ⟨above, e, name, hpath, hstat, -⟩ := h
  obtain ⟨bytes, hbytes, -⟩ := FileSystem.askable_of_stat hstat
  obtain ⟨front, -, hencode⟩ := @Walk.encode_entryPath _ _ name hbytes
  obtain ⟨start, -, -, heq⟩ := Walk.entryPath_eq_append path x
  rw [← hpath, heq] at hencode
  obtain ⟨-, last, -, hlast, -⟩ := Utf8.encode_append_iff.mp hencode
  exact ⟨last, hlast⟩

/-! ## Generating again -/

section
variable {fs gs : FileSystem} {d k : Inode} {name content : Bytes} (hfs : fs.Sound)
  (hgs : gs.Sound) (hwhole : fs.Whole) (h : fs.Published gs d name k content)
  (hlink : ∀ j, fs.Holds d name j → fs.kind? j ≠ some .link)
include hwhole h hlink

/-- The root of an application is still a directory. -/
theorem probe_again {path : Text} (hprobe : fs.probe path = .ok (some .directory)) :
    gs.probe path = .ok (some .directory) ∧
      ∃ e, fs.stat path = .ok e ∧ fs.kind? e = some .directory := by
  obtain ⟨e, he⟩ := stat_of_probe hprobe
  have hkind : fs.kind? e = some .directory := by
    simpa [FileSystem.probe, he] using hprobe
  refine ⟨?_, e, he, hkind⟩
  rcases h.stat_of_before hwhole hlink he with ⟨hkept, he'⟩ | ⟨hholds, -⟩
  · simp only [FileSystem.probe, he', h.kind?_eq hkept, hkind]
  · exact absurd hkind (h.replaced e hholds).1

include hfs hgs

/-- What has been selected is selected again, and with it paths that lead to the new file, if that has
replaced no regular one. -/
theorem exists_select_again {token : CancellationToken} {options : Options} {root : Path}
    {e : Inode} (hroot : fs.stat root.text = .ok e) (he : fs.kind? e = some .directory)
    {rules : RuleSet} {skip kept : List Text}
    (hselect : (select fs token options root rules skip).result = .ok kept) :
    ∃ again, (select gs token options root rules skip).result = .ok again ∧ again.Nodup ∧
      kept.Sublist again ∧ ∀ x ∈ again, x ∉ kept →
        Walk.LeadsTo gs root.text x k ∧ ∀ j, fs.Holds d name j → fs.kind? j ≠ some .regular := by
  obtain ⟨htoken, hsize, rfl⟩ := selected_eq hfs hroot hselect
  have hask := FileSystem.askable_of_stat hroot
  obtain ⟨hkept, hadded⟩ := Walk.files_traverse_published hfs hgs hwhole h hlink htoken
    { followLinks := options.followLinks } hroot he
  have hfewer := @walked_increasing _ hfs _ htoken options root
  have hmore := @walked_increasing _ hgs _ htoken options root
  refine ⟨_, select_result hgs htoken options hask rules skip hsize, hmore.nodup.filter _, ?_, ?_⟩
  · exact (Text.sublist_of_subset hfewer hmore hkept).filter _
  · intro x hx hnot
    obtain ⟨hwalked, hstays⟩ := List.mem_filter.mp hx
    refine (hadded x hwalked).resolve_left fun hbefore => hnot ?_
    exact List.mem_filter.mpr ⟨hbefore, hstays⟩

/-- All stages before the writing succeed again. -/
theorem stages_again {token : CancellationToken} {options : Options} {root : Path}
    (hrules : ∀ file ∈ [RuleSet.basicFile, RuleSet.patternFile],
      gs.stat (root.child file).text ≠ .ok k)
    (hprobe : fs.probe root.text = .ok (some .directory)) {loading : RuleSet.Loading}
    (hload : RuleSet.load (RuleSet.reader fs) root options.patterns = .ok loading)
    {skip kept : List Text} (hskip : skipped fs options root = .ok skip)
    (hselect : (select fs token options root loading.rules skip).result = .ok kept) :
    gs.probe root.text = .ok (some .directory) ∧
      ∃ loading' again, RuleSet.load (RuleSet.reader gs) root options.patterns = .ok loading' ∧
        skipped gs options root = .ok skip ∧
        (select gs token options root loading'.rules skip).result = .ok again ∧ again.Nodup ∧
        kept.Sublist again ∧ ∀ x ∈ again, x ∉ kept →
          Walk.LeadsTo gs root.text x k ∧ ∀ j, fs.Holds d name j → fs.kind? j ≠ some .regular := by
  obtain ⟨hprobe', e, hroot, he⟩ := probe_again hwhole h hlink hprobe
  obtain ⟨loading', hload', hsame⟩ :=
    rules_of_elsewhere hwhole h hlink (hrules _ (by simp)) (hrules _ (by simp)) hload
  obtain ⟨again, hselect', hnodup, hsublist, hadded⟩ :=
    exists_select_again hfs hgs hwhole h hlink hroot he hselect
  rw [← hsame] at hselect'
  exact ⟨hprobe', loading', again, hload', (skipped_eq hwhole h hlink options root).trans hskip,
    hselect', hnodup, hsublist, hadded⟩

end

/-- A path holds the text of a list of files. -/
def Records (fs : FileSystem) (path : Path) (files : List Text) : Prop :=
  ∃ bytes, Utf8.encode (text files) = .ok bytes ∧ fs.read path.text = .ok bytes

theorem Records.read_eq {fs gs : FileSystem} {path : Path} {files : List Text}
    (hfs : Records fs path files) (hgs : Records gs path files) :
    gs.read path.text = fs.read path.text := by
  obtain ⟨bytes, hbytes, hread⟩ := hfs
  obtain ⟨bytes', hbytes', hread'⟩ := hgs
  cases hbytes.symm.trans hbytes'
  rw [hread, hread']

/-- What is generated a second time, where no link has the name of the manifest and no rule file is the
manifest: the same files, and those other paths of the walk that lead to the manifest. If the manifest
was there before the first time, the second time gives the same. -/
theorem generate_again {fs : FileSystem} (hfs : fs.Sound) (hwhole : fs.Whole)
    (hnumbers : fs.numbers.Nodup) {token : CancellationToken} {options : Options} {root : Path}
    {target : Text} (hout : options.output = some (Path.ofText target))
    (hlink : ∀ i, fs.lstat (Path.ofText target).text = .ok i → fs.kind? i ≠ some .link)
    {files : List Text} (h : (generate fs token options root).result = .ok files)
    (hrules : ∀ name ∈ [RuleSet.basicFile, RuleSet.patternFile],
      (generate fs token options root).files.stat (root.child name).text
        ≠ (generate fs token options root).files.stat (Path.ofText target).text) :
    let after := (generate fs token options root).files
    ∃ again, (generate after token options root).result = .ok again ∧
      Records after (Path.ofText target) files ∧
      Records (generate after token options root).files (Path.ofText target) again ∧
      files.Sublist again ∧
      (∀ x ∈ again, x ∉ files →
        ∃ manifest, after.stat (Path.ofText target).text = .ok manifest ∧
          Walk.LeadsTo after root.text x manifest) ∧
      ((∃ i, fs.stat (Path.ofText target).text = .ok i ∧ fs.kind? i = some .regular) →
        again = files ∧ (generate after token options root).files.read (Path.ofText target).text
          = after.read (Path.ofText target).text) := by
  intro after
  have hplain : (Path.ofText target).Plain := Path.plain_ofText target
  obtain ⟨hprobe, loading, skip, kept, hload, hskip, hselect, rfl, hwrite⟩ :=
    generate_eq_ok_iff.mp h
  obtain ⟨p, hwrite⟩ := hwrite _ hout
  have hafter : after = (write fs (Path.ofText target) kept.eraseDups).files :=
    files_of_generate hprobe hload hskip hselect hout
  obtain ⟨d, name, k, bytes, hbytes, hends, hpublished, hsound⟩ :=
    published_of_write hfs hwhole hplain hwrite
  rw [← hafter] at hpublished hsound
  have hname := hends.kind?_ne_link hfs hwhole hlink
  have hmanifest (followLast : Bool) :
      after.find followLast (Path.ofText target).text = .ok k :=
    hpublished.find_of_endsAt hwhole hsound hname hends followLast
  have hrule (file : Text) (hfile : file ∈ [RuleSet.basicFile, RuleSet.patternFile]) :
      after.stat (root.child file).text ≠ .ok k := by
    rw [← hmanifest true]
    exact hrules file hfile
  obtain ⟨hprobe', loading', again, hload', hskip', hselect', hnodup, hsublist, hadded⟩ :=
    stages_again hfs hsound hwhole hpublished hname hrule hprobe hload hskip hselect
  have hkept : kept.eraseDups = kept := eraseDups_of_nodup (hsublist.nodup hnodup)
  have hagain : again.eraseDups = again := eraseDups_of_nodup hnodup
  rw [hkept] at hbytes hwrite hafter ⊢
  -- the second manifest can be written where the first one was
  obtain ⟨bytes', hbytes'⟩ : ∃ bytes, Utf8.encode (text again) = .ok bytes := by
    refine exists_encode_text_iff.mpr fun x hx => ?_
    by_cases hx' : x ∈ kept
    · exact exists_encode_text_iff.mp ⟨bytes, hbytes⟩ x hx'
    · exact exists_encode_of_leadsTo (hadded x hx hx').1
  obtain ⟨-, made, temporary, hmade, -⟩ := stages_of_write hwrite
  have hwrite' := exists_write_again hfs hwhole hpublished hname hnumbers hsound hplain hends hmade
    hbytes'
  have hresult : (generate after token options root).result = .ok again :=
    generate_eq_ok_iff.mpr ⟨hprobe', loading', skip, again, hload', hskip', hselect', hagain.symm,
      fun output hsome => ⟨_, (by rw [hout] at hsome; cases hsome; exact hwrite')⟩⟩
  have hrecords : Records after (Path.ofText target) kept :=
    ⟨bytes, hbytes, hpublished.read_of_endsAt hwhole hsound hname hends⟩
  have hrecords' :
      Records (generate after token options root).files (Path.ofText target) again := by
    rw [files_of_generate hprobe' hload' hskip' hselect' hout, hagain]
    refine read_of_write hsound (hpublished.whole hwhole) hplain ?_ hwrite'
    intro i hi
    cases hi.symm.trans (hmanifest false)
    simp [hpublished.kind?_file]
  refine ⟨again, hresult, hrecords, hrecords', hsublist, ?_, ?_⟩
  · exact fun x hx hx' => ⟨k, hmanifest true, (hadded x hx hx').1⟩
  · rintro ⟨i, hi, hregular⟩
    -- the file that was there is the one that has been replaced
    have hholds : fs.Holds d name i :=
      hends.holds_of_stat hfs hwhole (hpublished.holds.legal hsound).length_le hname hi
    have hsubset : again ⊆ kept := by
      intro x hx
      by_contra hx'
      exact (hadded x hx hx').2 i hholds hregular
    obtain rfl : again = kept :=
      (hsublist.eq_of_length_le (List.subperm_of_subset hnodup hsubset).length_le).symm
    exact ⟨rfl, hrecords.read_eq hrecords'⟩

/-- A directory, a link to it that sorts before it, and a file. -/
def detour : FileSystem :=
  FileSystem.empty.applyAll [.makeDirectory "real", .makeLink "link" [0x72, 0x65, 0x61, 0x6C],
    .write "f" []]

/-- A manifest in the directory. -/
def detourOptions : Options := { output := some (Path.ofText "real/m") }

set_option maxRecDepth 10000 in
theorem generate_detour :
    (generate detour {} detourOptions ⟨.here, []⟩).result = .ok [("f" : Text)] := by
  cbv

set_option maxRecDepth 10000 in
theorem generate_detour_again :
    (generate (generate detour {} detourOptions ⟨.here, []⟩).files {} detourOptions
      ⟨.here, []⟩).result = .ok [("f" : Text), ("link/m" : Text)] := by
  cbv

theorem whole_detour : detour.Whole := FileSystem.whole_made _

set_option maxRecDepth 2000 in
theorem lstat_detour : detour.lstat (Path.ofText "real/m").text = .error (.fault .missing) := by
  decide

set_option maxRecDepth 10000 in
theorem rules_detour : ∀ name ∈ [RuleSet.basicFile, RuleSet.patternFile],
    (generate detour {} detourOptions ⟨.here, []⟩).files.stat (Path.child ⟨.here, []⟩ name).text
      ≠ (generate detour {} detourOptions ⟨.here, []⟩).files.stat (Path.ofText "real/m").text := by
  have hmanifest : (generate detour {} detourOptions ⟨.here, []⟩).files.stat
      (Path.ofText "real/m").text = .ok 4 := by cbv
  have hbasic : (generate detour {} detourOptions ⟨.here, []⟩).files.stat
      (Path.child ⟨.here, []⟩ RuleSet.basicFile).text = .error (.fault .missing) := by cbv
  have hpattern : (generate detour {} detourOptions ⟨.here, []⟩).files.stat
      (Path.child ⟨.here, []⟩ RuleSet.patternFile).text = .error (.fault .missing) := by cbv
  simp [hmanifest, hbasic, hpattern]

theorem generate_again_detour :
    (generate detour {} detourOptions ⟨.here, []⟩).result = .ok [("f" : Text)] ∧
    let after := (generate detour {} detourOptions ⟨.here, []⟩).files
    ∃ again, (generate after {} detourOptions ⟨.here, []⟩).result = .ok again ∧
      Records after (Path.ofText "real/m") [("f" : Text)] ∧
      Records (generate after {} detourOptions ⟨.here, []⟩).files (Path.ofText "real/m") again ∧
      [("f" : Text)].Sublist again ∧
      (∀ x ∈ again, x ∉ [("f" : Text)] →
        ∃ manifest, after.stat (Path.ofText "real/m").text = .ok manifest ∧
          Walk.LeadsTo after (Path.text ⟨.here, []⟩) x manifest) ∧
      ((∃ i, detour.stat (Path.ofText "real/m").text = .ok i ∧
          detour.kind? i = some .regular) →
        again = [("f" : Text)] ∧
          (generate after {} detourOptions ⟨.here, []⟩).files.read (Path.ofText "real/m").text
            = after.read (Path.ofText "real/m").text) :=
  ⟨generate_detour, generate_again (by decide) whole_detour (by decide) rfl
    (fun i hi => by rw [lstat_detour] at hi; cases hi) generate_detour rules_detour⟩

/-- A manifest that is reached through a link is listed the second time. -/
theorem not_every_manifest_is_repeated :
    ¬ ∀ (fs : FileSystem) (options : Options) (root : Path) (target : Text) (files : List Text),
      fs.Sound → fs.Whole → options.output = some (Path.ofText target) →
      options.excludeManifest = true → (generate fs {} options root).result = .ok files →
      (∀ name ∈ [RuleSet.basicFile, RuleSet.patternFile],
        (generate fs {} options root).files.stat (root.child name).text
          ≠ (generate fs {} options root).files.stat (Path.ofText target).text) →
      (generate (generate fs {} options root).files {} options root).result = .ok files := by
  intro h
  have hagain := h detour detourOptions ⟨.here, []⟩ "real/m" [("f" : Text)] (by decide)
    whole_detour rfl rfl generate_detour rules_detour
  rw [generate_detour_again] at hagain
  exact absurd (congrArg List.length (Except.ok.inj hagain)) (by decide)

end Manifest

end BundleManifest
