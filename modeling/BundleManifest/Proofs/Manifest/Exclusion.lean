/-
# BundleManifest.Proofs.Manifest.Exclusion — the manifest is left out, and nothing else

The path that is left out is found by replacing all links of the output, and the manifest is written
where the output ends. When both are the same place, the list is the one that is made without an output,
less one path (`generate_without_manifest`). They are not the same where the output ends with a link: the
file that it leads to is left out then (`generate_without_target`), and the link, which the manifest
replaces, is listed (`not_every_manifest_is_left_out`).
-/
import BundleManifest.Proofs.FileSystem.Unfolding
import BundleManifest.Proofs.FileSystem.WellFormed
import BundleManifest.Proofs.Manifest.Selection
import BundleManifest.Proofs.Manifest.Writing
import BundleManifest.Proofs.Walk.Coverage

namespace BundleManifest.Manifest

open FileSystem

/-! ## The path that is left out -/

/-- What lies below a directory has the path of the names in between. -/
theorem below?_realPath (base names : List Bytes) :
    (realPath (base ++ names)).below? (realPath base)
      = some ⟨.here, names.map Utf8.decode⟩ := by
  unfold Path.below? realPath
  rw [List.map_append]
  simp

theorem pathBelow_eq {fs : FileSystem} {path root : Path} {base names : List Bytes}
    (hpath : fs.resolved path = .path (realPath (base ++ names)))
    (hroot : fs.resolved root = .path (realPath base)) (hnames : names ≠ []) :
    pathBelow fs path root = .ok (some (Walk.relativePath names)) := by
  have htext : Path.text ⟨.here, names.map Utf8.decode⟩ = Walk.relativePath names := by
    rw [Path.text_of_ne_nil .here (by simpa using hnames)]
    rfl
  unfold pathBelow
  simp only [hpath, hroot]
  rw [below?_realPath, Option.map_some, htext]

/-- Leaving a path out takes it from what is selected, and changes nothing else. -/
theorem select_singleton_iff {fs : FileSystem} (hfs : fs.Sound) {token : CancellationToken}
    {options : Options} {root : Path} {r : Inode} (hroot : fs.stat root.text = .ok r)
    {rules : RuleSet} {own : Text} {kept : List Text} :
    (select fs token options root rules [own]).result = .ok kept ↔
      ∃ all, (select fs token options root rules []).result = .ok all ∧
        kept = all.filter (· ≠ own) := by
  have hask := askable_of_stat hroot
  have hfilter : (walked fs token options root).filter (fun path =>
        !Filter.isDropped rules [own] (Candidate.under path) && Filter.isRepresentable path)
      = ((walked fs token options root).filter fun path =>
        !Filter.isDropped rules [] (Candidate.under path) && Filter.isRepresentable path).filter
          (· ≠ own) := by
    rw [List.filter_filter]
    refine List.filter_congr fun path _ => ?_
    have hpath : (Candidate.under path).path = path := rfl
    unfold Filter.isDropped
    rw [hpath]
    by_cases hown : path = own
    · simp [hown]
    · simp [hown]
  constructor
  · intro h
    obtain ⟨htoken, hsize, rfl⟩ := selected_eq hfs hroot h
    exact ⟨_, select_result hfs htoken options hask rules [] hsize, hfilter⟩
  · rintro ⟨all, hall, rfl⟩
    obtain ⟨htoken, hsize, rfl⟩ := selected_eq hfs hroot hall
    rw [← hfilter]
    exact select_result hfs htoken options hask rules [own] hsize

/-- A manifest is the list that is made without an output, less the path that is left out. -/
theorem generate_iff_of_skipped {fs : FileSystem} (hfs : fs.Sound) {token : CancellationToken}
    {options : Options} {root output : Path} (hout : options.output = some output)
    {own : Text} (hskip : skipped fs options root = .ok [own]) {files : List Text} :
    (generate fs token options root).result = .ok files ↔
      ∃ all p, (generate fs token { options with output := none } root).result = .ok all ∧
        files = all.filter (· ≠ own) ∧ (write fs output files).result = .ok p := by
  constructor
  · intro h
    obtain ⟨hprobe, loading, skip, kept, hload, hskip', hselect, rfl, hwrite⟩ :=
      generate_eq_ok_iff.mp h
    obtain ⟨r, hroot⟩ := stat_of_probe hprobe
    cases hskip.symm.trans hskip'
    obtain ⟨all, hall, rfl⟩ := (select_singleton_iff hfs hroot).mp hselect
    obtain ⟨p, hp⟩ := hwrite output hout
    have hnodup := nodup_of_select hfs hroot hall
    rw [eraseDups_of_nodup (hnodup.filter _)] at hp ⊢
    refine ⟨all, p, ?_, rfl, hp⟩
    exact generate_eq_ok_iff.mpr ⟨hprobe, loading, [], all, hload, rfl, hall,
      (eraseDups_of_nodup hnodup).symm, fun _ h => by cases h⟩
  · rintro ⟨all, p, h, rfl, hp⟩
    obtain ⟨hprobe, loading, skip, kept, hload, hskip', hselect, rfl, -⟩ := generate_eq_ok_iff.mp h
    obtain ⟨r, hroot⟩ := stat_of_probe hprobe
    cases hskip'
    have hnodup := nodup_of_select hfs hroot hselect
    rw [eraseDups_of_nodup hnodup] at hp ⊢
    have hselect' : (select fs token options root loading.rules [own]).result
        = .ok (kept.filter (· ≠ own)) := (select_singleton_iff hfs hroot).mpr ⟨kept, hselect, rfl⟩
    refine generate_eq_ok_iff.mpr ⟨hprobe, loading, [own], _, hload, hskip, hselect',
      (eraseDups_of_nodup (hnodup.filter _)).symm, fun output' hsome => ?_⟩
    rw [hout] at hsome
    cases hsome
    exact ⟨p, hp⟩

/-! ## Where the output leads -/

section
variable {fs : FileSystem} (hfs : fs.Sound) (hwhole : fs.Whole) (hplaced : fs.Placed)
  {token : CancellationToken} {options : Options} {root output : Path}
  (hout : options.output = some output) (hexclude : options.excludeManifest = true)
  {r : Inode} (hroot : fs.stat root.text = .ok r) (hrootRoomy : fs.Roomy root.text)
  (hroomy : fs.Roomy output.text)
include hfs hwhole hplaced hout hexclude hroot hrootRoomy hroomy

/-- Where the output ends with no link, the name that it ends with is left out. -/
theorem skipped_of_endsAt {e : Inode} {names : List Bytes} {name : Bytes}
    (hdown : fs.Descends r names e) (hends : fs.EndsAt output.text e name)
    (hlink : ∀ j, fs.Holds e name j → fs.kind? j ≠ some .link) :
    skipped fs options root = .ok [Walk.relativePath (names ++ [name])] := by
  obtain ⟨base, hbase, hbaseDown⟩ := resolved_of_stat hfs hwhole hplaced hrootRoomy hroot
  obtain ⟨above, habove, haboveDown⟩ :=
    resolved_of_endsAt hfs hwhole hplaced hroomy hends hlink
  -- the directory of the output has one real path
  obtain rfl := haboveDown.unique hfs hwhole hplaced (hbaseDown.append hdown)
  rw [List.append_assoc] at habove
  unfold skipped
  simp only [hout, hexclude, if_true]
  rw [pathBelow_eq habove hbase (by simp)]
  rfl

/-- Where the output leads to something, that is left out. -/
theorem skipped_of_stat {i : Inode} {names : List Bytes} (hnames : names ≠ [])
    (hdown : fs.Descends r names i) (hstat : fs.stat output.text = .ok i) :
    skipped fs options root = .ok [Walk.relativePath names] := by
  obtain ⟨base, hbase, hbaseDown⟩ := resolved_of_stat hfs hwhole hplaced hrootRoomy hroot
  obtain ⟨whole, hresolved, hwholeDown⟩ := resolved_of_stat hfs hwhole hplaced hroomy hstat
  obtain rfl := hwholeDown.unique hfs hwhole hplaced (hbaseDown.append hdown)
  unfold skipped
  simp only [hout, hexclude, if_true]
  rw [pathBelow_eq hresolved hbase hnames]
  rfl

end

/-- A manifest is written where its output ends. -/
theorem published_of_generate {fs : FileSystem} (hfs : fs.Sound) (hwhole : fs.Whole)
    {token : CancellationToken} {options : Options} {root : Path} {target : Text}
    (hout : options.output = some (Path.ofText target)) {e : Inode} {name : Bytes}
    (hends : fs.EndsAt (Path.ofText target).text e name) {files : List Text}
    (h : (generate fs token options root).result = .ok files) :
    ∃ k bytes, Utf8.encode (text files) = .ok bytes ∧
      fs.Published (generate fs token options root).files e name k bytes := by
  obtain ⟨hprobe, loading, skip, kept, hload, hskip, hselect, rfl, hwrite⟩ :=
    generate_eq_ok_iff.mp h
  obtain ⟨p, hp⟩ := hwrite _ hout
  rw [files_of_generate hprobe hload hskip hselect hout]
  obtain ⟨d, other, k, bytes, hbytes, hends', hpublished, -⟩ :=
    published_of_write hfs hwhole (Path.plain_ofText target) hp
  obtain ⟨rfl, rfl⟩ := hends.unique hends'
  exact ⟨k, bytes, hbytes, hpublished⟩

section
variable {fs : FileSystem} (hfs : fs.Sound) (hwhole : fs.Whole) (hplaced : fs.Placed)
  {token : CancellationToken} {options : Options} {root : Path} {target : Text}
  (hout : options.output = some (Path.ofText target)) (hexclude : options.excludeManifest = true)
  {r : Inode} (hroot : fs.stat root.text = .ok r) (hrootRoomy : fs.Roomy root.text)
  (hroomy : fs.Roomy (Path.ofText target).text)
include hfs hwhole hplaced hout hexclude hroot hrootRoomy hroomy

/-- Below a directory of the application, real directories in between, a manifest is written that lists
what is listed without an output, less the path where it is written, if no link stands there. -/
theorem generate_without_manifest {e : Inode} {names : List Bytes} {name : Bytes}
    (hdown : fs.Descends r names e) (hends : fs.EndsAt (Path.ofText target).text e name)
    (hlink : ∀ j, fs.Holds e name j → fs.kind? j ≠ some .link) (files : List Text) :
    ((generate fs token options root).result = .ok files ↔
      ∃ all p, (generate fs token { options with output := none } root).result = .ok all ∧
        files = all.filter (· ≠ Walk.relativePath (names ++ [name])) ∧
        (write fs (Path.ofText target) files).result = .ok p) ∧
    ((generate fs token options root).result = .ok files →
      ∃ k bytes, Utf8.encode (text files) = .ok bytes ∧
        fs.Published (generate fs token options root).files e name k bytes) := by
  constructor
  · have hskip : skipped fs options root = .ok [Walk.relativePath (names ++ [name])] :=
      skipped_of_endsAt hfs hwhole hplaced hout hexclude hroot hrootRoomy hroomy hdown hends hlink
    exact generate_iff_of_skipped hfs hout hskip
  · exact published_of_generate hfs hwhole hout hends

end

/-- An application and a directory of it, each behind a link, and a file of the same name in both. -/
def annex : FileSystem :=
  FileSystem.empty.applyAll [.makeDirectory "app", .makeDirectory "app/d", .write "app/d/m" [],
    .write "app/m" [], .makeLink "site" [0x61, 0x70, 0x70],
    .makeLink "way" [0x73, 0x69, 0x74, 0x65, 0x2F, 0x64]]

/-- The manifest is the file in the directory. -/
def annexOptions : Options := { output := some (Path.ofText "way/m") }

theorem whole_annex : annex.Whole := FileSystem.whole_made _

theorem placed_annex : annex.Placed := FileSystem.placed_made _

set_option maxRecDepth 10000 in
theorem generate_annex :
    (generate annex {} annexOptions (Path.ofText "site")).result = .ok [("m" : Text)] := by
  cbv

set_option maxRecDepth 10000 in
theorem stat_annex : annex.stat (Path.ofText "site").text = .ok 1 := by
  decide

set_option maxRecDepth 10000 in
theorem roomy_annex :
    annex.Roomy (Path.ofText "site").text ∧ annex.Roomy (Path.ofText "way/m").text := by
  constructor
  · have hpath : Utf8.decode [0x73, 0x69, 0x74, 0x65] = (Path.ofText "site").text :=
      Utf8.decode_of_ascii (by simp)
    exact ⟨_, hpath.symm, by decide⟩
  · have hpath : Utf8.decode [0x77, 0x61, 0x79, 0x2F, 0x6D] = (Path.ofText "way/m").text :=
      Utf8.decode_of_ascii (by simp)
    exact ⟨_, hpath.symm, by decide⟩

set_option maxRecDepth 10000 in
theorem endsAt_annex : annex.EndsAt (Path.ofText "way/m").text 2 [0x6D] := by
  have hroute : Route.ofText (Path.ofText "way/m").text
      = .ok ⟨false, [[0x77, 0x61, 0x79], [0x6D]], false⟩ := by decide
  exact endsAt_of_site hroute rfl (by decide)

theorem no_link_annex (j : Inode) (h : annex.Holds 2 [0x6D] j) : annex.kind? j ≠ some .link := by
  have hedges : ∀ a ∈ annex.edges, a.1 = 2 → annex.kind? a.2.2 ≠ some .link := by decide
  exact hedges _ h.mem_edges rfl

theorem generate_without_manifest_annex :
    annex.Sound ∧ annex.Whole ∧ annex.Placed ∧ annex.Descends 1 [[0x64]] 2 ∧
    (generate annex {} annexOptions (Path.ofText "site")).result = .ok [("m" : Text)] ∧
    (((generate annex {} annexOptions (Path.ofText "site")).result = .ok [("m" : Text)] ↔
      ∃ all p, (generate annex {} { annexOptions with output := none }
          (Path.ofText "site")).result = .ok all ∧
        [("m" : Text)] = all.filter (· ≠ Walk.relativePath ([[0x64]] ++ [[0x6D]])) ∧
        (write annex (Path.ofText "way/m") [("m" : Text)]).result = .ok p) ∧
    ((generate annex {} annexOptions (Path.ofText "site")).result = .ok [("m" : Text)] →
      ∃ k bytes, Utf8.encode (text [("m" : Text)]) = .ok bytes ∧
        annex.Published (generate annex {} annexOptions (Path.ofText "site")).files 2 [0x6D] k
          bytes)) := by
  have hfs : annex.Sound := by decide
  have hdown : annex.Descends 1 [[0x64]] 2 := by decide
  exact ⟨hfs, whole_annex, placed_annex, hdown, generate_annex,
    generate_without_manifest hfs whole_annex placed_annex rfl rfl stat_annex roomy_annex.1
      roomy_annex.2 hdown endsAt_annex no_link_annex [("m" : Text)]⟩

/-! ## Where the output ends with a link -/

/-- What the output leads to is left out, even if that is not where the manifest is written. -/
theorem generate_without_target {fs : FileSystem} (hfs : fs.Sound) (hwhole : fs.Whole)
    (hplaced : fs.Placed) {token : CancellationToken} {options : Options} {root : Path}
    {target : Text} (hout : options.output = some (Path.ofText target))
    (hexclude : options.excludeManifest = true) {r : Inode} (hroot : fs.stat root.text = .ok r)
    (hrootRoomy : fs.Roomy root.text) (hroomy : fs.Roomy (Path.ofText target).text) {i : Inode}
    {names : List Bytes} (hnames : names ≠ []) (hdown : fs.Descends r names i)
    (hstat : fs.stat (Path.ofText target).text = .ok i) (files : List Text) :
    (generate fs token options root).result = .ok files ↔
      ∃ all p, (generate fs token { options with output := none } root).result = .ok all ∧
        files = all.filter (· ≠ Walk.relativePath names) ∧
        (write fs (Path.ofText target) files).result = .ok p := by
  have hskip : skipped fs options root = .ok [Walk.relativePath names] :=
    skipped_of_stat hfs hwhole hplaced hout hexclude hroot hrootRoomy hroomy hnames hdown hstat
  exact generate_iff_of_skipped hfs hout hskip

/-- A file and a link to it. -/
def crossed : FileSystem :=
  FileSystem.empty.applyAll [.write "t" [], .makeLink "m" [0x74]]

/-- The manifest replaces the link. -/
def crossedOptions : Options := { output := some (Path.ofText "m") }

theorem whole_crossed : crossed.Whole := FileSystem.whole_made _

theorem placed_crossed : crossed.Placed := FileSystem.placed_made _

set_option maxRecDepth 10000 in
theorem generate_crossed :
    (generate crossed {} crossedOptions ⟨.here, []⟩).result = .ok [("m" : Text)] ∧
    (generate crossed {} { crossedOptions with output := none } ⟨.here, []⟩).result
      = .ok [("m" : Text), ("t" : Text)] := by
  constructor
  · cbv
  · cbv

set_option maxRecDepth 10000 in
theorem endsAt_crossed : crossed.EndsAt (Path.ofText "m").text 0 [0x6D] := by
  have hroute : Route.ofText (Path.ofText "m").text = .ok ⟨false, [[0x6D]], false⟩ := by decide
  exact endsAt_of_site hroute rfl (by decide)

set_option maxRecDepth 10000 in
/-- A manifest that replaces a link is listed, and the file that the link led to is not. -/
theorem not_every_manifest_is_left_out :
    ¬ ∀ (fs : FileSystem) (options : Options) (root : Path) (target : Text) (r e : Inode)
        (names : List Bytes) (name : Bytes) (files all : List Text),
      fs.Sound → fs.Whole → fs.Placed → options.output = some (Path.ofText target) →
      options.excludeManifest = true → fs.stat root.text = .ok r → fs.Descends r names e →
      fs.EndsAt (Path.ofText target).text e name →
      (generate fs {} options root).result = .ok files →
      (generate fs {} { options with output := none } root).result = .ok all →
      files = all.filter (· ≠ Walk.relativePath (names ++ [name])) := by
  intro h
  have hroot : crossed.stat (Path.text ⟨.here, []⟩) = .ok 0 := by decide
  have hfiles := h crossed crossedOptions ⟨.here, []⟩ "m" 0 0 [] [0x6D] _ _ (by decide)
    whole_crossed placed_crossed rfl rfl hroot (by decide) endsAt_crossed generate_crossed.1
    generate_crossed.2
  have hkept : [("m" : Text), ("t" : Text)].filter (· ≠ Walk.relativePath ([] ++ [[0x6D]]))
      = [("t" : Text)] := by
    have hown : Walk.relativePath ([] ++ [[0x6D]]) = ("m" : Text) :=
      Utf8.decode_of_ascii (by simp)
    rw [hown]
    decide
  rw [hkept] at hfiles
  exact absurd hfiles (by decide)

end BundleManifest.Manifest
