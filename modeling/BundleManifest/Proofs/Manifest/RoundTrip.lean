/-
# BundleManifest.Proofs.Manifest.RoundTrip — manifests are read as they were written

Three round trips. A list that is written is read back exactly when each of its paths stands on one
line and survives encoding and decoding; the paths that do not survive leave all others alone
(`read_written_iff`). The paths of a generated manifest always survive, as they have been decoded from
names, and the file holds the bytes of these names (`read_generated`). And what is read from any bytes
can be written back, which only ends the last line (`rewriting_ends_last_line`).

A manifest can be written through a path that it cuts off itself: the last part of `m/m` is the link
`m`, if that leads to its own directory, and the file in its place is no directory any more. What has
been written there cannot be read by that path. `StillReached` excludes that.
-/
import BundleManifest.Proofs.Manifest.Lines
import BundleManifest.Proofs.Manifest.Selection
import BundleManifest.Proofs.Manifest.Writing
import BundleManifest.Proofs.Walk.Cycles

namespace BundleManifest.Manifest

open FileSystem

/-- If a path named a link, the path above it leads where it led before. -/
def StillReached (before after : FileSystem) (path : Path) : Prop :=
  (∃ i, before.lstat path.text = .ok i ∧ before.kind? i = some .link) →
    after.stat path.parent.text = before.stat path.parent.text

/-- Reading a manifest takes the text of its bytes apart. -/
theorem read_of_bytes {fs : FileSystem} {path : Path} {bytes : Bytes}
    (h : fs.read path.text = .ok bytes) : read fs path = .ok (paths (Utf8.decode bytes)) := by
  unfold read
  rw [h]

/-! ## From a list to a file and back -/

section
variable {fs : FileSystem} (hfs : fs.Sound) (hwhole : fs.Whole) {path : Path} (hplain : path.Plain)
  {files : List Text}
include hfs hwhole hplain

/-- What has been written is what the file holds, as long as the path still leads to it. -/
theorem read_of_write_reached {p : Path} (h : (write fs path files).result = .ok p)
    (hreached : StillReached fs (write fs path files).files path) :
    ∃ bytes, Utf8.encode (text files) = .ok bytes ∧
      (write fs path files).files.read path.text = .ok bytes := by
  by_cases hlink : ∃ i, fs.lstat path.text = .ok i ∧ fs.kind? i = some .link
  · obtain ⟨d, name, k, bytes, hbytes, hends, hwritten, hsound⟩ :=
      published_of_write hfs hwhole hplain h
    have hparent := (hreached hlink).trans (hends.stat_parent hwhole hplain)
    have hends' := hends.of_parent (hwritten.whole hwhole) hplain hwritten.kind?_after hparent
    exact ⟨bytes, hbytes, hwritten.read_of_ends hsound hends'⟩
  · exact read_of_write hfs hwhole hplain (fun i hi hkind => hlink ⟨i, hi, hkind⟩) h

end

/-- A list that has been written is read back exactly when each path stands on one line and survives
encoding and decoding. Without line breaks every path is read as it survives, and none is lost. -/
theorem read_written_iff {fs : FileSystem} (hfs : fs.Sound) (hwhole : fs.Whole) {target : Text}
    {files : List Text} {p : Path}
    (h : (write fs (Path.ofText target) files).result = .ok p)
    (hreached : StillReached fs (write fs (Path.ofText target) files).files (Path.ofText target)) :
    let after := (write fs (Path.ofText target) files).files
    (read after (Path.ofText target) = .ok files ↔
      ∀ x ∈ files, lineEnd ∉ x ∧ Utf8.reread x = .ok x) ∧
    ((∀ x ∈ files, lineEnd ∉ x) →
      ∃ again, read after (Path.ofText target) = .ok again ∧
        List.Forall₂ (fun x y => Utf8.reread x = .ok y) files again) := by
  intro after
  obtain ⟨bytes, hbytes, hread⟩ :=
    read_of_write_reached hfs hwhole (Path.plain_ofText target) h hreached
  have hlines := read_of_bytes hread
  constructor
  · rw [hlines, Except.ok.injEq]
    exact paths_decode_eq_iff hbytes
  · intro hbreaks
    exact ⟨_, hlines, paths_decode hbytes hbreaks⟩

/-- Names that are not well-formed, one of them with a line break, and a manifest that is a link. -/
def outlandish : FileSystem :=
  FileSystem.empty.applyAll [.makeDirectory [Utf8.escaped 0xC3],
    .write ([Utf8.escaped 0xC3] ++ ("/" : Text) ++ [Utf8.escaped 0xA9]) [], .write "x\ny" [],
    .makeLink "m" [0x67, 0x6F, 0x6E, 0x65]]

theorem whole_outlandish : outlandish.Whole := FileSystem.whole_made _

/-- Among others the empty path, and two escaped bytes that are read as one character. -/
def outlandishFiles : List Text := ["", "a\r", [Utf8.escaped 0xC3, Utf8.escaped 0xA9], "\uFEFF"]

set_option maxRecDepth 10000 in
theorem write_outlandish :
    (write outlandish (Path.ofText "m") outlandishFiles).result = .ok (Path.ofText "m") := rfl

set_option maxRecDepth 10000 in
theorem reached_outlandish : StillReached outlandish
    (write outlandish (Path.ofText "m") outlandishFiles).files (Path.ofText "m") := by
  intro _
  have hafter : (write outlandish (Path.ofText "m") outlandishFiles).files.stat
      (Path.ofText "m").parent.text = .ok 0 := by decide
  have hbefore : outlandish.stat (Path.ofText "m").parent.text = .ok 0 := by decide
  rw [hafter, hbefore]

theorem read_written_outlandish :
    (write outlandish (Path.ofText "m") outlandishFiles).result = .ok (Path.ofText "m") ∧
    let after := (write outlandish (Path.ofText "m") outlandishFiles).files
    (read after (Path.ofText "m") = .ok outlandishFiles ↔
      ∀ x ∈ outlandishFiles, lineEnd ∉ x ∧ Utf8.reread x = .ok x) ∧
    ((∀ x ∈ outlandishFiles, lineEnd ∉ x) →
      ∃ again, read after (Path.ofText "m") = .ok again ∧
        List.Forall₂ (fun x y => Utf8.reread x = .ok y) outlandishFiles again) :=
  ⟨write_outlandish,
    read_written_iff (by decide) whole_outlandish write_outlandish reached_outlandish⟩

/-- A directory and a link to it, which may be left again by the same path. -/
def aside : FileSystem :=
  FileSystem.empty.applyAll [.makeDirectory "d", .makeLink "m" [0x64]]

theorem whole_aside : aside.Whole := FileSystem.whole_made _

set_option maxRecDepth 10000 in
theorem write_aside :
    (write aside (Path.ofText "m/../m") ["f"]).result = .ok (Path.ofText "m/../m") := rfl

set_option maxRecDepth 10000 in
theorem read_aside :
    (write aside (Path.ofText "m/../m") ["f"]).files.read (Path.ofText "m/../m").text
      = .error (.fault .notDirectory) := by
  decide

/-- A list that has been written through the link that it replaces cannot be read by this path. -/
theorem not_every_list_is_read_back :
    ¬ ∀ (fs : FileSystem) (target : Text) (files : List Text) (p : Path), fs.Sound → fs.Whole →
      (write fs (Path.ofText target) files).result = .ok p →
      (read (write fs (Path.ofText target) files).files (Path.ofText target) = .ok files ↔
        ∀ x ∈ files, lineEnd ∉ x ∧ Utf8.reread x = .ok x) := by
  intro h
  have hsurvives : Utf8.reread "f" = .ok ("f" : Text) :=
    Utf8.reread_eq_ok_iff.mpr ⟨[0x66], by decide, Utf8.decode_of_ascii (by simp)⟩
  have hread := (h aside "m/../m" ["f"] _ (by decide) whole_aside write_aside).mpr <| by
    intro x hx
    rw [List.mem_singleton.mp hx]
    exact ⟨by decide, hsurvives⟩
  unfold read at hread
  rw [read_aside] at hread
  cases hread

/-! ## From names to a file and back -/

/-- The path of names is the text of their bytes. -/
theorem relativePath_eq_decode (names : List Bytes) :
    Walk.relativePath names = Utf8.decode (glue Route.slash names) :=
  (Utf8.decode_glue (b := Route.slash) (by decide) names).symm

/-- Every file of a manifest has a way down from the root, and stands on one line. -/
theorem exists_ways_of_generate {fs : FileSystem} (hfs : fs.Sound) {token : CancellationToken}
    {options : Options} {root : Path} {files : List Text}
    (h : (generate fs token options root).result = .ok files) :
    (∀ x ∈ files, lineEnd ∉ x) ∧
      ∃ ways : List (List Bytes), files = ways.map Walk.relativePath ∧
        ∀ names ∈ ways, ∃ d, fs.stat root.text = .ok d ∧ Walk.Trail fs [d] root.text d names := by
  obtain ⟨hprobe, loading, skip, kept, -, -, hselect, rfl, -⟩ := generate_eq_ok_iff.mp h
  obtain ⟨d, hroot⟩ := stat_of_probe hprobe
  obtain ⟨htoken, -, hkept⟩ := selected_eq hfs hroot hselect
  have hmem {x : Text} (hx : x ∈ kept.eraseDups) :
      x ∈ walked fs token options root ∧ Filter.isRepresentable x = true := by
    rw [List.mem_eraseDups, hkept, List.mem_filter, Bool.and_eq_true] at hx
    exact ⟨hx.1, hx.2.2⟩
  constructor
  · intro x hx hbreak
    have hone := (hmem hx).2
    unfold Filter.isRepresentable at hone
    simp only [Bool.and_eq_true, Bool.not_eq_true', List.contains_eq_mem,
      decide_eq_false_iff_not] at hone
    exact hone.1 hbreak
  · have hrange : kept.eraseDups ∈ Set.range (List.map
        fun way : {names // Walk.Trail fs [d] root.text d names} => Walk.relativePath way.1) := by
      rw [Set.range_list_map]
      intro x hx
      obtain ⟨e, names, he, rfl, htrail⟩ := Walk.exists_trail hfs htoken _ root (hmem hx).1
      cases hroot.symm.trans he
      exact ⟨⟨names, htrail⟩, rfl⟩
    obtain ⟨ways, hways⟩ := hrange
    refine ⟨ways.map Subtype.val, by rw [← hways, List.map_map]; rfl, ?_⟩
    intro names hnames
    obtain ⟨way, -, rfl⟩ := List.mem_map.mp hnames
    exact ⟨d, hroot, way.2⟩

/-- A manifest that has been generated is read back as it is, and its file holds the paths byte by
byte, as the directories list them, one on every line. -/
theorem read_generated {fs : FileSystem} (hfs : fs.Sound) (hwhole : fs.Whole)
    {token : CancellationToken} {options : Options} {root : Path} {target : Text}
    (hout : options.output = some (Path.ofText target)) {files : List Text}
    (h : (generate fs token options root).result = .ok files)
    (hreached : StillReached fs (generate fs token options root).files (Path.ofText target)) :
    let after := (generate fs token options root).files
    read after (Path.ofText target) = .ok files ∧
      ∃ ways : List (List Bytes), files = ways.map Walk.relativePath ∧
        (∀ names ∈ ways, ∃ d, fs.stat root.text = .ok d ∧ Walk.Trail fs [d] root.text d names) ∧
        after.read (Path.ofText target).text = .ok (content (ways.map (glue Route.slash))) := by
  intro after
  obtain ⟨hbreaks, ways, hways, htrails⟩ := exists_ways_of_generate hfs h
  obtain ⟨hprobe, loading, skip, kept, hload, hskip, hselect, hfiles, hwrite⟩ :=
    generate_eq_ok_iff.mp h
  obtain ⟨p, hwrite⟩ := hwrite _ hout
  have hafter : after = (write fs (Path.ofText target) files).files :=
    hfiles ▸ files_of_generate hprobe hload hskip hselect hout
  obtain ⟨bytes, hbytes, hread⟩ := read_of_write_reached hfs hwhole (Path.plain_ofText target) hwrite
    (hafter ▸ hreached)
  rw [← hafter] at hread
  -- decoded names are encoded as they were
  have hencoded : List.Forall₂ (fun x line => Utf8.encode x = .ok line) files
      (ways.map (glue Route.slash)) := by
    rw [hways, List.forall₂_map_left_iff, List.forall₂_map_right_iff, List.forall₂_same]
    intro names _
    rw [relativePath_eq_decode, Utf8.encode_decode]
  have hcontent : bytes = content (ways.map (glue Route.slash)) :=
    Except.ok.inj (hbytes.symm.trans (encode_text_iff.mpr ⟨_, hencoded, rfl⟩))
  refine ⟨?_, ways, hways, htrails, hcontent ▸ hread⟩
  rw [read_of_bytes hread, Except.ok.injEq, paths_decode_eq_iff hbytes]
  intro x hx
  refine ⟨hbreaks x hx, ?_⟩
  rw [hways] at hx
  obtain ⟨names, -, rfl⟩ := List.mem_map.mp hx
  rw [relativePath_eq_decode, Utf8.reread_eq_ok_iff]
  exact ⟨_, Utf8.encode_decode _, rfl⟩

/-- The manifest is the link of the same name. -/
def outlandishOptions : Options := { output := some (Path.ofText "m") }

/-- What stays: the name in two pieces that are not well-formed, and not the one with a line break. -/
def outlandishKept : List Text := [[Utf8.escaped 0xC3] ++ ("/" : Text) ++ [Utf8.escaped 0xA9]]

set_option maxRecDepth 10000 in
theorem generate_outlandish :
    (generate outlandish {} outlandishOptions ⟨.here, []⟩).result = .ok outlandishKept ∧
    (generate outlandish {} outlandishOptions ⟨.here, []⟩).files.stat
      (Path.ofText "m").parent.text = .ok 0 := by
  constructor
  · cbv
  · cbv

set_option maxRecDepth 10000 in
theorem reached_generate_outlandish : StillReached outlandish
    (generate outlandish {} outlandishOptions ⟨.here, []⟩).files (Path.ofText "m") := by
  intro _
  have hbefore : outlandish.stat (Path.ofText "m").parent.text = .ok 0 := by decide
  rw [generate_outlandish.2, hbefore]

theorem read_generated_outlandish :
    (generate outlandish {} outlandishOptions ⟨.here, []⟩).result = .ok outlandishKept ∧
    let after := (generate outlandish {} outlandishOptions ⟨.here, []⟩).files
    read after (Path.ofText "m") = .ok outlandishKept ∧
      ∃ ways : List (List Bytes), outlandishKept = ways.map Walk.relativePath ∧
        (∀ names ∈ ways, ∃ d, outlandish.stat (Path.text ⟨.here, []⟩) = .ok d ∧
          Walk.Trail outlandish [d] (Path.text ⟨.here, []⟩) d names) ∧
        after.read (Path.ofText "m").text = .ok (content (ways.map (glue Route.slash))) :=
  ⟨generate_outlandish.1, read_generated (by decide) whole_outlandish rfl generate_outlandish.1
    reached_generate_outlandish⟩

/-- A file, and a link to the directory in which both are. -/
def inward : FileSystem :=
  FileSystem.empty.applyAll [.write "f" [], .makeLink "m" [0x2E]]

/-- The manifest is the link, by way of the link. -/
def inwardOptions : Options := { output := some (Path.ofText "m/m") }

theorem whole_inward : inward.Whole := FileSystem.whole_made _

set_option maxRecDepth 10000 in
theorem generate_inward :
    (generate inward {} inwardOptions ⟨.here, []⟩).result = .ok [("f" : Text)] ∧
    (generate inward {} inwardOptions ⟨.here, []⟩).files.read (Path.ofText "m/m").text
      = .error (.fault .notDirectory) := by
  constructor
  · cbv
  · cbv

/-- A manifest that has been generated through the link that it replaces cannot be read by this path. -/
theorem not_every_manifest_is_read_back :
    ¬ ∀ (fs : FileSystem) (options : Options) (root : Path) (target : Text) (files : List Text),
      fs.Sound → fs.Whole → options.output = some (Path.ofText target) →
      (generate fs {} options root).result = .ok files →
      read (generate fs {} options root).files (Path.ofText target) = .ok files := by
  intro h
  have hread := h inward inwardOptions ⟨.here, []⟩ "m/m" ["f"] (by decide) whole_inward rfl
    generate_inward.1
  unfold read at hread
  rw [generate_inward.2] at hread
  cases hread

/-! ## From bytes to a list and back -/

/-- What can be read is no directory. -/
theorem stat_of_read {fs : FileSystem} {path : Text} {bytes : Bytes}
    (h : fs.read path = .ok bytes) :
    ∃ i, fs.stat path = .ok i ∧ fs.kind? i ≠ some .directory := by
  unfold FileSystem.read at h
  cases hstat : fs.stat path with
  | error e =>
    rw [hstat] at h
    cases h
  | ok i =>
    refine ⟨i, rfl, fun hkind => ?_⟩
    obtain ⟨above, entries, hnode⟩ := node?_of_kind? hkind
    rw [hstat] at h
    simp only [bind, Except.bind, hnode] at h
    cases h

/-- What is read from a file can be written back as long as a temporary file can be made. The bytes are
the same, with the last line ended, and from then on reading and writing change nothing. -/
theorem rewriting_ends_last_line {fs : FileSystem} (hfs : fs.Sound) (hwhole : fs.Whole)
    (hnumbers : fs.numbers.Nodup) {target : Text} {bytes : Bytes}
    (h : fs.read (Path.ofText target).text = .ok bytes) :
    ∃ files, read fs (Path.ofText target) = .ok files ∧
      Utf8.encode (text files) = .ok (ended newline bytes) ∧
      ((∃ found, makeTemporary fs (Path.ofText target) = .ok found) →
        let after := (write fs (Path.ofText target) files).files
        let again := (write after (Path.ofText target) files).files
        (write fs (Path.ofText target) files).result = .ok (Path.ofText target) ∧
        after.read (Path.ofText target).text = .ok (ended newline bytes) ∧
        read after (Path.ofText target) = .ok files ∧
        (write after (Path.ofText target) files).result = .ok (Path.ofText target) ∧
        again.read (Path.ofText target).text = .ok (ended newline bytes) ∧
        read again (Path.ofText target) = .ok files) := by
  have hplain : (Path.ofText target).Plain := Path.plain_ofText target
  have hbytes := encode_text_paths bytes
  refine ⟨_, read_of_bytes h, hbytes, ?_⟩
  rintro ⟨⟨made, temporary⟩, hmade⟩ after again
  obtain ⟨i, hstat, hi⟩ := stat_of_read h
  obtain ⟨d, name, hends, hleads, hlength⟩ := exists_endsAt_of_stat hwhole hplain hstat hi
  have hnone (j : Inode) (hj : fs.Leads d name j) : fs.kind? j ≠ some .directory :=
    hj.eq hleads ▸ hi
  have hname (j : Inode) (hj : fs.Holds d name j) : fs.kind? j ≠ some .directory := fun hkind =>
    hnone j (hj.leads hfs (by simp [hkind])) hkind
  have hwrite := write_of_endsAt hfs hwhole hplain hmade hends hlength hname hbytes
  obtain ⟨e, other, k, bytes', hbytes', hends', hwritten, hsound⟩ :=
    published_of_write hfs hwhole hplain hwrite
  obtain ⟨rfl, rfl⟩ := hends.unique hends'
  cases hbytes.symm.trans hbytes'
  -- what led to the file before was no way through the name that it has been given
  have hafter := hwritten.endsAt_of_before hfs hwhole hnone hends
  have hread : after.read (Path.ofText target).text = .ok (ended newline bytes) :=
    hwritten.read_of_ends hsound hafter
  have hwrite' := exists_write_behind hfs hwhole hwritten hnone hnumbers hsound hplain hends hmade
    hbytes
  have hlink (i : Inode) (hi : after.lstat (Path.ofText target).text = .ok i) :
      after.kind? i ≠ some .link := by
    have hfind : after.find false (Path.ofText target).text = .ok k :=
      hafter.find_of_holds hsound hwritten.holds hwritten.file (Or.inl rfl)
    cases hfind.symm.trans hi
    simp [after, hwritten.kind?_file]
  obtain ⟨bytes', hbytes', hread'⟩ :=
    read_of_write hsound (hwritten.whole hwhole) hplain hlink hwrite'
  cases hbytes.symm.trans hbytes'
  have hlines {gs : FileSystem} (hgs : gs.read (Path.ofText target).text = .ok (ended newline bytes)) :
      read gs (Path.ofText target) = .ok (paths (Utf8.decode bytes)) := by
    rw [read_of_bytes hgs, paths_decode_ended]
  exact ⟨hwrite, hread, hlines hread, hwrite', hread', hlines hread'⟩

/-- A manifest with ill-formed bytes and a line break of two bytes, whose last line is not ended. -/
def unended : FileSystem :=
  FileSystem.empty.applyAll [.write "m" [0x61, 0x0D, 0x0A, 0x00, 0xFF, 0xC3]]

theorem whole_unended : unended.Whole := FileSystem.whole_made _

set_option maxRecDepth 10000 in
theorem read_unended :
    unended.read (Path.ofText "m").text = .ok [0x61, 0x0D, 0x0A, 0x00, 0xFF, 0xC3] := by
  decide

set_option maxRecDepth 10000 in
theorem makeTemporary_unended : ∃ found, makeTemporary unended (Path.ofText "m") = .ok found := by
  have hmade : (makeTemporary unended (Path.ofText "m")).toOption.isSome = true := by decide
  cases h : makeTemporary unended (Path.ofText "m") with
  | error e =>
    rw [h] at hmade
    cases hmade
  | ok found => exact ⟨found, rfl⟩

theorem rewriting_unended :
    (∃ found, makeTemporary unended (Path.ofText "m") = .ok found) ∧
    unended.read (Path.ofText "m").text = .ok [0x61, 0x0D, 0x0A, 0x00, 0xFF, 0xC3] ∧
    ∃ files, read unended (Path.ofText "m") = .ok files ∧
      Utf8.encode (text files) = .ok (ended newline [0x61, 0x0D, 0x0A, 0x00, 0xFF, 0xC3]) ∧
      ((∃ found, makeTemporary unended (Path.ofText "m") = .ok found) →
        let after := (write unended (Path.ofText "m") files).files
        let again := (write after (Path.ofText "m") files).files
        (write unended (Path.ofText "m") files).result = .ok (Path.ofText "m") ∧
        after.read (Path.ofText "m").text
          = .ok (ended newline [0x61, 0x0D, 0x0A, 0x00, 0xFF, 0xC3]) ∧
        read after (Path.ofText "m") = .ok files ∧
        (write after (Path.ofText "m") files).result = .ok (Path.ofText "m") ∧
        again.read (Path.ofText "m").text
          = .ok (ended newline [0x61, 0x0D, 0x0A, 0x00, 0xFF, 0xC3]) ∧
        read again (Path.ofText "m") = .ok files) :=
  ⟨makeTemporary_unended, read_unended,
    rewriting_ends_last_line (by decide) whole_unended (by decide) read_unended⟩

end BundleManifest.Manifest
