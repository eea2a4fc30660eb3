/-
# BundleManifest.Proofs.Manifest.Writing — a manifest comes into its place

Writing a manifest makes a temporary file, fills it and renames it. `published_of_write` says what all
of that amounts to: when it succeeds, the text of the manifest is published where its path ends, and
nothing else has changed; hence the manifest can be read back (`read_of_write`). A manifest that has
been written can be written again, whatever it says then (`exists_write_again`).
-/
import BundleManifest.Manifest.File
import BundleManifest.Proofs.FileSystem.Replacement

namespace BundleManifest.Manifest

open FileSystem

/-! ## Temporary names -/

/-- What is no point, no digit and no letter of the ending comes into a temporary name with the name of
the manifest. -/
theorem mem_of_mem_temporaryName {c : CodePoint} (hdot : c ∉ ("." : Text))
    (hdigit : ∀ d : Char, d.isDigit = true → c ≠ CodePoint.ofChar d) (hend : c ∉ (".tmp" : Text))
    {name : Text} {n : Nat} (h : c ∈ temporaryName name n) : c ∈ name := by
  have hdigits : c ∉ Text.ofNat n := by
    intro hmem
    obtain ⟨d, hd, rfl⟩ := List.mem_map.mp hmem
    exact hdigit d (Nat.isDigit_of_mem_toDigits (by decide) (by decide) hd) rfl
  unfold temporaryName at h
  simp only [List.mem_append, List.mem_replicate] at h
  rcases h with (((((h | h) | h) | ⟨-, h⟩) | h) | h)
  · exact absurd h hdot
  · exact h
  · exact absurd h hdot
  · exact absurd h (hdigit '0' (by decide))
  · exact absurd h hdigits
  · exact absurd h hend

theorem slash_not_mem_temporaryName {name : Text} (h : CodePoint.ofChar '/' ∉ name) (n : Nat) :
    CodePoint.ofChar '/' ∉ temporaryName name n := by
  refine fun hmem => h (mem_of_mem_temporaryName (by decide) (fun d hd heq => ?_) (by decide) hmem)
  -- no digit is a slash
  obtain rfl : '/' = d := Char.toNat_inj.mp (Fin.mk.inj heq)
  cases hd

theorem zero_mem_of_temporaryName {name : Text} {n : Nat}
    (h : (0 : CodePoint) ∈ temporaryName name n) : (0 : CodePoint) ∈ name := by
  refine mem_of_mem_temporaryName (by decide) (fun d hd heq => ?_) (by decide) h
  -- no digit is the character zero
  obtain rfl : Char.ofNat 0 = d := Char.toNat_inj.mp (Fin.mk.inj heq)
  cases hd

theorem temporaryName_ne_nil (name : Text) (n : Nat) : temporaryName name n ≠ [] := by
  unfold temporaryName
  simp [Text.ofString]

/-- A temporary name is longer than the name of the manifest. -/
theorem length_lt_of_temporaryName {name : Text} {n : Nat} {bytes longer : Bytes}
    (hname : Utf8.encode name = .ok bytes)
    (h : Utf8.encode (temporaryName name n) = .ok longer) : bytes.length < longer.length := by
  unfold temporaryName at h
  simp only [List.append_assoc] at h
  obtain ⟨first, rest, hfirst, hrest, rfl⟩ := Utf8.encode_append_iff.mp h
  obtain ⟨second, others, hsecond, -, rfl⟩ := Utf8.encode_append_iff.mp hrest
  have hdot := Utf8.length_le_of_encode hfirst
  cases hname.symm.trans hsecond
  simp only [List.length_append]
  have hone : (Text.ofString ".").length = 1 := rfl
  omega

/-! ## The temporary file -/

/-- An empty file has been made where a path ends in a free name. -/
structure Made (fs made : FileSystem) (temporary : Text) (e : Inode) (old : Bytes) : Prop where
  ends : fs.EndsAt temporary e old
  lacks : fs.Lacks e old
  legal : LegalName old
  eq : made = fs.addEntry e old (.regular [])

/-- The file is made under one of the temporary names. -/
theorem make_of_makeFirst {fs made : FileSystem} {directory : Path} {name temporary : Text}
    {numbers : List Nat} (h : makeFirst fs directory name numbers = .ok (made, temporary)) :
    ∃ n, temporary = (directory.child (temporaryName name n)).text ∧
      fs.make temporary (fun _ => .regular []) = .ok made := by
  induction numbers with
  | nil => cases h
  | cons n others ih =>
    simp only [makeFirst] at h
    split at h
    · next found hmake =>
      cases h
      exact ⟨n, rfl, hmake⟩
    · exact ih h
    · cases h

/-- The file that is made has one of the temporary names. -/
theorem made_of_makeFirst {fs made : FileSystem} (hfs : fs.Sound) {directory : Path}
    {name temporary : Text} (hname : CodePoint.ofChar '/' ∉ name) {numbers : List Nat}
    (h : makeFirst fs directory name numbers = .ok (made, temporary)) :
    ∃ n e old, Utf8.encode (temporaryName name n) = .ok old ∧ Made fs made temporary e old := by
  obtain ⟨n, rfl, hmake⟩ := make_of_makeFirst h
  obtain ⟨e, old, hvacancy, rfl⟩ := make_eq_ok_iff.mp hmake
  obtain ⟨hends, hencode⟩ := endsAt_of_vacancy (temporaryName_ne_nil name n)
    (slash_not_mem_temporaryName hname n) hvacancy
  obtain ⟨hlegal, hlacks, -⟩ := locate_vacancy hfs hvacancy
  exact ⟨n, e, old, hencode, hends, hlacks, hlegal, rfl⟩

theorem makeFirst_of_makeTemporary {fs made : FileSystem} {path : Path} {temporary : Text}
    (h : makeTemporary fs path = .ok (made, temporary)) :
    makeFirst fs (fs.absolute path.parent) path.name (List.range (fs.nodes.length + 1))
      = .ok (made, temporary) := by
  unfold makeTemporary at h
  split at h
  · cases h
  split at h
  · cases h
  · exact h

namespace Made

variable {fs made written : FileSystem} {temporary : Text} {e : Inode} {old : Bytes}
  (hfs : fs.Sound) (hwhole : fs.Whole) (h : Made fs made temporary e old)
include h

theorem published : fs.Published made e old fs.fresh [] := by
  rw [h.eq]
  exact published_addEntry h.ends.kind h.lacks []

include hfs in
theorem sound : made.Sound := by
  rw [h.eq]
  exact sound_addEntry hfs h.legal h.lacks trivial

include hfs hwhole

/-- Writing to the temporary file fills it. -/
theorem write (bytes : Bytes) :
    made.write temporary bytes = .ok (made.setNode fs.fresh (.regular bytes)) := by
  have hpublished := h.published
  have hends : made.EndsAt temporary e old :=
    (hpublished.endsAt_iff hwhole fun j hholds => absurd hholds h.lacks.not_holds).mpr h.ends
  have hlocate : made.locate true temporary = .ok (.node fs.fresh) :=
    hends.locate_of_holds (h.sound hfs) hpublished.holds hpublished.file
      (Or.inr (by simp [Node.kind]))
  unfold FileSystem.write
  simp only [hlocate, bind, Except.bind, hpublished.file]
  rfl

variable {path : Path} {files : List Text}

/-- The text of the manifest is published where its path ends. -/
theorem published_of_publish (hpublish : publish made temporary path files = .ok written) :
    ∃ d name bytes, Utf8.encode (text files) = .ok bytes ∧ fs.EndsAt path.text d name ∧
      fs.Published written d name fs.fresh bytes ∧ written.Sound := by
  unfold publish at hpublish
  cases hbytes : Utf8.encode (text files) with
  | error u =>
    rw [hbytes] at hpublish
    cases hpublish
  | ok bytes =>
    simp only [hbytes, h.write hfs hwhole, bind, Except.bind] at hpublish
    have hfilled := h.published.setNode bytes
    have hsound : (made.setNode fs.fresh (.regular bytes)).Sound :=
      sound_setNode (h.sound hfs) trivial
    obtain ⟨d, name, hends, hwritten⟩ :=
      hfilled.rename hfs hwhole hsound h.lacks h.ends hpublish
    exact ⟨d, name, bytes, rfl, hends, hwritten, sound_rename hsound hpublish⟩

/-- A text is published where the path ends in a name that stands for no directory. -/
theorem exists_publish {bytes : Bytes} (hbytes : Utf8.encode (text files) = .ok bytes) {d : Inode}
    {name : Bytes} (hends : fs.EndsAt path.text d name) (hlength : name.length ≤ Route.nameLimit)
    (hname : ∀ j, fs.Holds d name j → fs.kind? j ≠ some .directory) :
    ∃ written, publish made temporary path files = .ok written := by
  have hfilled := h.published.setNode bytes
  have hsound : (made.setNode fs.fresh (.regular bytes)).Sound :=
    sound_setNode (h.sound hfs) trivial
  obtain ⟨written, hrename⟩ :=
    hfilled.exists_rename hwhole hsound h.lacks h.ends hends hlength hname
  refine ⟨written, ?_⟩
  unfold publish
  simp only [hbytes, h.write hfs hwhole, bind, Except.bind, hrename]

end Made

/-! ## Writing -/

section
variable {fs : FileSystem} (hfs : fs.Sound) (hwhole : fs.Whole) {path : Path} (hplain : path.Plain)
  {files : List Text}

/-- A manifest that is written goes through both stages. -/
theorem stages_of_write {p : Path} (h : (write fs path files).result = .ok p) :
    p = path ∧ ∃ made temporary, makeTemporary fs path = .ok (made, temporary) ∧
      publish made temporary path files = .ok (write fs path files).files := by
  unfold write at h ⊢
  extract_lets failed at h
  cases hmade : makeTemporary fs path with
  | error fault =>
    rw [hmade] at h
    cases h
  | ok found =>
    obtain ⟨made, temporary⟩ := found
    simp only [hmade] at h ⊢
    cases hpublish : publish made temporary path files with
    | error fault =>
      rw [hpublish] at h
      cases h
    | ok written =>
      rw [hpublish] at h
      cases h
      exact ⟨rfl, made, temporary, rfl, hpublish⟩

theorem write_of_stages {made written : FileSystem} {temporary : Text}
    (hmade : makeTemporary fs path = .ok (made, temporary))
    (hpublish : publish made temporary path files = .ok written) :
    (write fs path files).result = .ok path ∧ (write fs path files).files = written := by
  unfold write
  simp only [hmade, hpublish, and_self]

include hfs hwhole hplain

/-- A manifest that is written is published where its path ends. -/
theorem published_of_write {p : Path} (h : (write fs path files).result = .ok p) :
    ∃ d name k bytes, Utf8.encode (text files) = .ok bytes ∧ fs.EndsAt path.text d name ∧
      fs.Published (write fs path files).files d name k bytes ∧ (write fs path files).files.Sound := by
  obtain ⟨-, made, temporary, hmade, hpublish⟩ := stages_of_write h
  obtain ⟨-, e, old, -, htemporary⟩ :=
    made_of_makeFirst hfs hplain.slash_not_mem_name (makeFirst_of_makeTemporary hmade)
  obtain ⟨d, name, bytes, hbytes, hends, hwritten, hsound⟩ :=
    htemporary.published_of_publish hfs hwhole hpublish
  exact ⟨d, name, fs.fresh, bytes, hbytes, hends, hwritten, hsound⟩

/-- A manifest is written where its path ends in a name that stands for no directory, as soon as there
is a temporary file. -/
theorem write_of_endsAt {made : FileSystem} {temporary : Text}
    (hmade : makeTemporary fs path = .ok (made, temporary)) {d : Inode} {name : Bytes}
    (hends : fs.EndsAt path.text d name) (hlength : name.length ≤ Route.nameLimit)
    (hname : ∀ j, fs.Holds d name j → fs.kind? j ≠ some .directory) {bytes : Bytes}
    (hbytes : Utf8.encode (text files) = .ok bytes) : (write fs path files).result = .ok path := by
  obtain ⟨-, e, old, -, htemporary⟩ :=
    made_of_makeFirst hfs hplain.slash_not_mem_name (makeFirst_of_makeTemporary hmade)
  obtain ⟨written, hpublish⟩ := htemporary.exists_publish hfs hwhole hbytes hends hlength hname
  exact (write_of_stages hmade hpublish).1

/-- A manifest that has been written where no link is can be read back. -/
theorem read_of_write (hlink : ∀ i, fs.lstat path.text = .ok i → fs.kind? i ≠ some .link) {p : Path}
    (h : (write fs path files).result = .ok p) :
    ∃ bytes, Utf8.encode (text files) = .ok bytes ∧
      (write fs path files).files.read path.text = .ok bytes := by
  obtain ⟨d, name, k, bytes, hbytes, hends, hwritten, hsound⟩ :=
    published_of_write hfs hwhole hplain h
  exact ⟨bytes, hbytes,
    hwritten.read_of_endsAt hwhole hsound (hends.kind?_ne_link hfs hwhole hlink) hends⟩

end

/-! ## Writing again -/

section
variable {fs gs : FileSystem} {d k : Inode} {name content : Bytes} (hfs : fs.Sound)
  (hwhole : fs.Whole) (h : fs.Published gs d name k content)
  (hleads : ∀ i, fs.Leads d name i → fs.kind? i ≠ some .directory)
include hfs hwhole h hleads

/-- A temporary file that could be made can be made again. -/
theorem exists_makeFirst_again {made : FileSystem} {directory : Path} {part temporary : Text}
    (hpart : CodePoint.ofChar '/' ∉ part) (hname : Utf8.encode part = .ok name)
    {numbers : List Nat} (more : List Nat)
    (hmade : makeFirst fs directory part numbers = .ok (made, temporary)) :
    ∃ again, makeFirst gs directory part (numbers ++ more) = .ok (again, temporary) := by
  induction numbers with
  | nil => cases hmade
  | cons n others ih =>
    simp only [makeFirst] at hmade
    rw [List.cons_append, makeFirst]
    split at hmade
    · next found hmake =>
      cases hmade
      obtain ⟨e, old, hfree, -⟩ := make_eq_ok_iff.mp hmake
      have hencode := (endsAt_of_vacancy (temporaryName_ne_nil part n)
        (slash_not_mem_temporaryName hpart n) hfree).2
      -- the name that has been given away is shorter
      have hother : old ≠ name := by
        rintro rfl
        exact Nat.lt_irrefl _ (length_lt_of_temporaryName hname hencode)
      have hmake' : gs.make (directory.child (temporaryName part n)).text (fun _ => .regular [])
          = .ok (gs.addEntry e old (.regular [])) :=
        make_eq_ok_iff.mpr ⟨e, old, h.locate_vacancy hfs hwhole hleads hfree hother, rfl⟩
      exact ⟨gs.addEntry e old (.regular []), by simp only [hmake']⟩
    · next hmake =>
      simp only [h.make_taken hfs hwhole hleads hmake]
      exact ih hmade
    · cases hmade

/-- Where a manifest has been written another one can be written, unless there was a link to a directory
before. -/
theorem exists_write_behind (hnumbers : fs.numbers.Nodup) (hgs : gs.Sound) {path : Path}
    (hplain : path.Plain) (hends : fs.EndsAt path.text d name) {made : FileSystem}
    {temporary : Text} (hmade : makeTemporary fs path = .ok (made, temporary))
    {files : List Text} {bytes : Bytes} (hbytes : Utf8.encode (text files) = .ok bytes) :
    (write gs path files).result = .ok path := by
  have hwhole' : gs.Whole := h.whole hwhole
  have hpart := hplain.slash_not_mem_name
  -- there are at least as many names to try
  obtain ⟨more, hmore⟩ := Nat.exists_eq_add_of_le (h.length_le hfs hnumbers)
  have hrange : List.range (gs.nodes.length + 1)
      = List.range (fs.nodes.length + 1)
        ++ (List.range more).map (fs.nodes.length + 1 + ·) := by
    rw [← List.range_add, hmore, Nat.add_right_comm]
  obtain ⟨again, hagain⟩ := exists_makeFirst_again hfs hwhole h hleads hpart
    (hends.encode_name hplain) ((List.range more).map (fs.nodes.length + 1 + ·)) (makeFirst_of_makeTemporary hmade)
  rw [← hrange] at hagain
  have hagain' : makeTemporary gs path = .ok (again, temporary) := by
    unfold makeTemporary at hmade ⊢
    split at hmade
    · cases hmade
    split at hmade
    · cases hmade
    · next bytes' hbytes' hzero =>
      simp only [hzero, absolute, h.herePath]
      exact hagain
  have hends' : gs.EndsAt path.text d name := h.endsAt_of_before hfs hwhole hleads hends
  have hname (j : Inode) (hj : gs.Holds d name j) : gs.kind? j ≠ some .directory := by
    obtain rfl := hj.eq hgs h.holds
    simp [h.kind?_file]
  exact write_of_endsAt hgs hwhole' hplain hagain' hends' (h.holds.legal hgs).length_le hname hbytes

omit hleads in
/-- Where a manifest has been written in place of no link another one can be written. -/
theorem exists_write_again (hlink : ∀ j, fs.Holds d name j → fs.kind? j ≠ some .link)
    (hnumbers : fs.numbers.Nodup) (hgs : gs.Sound) {path : Path} (hplain : path.Plain)
    (hends : fs.EndsAt path.text d name) {made : FileSystem} {temporary : Text}
    (hmade : makeTemporary fs path = .ok (made, temporary)) {files : List Text} {bytes : Bytes}
    (hbytes : Utf8.encode (text files) = .ok bytes) : (write gs path files).result = .ok path :=
  exists_write_behind hfs hwhole h (h.leads_no_directory hfs hlink) hnumbers hgs hplain hends hmade
    hbytes

end

end BundleManifest.Manifest
