/-
# BundleManifest.Proofs.Manifest.Naming — one line of the basic file and the files that it names

What files hold matters to a manifest through the rules only: with the same rules, file systems that are the
same when they are emptied have the same walks, the same paths to skip, and manifests can be written to the
same places. So a basic file of one line is compared with an empty one. It takes the files from the manifest
whose name is what the line is read as (`generate_with_name`), and these are the files with the name that it
spells only if that is well-formed.
-/
import BundleManifest.Proofs.Manifest.Repetition
import BundleManifest.Proofs.Manifest.RoundTrip
import BundleManifest.Proofs.Manifest.Stages
import BundleManifest.Proofs.RuleSet.Naming
import BundleManifest.Proofs.Walk.Contents
import BundleManifest.Proofs.Walk.Cycles
import BundleManifest.Proofs.Walk.NormalForm

namespace BundleManifest

/-! ## What a file of one line excludes -/

/-- A basic file of one line excludes what the line is read as, and nothing else. -/
theorem RuleSet.excludes_parse_oneLine {name : Bytes} (h : Listable name) (ending : Option LineBreak)
    (lines : List Text) (c : Candidate) :
    (parse (linesOf (oneLine name ending)) lines).excludes c
      = (decide (¬ IsCutOff name ending ∧ c.name = Utf8.decodeLossy name) ||
        (parse [] lines).excludes c) := by
  rw [Bool.eq_iff_iff, Bool.or_eq_true, decide_eq_true_eq, excludes_parse_iff, excludes_parse_iff,
    excludes_oneLine_iff h]
  simp

namespace Manifest

/-! ## Stages that do not depend on what files hold -/

section
variable {fs gs : FileSystem} (hsame : gs.emptied = fs.emptied)
include hsame

theorem stat_of_emptied (path : Text) : gs.stat path = fs.stat path := by
  rw [← gs.stat_emptied, hsame, fs.stat_emptied]

theorem probe_of_emptied (path : Text) : gs.probe path = fs.probe path := by
  rw [← gs.probe_emptied, hsame, fs.probe_emptied]

theorem skipped_of_emptied (options : Options) (root : Path) :
    skipped gs options root = skipped fs options root := by
  have hresolved (p : Path) : gs.resolved p = fs.resolved p := by
    rw [← gs.resolved_emptied, hsame, fs.resolved_emptied]
  unfold skipped pathBelow
  simp only [hresolved]

theorem walked_of_emptied (token : CancellationToken) (options : Options) (root : Path) :
    walked gs token options root = walked fs token options root := by
  have hworld : World.emptied ⟨gs, token⟩ = World.emptied ⟨fs, token⟩ :=
    congrArg (World.mk · token) hsame
  unfold walked
  rw [← Walk.Run.files_emptied, Walk.traverse_emptied, hworld, ← Walk.traverse_emptied,
    Walk.Run.files_emptied]

end

/-! ## Writing does not depend on what files hold -/

theorem makeFirst_emptied (fs : FileSystem) (directory : Path) (name : Text) (numbers : List Nat) :
    (makeFirst fs directory name numbers).map (Prod.map FileSystem.emptied id)
      = makeFirst fs.emptied directory name numbers := by
  induction numbers with
  | nil => rfl
  | cons n numbers ih =>
    unfold makeFirst
    extract_lets path
    have hmake : (fs.make path fun _ => .regular []).map FileSystem.emptied
        = fs.emptied.make path fun _ => .regular [] := fs.make_emptied path fun _ => .regular []
    rw [← hmake]
    cases fs.make path fun _ => .regular [] with
    | ok made => rfl
    | error e =>
      cases e with
      | fault fault => cases fault <;> first | rfl | exact ih
      | embeddedNull => rfl
      | unencodable u => rfl

theorem makeTemporary_emptied (fs : FileSystem) (path : Path) :
    (makeTemporary fs path).map (Prod.map FileSystem.emptied id) = makeTemporary fs.emptied path := by
  unfold makeTemporary
  cases Utf8.encode path.parent.text with
  | error u => rfl
  | ok bytes =>
    rw [fs.length_nodes_emptied]
    dsimp only
    split
    · rfl
    · exact makeFirst_emptied fs (fs.absolute path.parent) path.name _

/-- What is put into the temporary file makes no difference but in that file. -/
theorem publish_emptied (fs : FileSystem) (temporary : Text) (path : Path) {files : List Text}
    {bytes : Bytes} (hbytes : Utf8.encode (text files) = .ok bytes) :
    (publish fs temporary path files).map FileSystem.emptied
      = (fs.emptied.write temporary []).bind fun filled => filled.rename temporary path.text := by
  unfold publish
  rw [hbytes, ← fs.write_emptied temporary bytes]
  dsimp only
  cases fs.write temporary bytes with
  | error e => rfl
  | ok filled => exact filled.rename_emptied temporary path.text

/-- Where one manifest can be written, another can be, whatever the files hold. -/
theorem write_of_emptied {fs gs : FileSystem} (hsame : gs.emptied = fs.emptied) {path p : Path}
    {files others : List Text} (hfiles : ∃ bytes, Utf8.encode (text files) = .ok bytes)
    (hothers : ∃ bytes, Utf8.encode (text others) = .ok bytes)
    (h : (write fs path files).result = .ok p) : (write gs path others).result = .ok path := by
  obtain ⟨bytes, hbytes⟩ := hfiles
  obtain ⟨more, hmore⟩ := hothers
  obtain ⟨-, made, temporary, hmade, hpublish⟩ := stages_of_write h
  have hmade' := makeTemporary_emptied gs path
  rw [hsame, ← makeTemporary_emptied, hmade] at hmade'
  cases hfound : makeTemporary gs path with
  | error e =>
    rw [hfound] at hmade'
    cases hmade'
  | ok found =>
    obtain ⟨made', temporary'⟩ := found
    rw [hfound] at hmade'
    obtain ⟨hmadeSame, htemporary⟩ := Prod.mk.inj (Except.ok.inj hmade')
    obtain rfl : temporary' = temporary := htemporary
    have hpublish' := publish_emptied made' temporary' path hmore
    rw [hmadeSame, ← publish_emptied made temporary' path hbytes, hpublish] at hpublish'
    cases hwritten : publish made' temporary' path others with
    | error e =>
      rw [hwritten] at hpublish'
      cases hpublish'
    | ok written => exact (write_of_stages hfound hwritten).1

/-! ## Walked files have names -/

section
variable {fs : FileSystem} (hfs : fs.Sound) {token : CancellationToken}
  (htoken : token.isCancelled = false) (options : Options) {root : Path} {path : Text}
  (h : path ∈ walked fs token options root)
include hfs htoken h

/-- The base name of a file that a walk hands out is the text of some bytes. -/
theorem exists_baseName_of_walked : ∃ bytes, path.baseName = Utf8.decode bytes := by
  obtain ⟨d, names, -, rfl, htrail⟩ := Walk.exists_trail hfs htoken _ root h
  obtain ⟨above, last, rfl⟩ := (List.eq_nil_or_concat' names).resolve_left htrail.ne_nil
  refine ⟨last, ?_⟩
  unfold Text.baseName
  rw [Walk.split_relativePath htrail.ne_nil (htrail.legal hfs), List.map_append]
  exact List.getLastD_concat ..

theorem exists_encode_of_walked : ∃ bytes, Utf8.encode path = .ok bytes := by
  obtain ⟨d, names, -, rfl, -⟩ := Walk.exists_trail hfs htoken _ root h
  rw [relativePath_eq_decode]
  exact ⟨_, Utf8.encode_decode _⟩

end

/-- What is selected can be written. -/
theorem exists_encode_of_select {fs : FileSystem} (hfs : fs.Sound) {token : CancellationToken}
    {options : Options} {root : Path} {d : Inode} (hroot : fs.stat root.text = .ok d) {rules : RuleSet}
    {skip kept : List Text} (h : (select fs token options root rules skip).result = .ok kept) :
    ∃ bytes, Utf8.encode (text kept) = .ok bytes := by
  obtain ⟨htoken, -, rfl⟩ := selected_eq hfs hroot h
  rw [exists_encode_text_iff]
  intro path hpath
  exact exists_encode_of_walked hfs htoken options (List.mem_filter.mp hpath).1

/-- A manifest is what the lines of the rule files select, if it can be written. -/
theorem generate_eq_ok_iff_select {fs : FileSystem} (hfs : fs.Sound) {token : CancellationToken}
    {options : Options} {root : Path} {files : List Text} :
    (generate fs token options root).result = .ok files ↔
      fs.probe root.text = .ok (some .directory) ∧
        ∃ skip, skipped fs options root = .ok skip ∧
          (select fs token options root
            (.parse (ruleLines fs (root.child RuleSet.basicFile)) (patternLines fs options root))
            skip).result = .ok files ∧
          ∀ output, options.output = some output → ∃ path, (write fs output files).result = .ok path := by
  rw [generate_eq_ok_iff]
  constructor
  · rintro ⟨hprobe, loading, skip, kept, hload, hskip, hselect, rfl, hwrite⟩
    obtain ⟨d, hroot⟩ := stat_of_probe hprobe
    rw [eraseDups_of_nodup (nodup_of_select hfs hroot hselect)] at hwrite ⊢
    rw [rules_of_load hload] at hselect
    exact ⟨hprobe, skip, hskip, hselect, hwrite⟩
  · rintro ⟨hprobe, skip, hskip, hselect, hwrite⟩
    obtain ⟨d, hroot⟩ := stat_of_probe hprobe
    obtain ⟨loading, hload⟩ := RuleSet.exists_load hroot options.patterns
    rw [← rules_of_load hload] at hselect
    exact ⟨hprobe, loading, skip, files, hload, hskip, hselect,
      (eraseDups_of_nodup (nodup_of_select hfs hroot hselect)).symm, hwrite⟩

/-! ## One line and no line -/

section
variable {fs bare : FileSystem} (hfs : fs.Sound) (hbare : bare.Sound)
  (hsame : bare.emptied = fs.emptied) {token : CancellationToken} {options : Options} {root : Path}
  {name others : Bytes} (hname : RuleSet.Listable name) (ending : Option LineBreak)
  (hothers : Utf8.decode others = Utf8.decodeLossy name)
include hfs hbare hsame hname hothers

/-- With a line, what is selected without it loses the files that the line names. -/
theorem select_oneLine_iff {d : Inode} (hroot : fs.stat root.text = .ok d) {lines skip kept : List Text} :
    (select fs token options root
        (.parse (RuleSet.linesOf (RuleSet.oneLine name ending)) lines) skip).result = .ok kept ↔
      ∃ all, (select bare token options root (.parse [] lines) skip).result = .ok all ∧
        kept = all.filter fun path =>
          RuleSet.IsCutOff name ending ∨ Utf8.encode path.baseName ≠ .ok others := by
  have hroot' : bare.stat root.text = .ok d := (stat_of_emptied hsame _).trans hroot
  have hfilter (htoken : token.isCancelled = false) :
      (walked fs token options root).filter (fun path =>
        !Filter.isDropped (.parse (RuleSet.linesOf (RuleSet.oneLine name ending)) lines) skip
          (Candidate.under path) && Filter.isRepresentable path)
        = ((walked bare token options root).filter fun path =>
          !Filter.isDropped (.parse [] lines) skip (Candidate.under path) &&
            Filter.isRepresentable path).filter fun path =>
              RuleSet.IsCutOff name ending ∨ Utf8.encode path.baseName ≠ .ok others := by
    rw [walked_of_emptied hsame, List.filter_filter]
    refine List.filter_congr fun path hpath => ?_
    have hnamed : (Candidate.under path).name = Utf8.decodeLossy name ↔
        Utf8.encode path.baseName = .ok others := by
      obtain ⟨bytes, hbytes⟩ := exists_baseName_of_walked hfs htoken options hpath
      show path.baseName = _ ↔ _
      rw [hbytes, Utf8.encode_decode, ← hothers, Utf8.decode_inj]
      exact ⟨congrArg Except.ok, Except.ok.inj⟩
    have hruled : decide (¬ RuleSet.IsCutOff name ending ∧
          (Candidate.under path).name = Utf8.decodeLossy name)
        = decide (¬ RuleSet.IsCutOff name ending ∧ Utf8.encode path.baseName = .ok others) :=
      decide_eq_decide.mpr (and_congr_right fun _ => hnamed)
    unfold Filter.isDropped
    rw [RuleSet.excludes_parse_oneLine hname, hruled]
    by_cases hcut : RuleSet.IsCutOff name ending
    · simp [hcut]
    · by_cases hpath : Utf8.encode path.baseName = .ok others
      · simp [hcut, hpath]
      · simp [hcut, hpath]
  constructor
  · intro h
    obtain ⟨htoken, hsize, rfl⟩ := selected_eq hfs hroot h
    exact ⟨_, select_result hbare htoken options (FileSystem.askable_of_stat hroot') _ skip hsize,
      hfilter htoken⟩
  · rintro ⟨all, hall, rfl⟩
    obtain ⟨htoken, hsize, rfl⟩ := selected_eq hbare hroot' hall
    rw [← hfilter htoken]
    exact select_result hfs htoken options (FileSystem.askable_of_stat hroot) _ skip hsize

end

/-- A basic file of one line takes files from the manifest: those with the name that the line is read as.
That is the name that it spells if this is well-formed, and otherwise one with a replacement character in
place of each ill-formed piece. The lines of the pattern file are held fixed, as a link can make both rule
files one. A file that is nothing but the beginning of a byte order mark takes nothing. -/
theorem generate_with_name {fs : FileSystem} (hfs : fs.Sound) (hnumbers : fs.numbers.Nodup)
    {name : Bytes} (hname : RuleSet.Listable name) {ending : Option LineBreak} {root : Path}
    (hread : fs.read (root.child RuleSet.basicFile).text = .ok (RuleSet.oneLine name ending)) :
    ∃ bare others, fs.write (root.child RuleSet.basicFile).text [] = .ok bare ∧
      Utf8.encode (Utf8.decodeLossy name) = .ok others ∧
      (others = name ↔ ∃ t, Utf8.decodeStrict name = .ok t) ∧
      ∀ token options files,
        (generate fs token options root).result = .ok files ↔
          ∃ all, (generate bare token
              { options with patterns := some (patternLines fs options root) } root).result = .ok all ∧
            files = all.filter fun path =>
              RuleSet.IsCutOff name ending ∨ Utf8.encode path.baseName ≠ .ok others := by
  obtain ⟨others, hothers, hdecode, hwell⟩ := Utf8.exists_encode_decodeLossy name
  have hcontent : RuleSet.oneLine name ending ≠ [] := fun h =>
    hname.legal.ne_nil (List.append_eq_nil_iff.mp h).1
  obtain ⟨bare, hwrite, hsame, hempty⟩ := FileSystem.exists_write_of_read hnumbers hcontent hread
  refine ⟨bare, others, hwrite, hothers, hwell, ?_⟩
  intro token options files
  have hbare : bare.Sound := FileSystem.sound_write hfs hwrite
  have hlines : ruleLines fs (root.child RuleSet.basicFile)
      = RuleSet.linesOf (RuleSet.oneLine name ending) := by
    unfold ruleLines
    rw [hread]
  have hnone : ruleLines bare (root.child RuleSet.basicFile) = [] := by
    unfold ruleLines
    rw [hempty]
    exact RuleSet.linesOf_nil
  have hskipped : skipped bare { options with patterns := some (patternLines fs options root) } root
      = skipped fs options root := skipped_of_emptied hsame ..
  rw [generate_eq_ok_iff_select hfs, hlines]
  constructor
  · rintro ⟨hprobe, skip, hskip, hselect, hwritten⟩
    obtain ⟨d, hroot⟩ := stat_of_probe hprobe
    have hroot' : bare.stat root.text = .ok d := (stat_of_emptied hsame _).trans hroot
    obtain ⟨all, hall, rfl⟩ := (select_oneLine_iff hfs hbare hsame hname ending hdecode hroot).mp hselect
    refine ⟨all, (generate_eq_ok_iff_select hbare).mpr ⟨?_, skip, hskipped.trans hskip, ?_, ?_⟩, rfl⟩
    · exact (probe_of_emptied hsame _).trans hprobe
    · rw [hnone]
      exact hall
    · intro output hout
      obtain ⟨p, hp⟩ := hwritten output hout
      exact ⟨_, write_of_emptied hsame (exists_encode_of_select hfs hroot hselect)
        (exists_encode_of_select hbare hroot' hall) hp⟩
  · rintro ⟨all, h, rfl⟩
    obtain ⟨hprobe, skip, hskip, hall, hwritten⟩ := (generate_eq_ok_iff_select hbare).mp h
    obtain ⟨d, hroot'⟩ := stat_of_probe hprobe
    have hroot : fs.stat root.text = .ok d := (stat_of_emptied hsame _).symm.trans hroot'
    rw [hnone] at hall
    have hselect := (select_oneLine_iff hfs hbare hsame hname ending hdecode hroot).mpr ⟨all, hall, rfl⟩
    refine ⟨(probe_of_emptied hsame _).symm.trans hprobe, skip, hskipped.symm.trans hskip, hselect, ?_⟩
    intro output hout
    obtain ⟨p, hp⟩ := hwritten output hout
    exact ⟨_, write_of_emptied hsame.symm (exists_encode_of_select hbare hroot' hall)
      (exists_encode_of_select hfs hroot hselect) hp⟩

/-- A file `a`, another one in a directory, and one that is not named so. The rule is the name. -/
def named : FileSystem :=
  FileSystem.empty.applyAll [.write "a" [], .makeDirectory "d", .write "d/a" [], .write "d/e" [],
    .write ".rscignore" [0x61, 0x0A]]

theorem listable_named : RuleSet.Listable [0x61] := by
  have hdecode : Utf8.decode [0x61] = ("a" : Text) := Utf8.decode_of_encode (by decide) rfl
  refine ⟨by decide, ?_, ?_, ?_, ?_⟩
  all_goals rw [hdecode]; decide

theorem generate_named :
    (generate named {} {} ⟨.here, []⟩).result = .ok [(".rscignore" : Text), ("d/e" : Text)] := by
  cbv

theorem generate_with_name_named :
    named.Sound ∧ named.numbers.Nodup ∧ RuleSet.Listable [0x61] ∧
    named.read (Path.child ⟨.here, []⟩ RuleSet.basicFile).text
      = .ok (RuleSet.oneLine [0x61] (some .lineFeed)) ∧
    ∃ bare others, named.write (Path.child ⟨.here, []⟩ RuleSet.basicFile).text [] = .ok bare ∧
      (others = [0x61] ↔ ∃ t, Utf8.decodeStrict [0x61] = .ok t) ∧
      ∃ all, (generate bare {} { patterns := some [] } ⟨.here, []⟩).result = .ok all ∧
        [(".rscignore" : Text), ("d/e" : Text)] = all.filter fun path =>
          RuleSet.IsCutOff [0x61] (some .lineFeed) ∨ Utf8.encode path.baseName ≠ .ok others := by
  have hfs : named.Sound := by decide
  have hnumbers : named.numbers.Nodup := by decide
  have hread : named.read (Path.child ⟨.here, []⟩ RuleSet.basicFile).text
      = .ok (RuleSet.oneLine [0x61] (some .lineFeed)) := by decide
  obtain ⟨bare, others, hwrite, -, hwell, hiff⟩ :=
    generate_with_name hfs hnumbers listable_named hread
  exact ⟨hfs, hnumbers, listable_named, hread, bare, others, hwrite, hwell,
    (hiff {} {} _).mp generate_named⟩

/-- A file whose name is not well-formed, and that name in the rule file. -/
def foreign : FileSystem :=
  FileSystem.empty.applyAll [.write [Utf8.escaped 0xE9] [], .write ".rscignore" [0xE9]]

/-- The same with an empty rule file. -/
def foreignBare : FileSystem :=
  FileSystem.empty.applyAll [.write [Utf8.escaped 0xE9] [], .write ".rscignore" []]

theorem listable_foreign : RuleSet.Listable [0xE9] := by
  have hdecode : Utf8.decode [0xE9] = [Utf8.escaped 0xE9] := by cbv
  refine ⟨by decide, ?_, ?_, ?_, ?_⟩
  all_goals rw [hdecode]; decide

theorem generate_foreign :
    (generate foreign {} {} ⟨.here, []⟩).result = .ok [(".rscignore" : Text), [Utf8.escaped 0xE9]] ∧
    (generate foreignBare {} {} ⟨.here, []⟩).result
      = .ok [(".rscignore" : Text), [Utf8.escaped 0xE9]] := by
  constructor
  · cbv
  · cbv

/-- A file is kept whose name is a line of the rule file, byte by byte. -/
theorem not_every_name_is_taken :
    ¬ ∀ (fs bare : FileSystem) (name : Bytes) (files all : List Text),
      fs.Sound → RuleSet.Listable name →
      fs.read (Path.child ⟨.here, []⟩ RuleSet.basicFile).text = .ok name →
      fs.write (Path.child ⟨.here, []⟩ RuleSet.basicFile).text [] = .ok bare →
      (generate fs {} {} ⟨.here, []⟩).result = .ok files →
      (generate bare {} {} ⟨.here, []⟩).result = .ok all →
      files = all.filter fun path => Utf8.encode path.baseName ≠ .ok name := by
  intro h
  have hfiles := h foreign foreignBare [0xE9] _ _ (by decide) listable_foreign (by decide) (by decide)
    generate_foreign.1 generate_foreign.2
  exact absurd hfiles (by decide)

end Manifest

end BundleManifest
