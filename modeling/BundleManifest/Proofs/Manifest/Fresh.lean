/-
# BundleManifest.Proofs.Manifest.Fresh — a manifest where nothing was before

Where the output names nothing yet, no walk hands out its path. So there is nothing to leave out, and
the manifest lists what is listed without an output (`generate_of_fresh`).
-/
import BundleManifest.Proofs.Manifest.Exclusion
import BundleManifest.Proofs.Manifest.Repetition
import BundleManifest.Proofs.Walk.Cycles
import BundleManifest.Proofs.Walk.NormalForm

namespace BundleManifest

namespace FileSystem.Descends

variable {fs : FileSystem} (hfs : fs.Sound) {d e i : Inode} {names others : List Bytes} {name : Bytes}
include hfs

/-- The first name is one of the directory that the names start from. -/
theorem first (h : fs.Descends d (name :: names) e) :
    ∃ i, fs.Holds d name i ∧ fs.kind? i ≠ some .link ∧ fs.Descends i names e := by
  obtain ⟨hnames, hadvance⟩ := h
  obtain ⟨hself, hup⟩ := hnames name List.mem_cons_self
  obtain ⟨added, hpassage⟩ := (exists_passage_iff_advance hfs).mpr hadvance
  generalize hlinks : 0 = links at hpassage
  cases hpassage with
  | self => exact absurd rfl hself
  | up => exact absurd rfl hup
  | entry hholds hkind hrest =>
    subst hlinks
    exact ⟨_, hholds, hkind, fun other hother => hnames other (List.mem_cons_of_mem _ hother),
      (exists_passage_iff_advance hfs).mp ⟨added, hrest⟩⟩
  | link => exact absurd hlinks (by omega)

omit hfs in
/-- What leads down further leads down from where the first names lead. -/
theorem rest (h : fs.Descends d names e) (hmore : fs.Descends d (names ++ others) i) :
    fs.Descends e others i := by
  obtain ⟨hnames, hadvance⟩ := hmore
  refine ⟨fun name hname => hnames name (List.mem_append_right _ hname), ?_⟩
  rw [← advance_append_of_node h.2]
  exact hadvance

end FileSystem.Descends

namespace Walk

open FileSystem (Descends Holds)

/-- A way that goes down by names that lead down ends in the directory that they lead to. -/
theorem Trail.holds_of_descends {fs : FileSystem} (hfs : fs.Sound) {passed : List Inode} {path : Text}
    {d e : Inode} {names : List Bytes} {name : Bytes}
    (h : Trail fs passed path d (names ++ [name])) (hdown : fs.Descends d names e) :
    ∃ c, fs.Holds e name c := by
  induction names generalizing passed path d with
  | nil =>
    obtain rfl := hdown.eq_of_nil
    cases h with
    | file h => exact ⟨_, h⟩
    | real h _ _ _ => exact ⟨_, h⟩
    | link h _ _ _ _ => exact ⟨_, h⟩
  | cons first names ih =>
    obtain ⟨i, hholds, hkind, hrest⟩ := hdown.first hfs
    cases hnames : names ++ [name] with
    | nil => simp at hnames
    | cons next others =>
      rw [List.cons_append, hnames] at h
      cases h with
      | real h _ _ htrail =>
        cases h.eq hfs hholds
        rw [← hnames] at htrail
        exact ih htrail hrest
      | link h hlink _ _ _ =>
        cases h.eq hfs hholds
        exact absurd hlink hkind

/-- Nothing is handed out under a name that its directory lacks. -/
theorem relativePath_not_mem {fs : FileSystem} (hfs : fs.Sound) {token : CancellationToken}
    (htoken : token.isCancelled = false) (options : Options) {root : Path} {r e : Inode}
    (hroot : fs.stat root.text = .ok r) {names : List Bytes} {name : Bytes}
    (hdown : fs.Descends r names e) (hname : LegalName name) (hlacks : ∀ c, ¬ fs.Holds e name c) :
    relativePath (names ++ [name]) ∉ (traverse options Receiver.passive root ⟨fs, token⟩).files := by
  intro hmem
  obtain ⟨d, others, hstat, heq, htrail⟩ := exists_trail hfs htoken options root hmem
  cases hroot.symm.trans hstat
  have hlegal : ∀ other ∈ names ++ [name], LegalName other := by
    intro other hother
    rcases List.mem_append.mp hother with hother | hother
    · exact hdown.legal hfs other hother
    · exact List.mem_singleton.mp hother ▸ hname
  have hdecoded : (names ++ [name]).map Utf8.decode = others.map Utf8.decode := by
    rw [← split_relativePath (by simp) hlegal, heq,
      split_relativePath htrail.ne_nil (htrail.legal hfs)]
  obtain rfl := Utf8.decode_injective.list_map hdecoded
  obtain ⟨c, hholds⟩ := htrail.holds_of_descends hfs hdown
  exact hlacks c hholds

end Walk

namespace Manifest

open FileSystem

/-- What lies below a directory has the names of the directory in front. -/
theorem exists_names_of_below? {base names : List Bytes} {p : Path}
    (h : (realPath names).below? (realPath base) = some p) :
    ∃ rest, names = base ++ rest ∧ p = ⟨.here, rest.map Utf8.decode⟩ := by
  unfold Path.below? realPath at h
  split at h
  · next hprefix =>
    rw [Bool.and_eq_true, List.isPrefixOf_iff_prefix] at hprefix
    obtain ⟨-, parts, hparts⟩ := hprefix
    obtain ⟨front, rest, rfl, hfront, rfl⟩ := List.map_eq_append_iff.mp hparts.symm
    obtain rfl := Utf8.decode_injective.list_map hfront
    refine ⟨rest, rfl, ?_⟩
    rw [← Option.some.inj h]
    simp
  · cases h

section
variable {fs : FileSystem} (hfs : fs.Sound) (hwhole : fs.Whole) (hplaced : fs.Placed)
  {options : Options} {root output : Path} (hout : options.output = some output) {r e : Inode}
  (hroot : fs.stat root.text = .ok r)
  (hroomy : options.excludeManifest = true → fs.Roomy root.text ∧ fs.Roomy output.text)
  {name : Bytes} (hends : fs.EndsAt output.text e name) (hlacks : ∀ c, ¬ fs.Holds e name c)
include hfs hwhole hplaced hout hroot hroomy hends hlacks

/-- The path that is left out, if there is one, ends in the name of the manifest. -/
theorem exists_names_of_skipped {skip : List Text} (h : skipped fs options root = .ok skip) :
    ∀ own ∈ skip, ∃ names, own = Walk.relativePath (names ++ [name]) ∧ fs.Descends r names e := by
  unfold skipped at h
  simp only [hout] at h
  cases hexclude : options.excludeManifest with
  | false =>
    rw [hexclude] at h
    cases h
    exact fun own hown => absurd hown List.not_mem_nil
  | true =>
    obtain ⟨hrootRoomy, houtRoomy⟩ := hroomy hexclude
    obtain ⟨base, hbase, hbaseDown⟩ := resolved_of_stat hfs hwhole hplaced hrootRoomy hroot
    obtain ⟨above, habove, haboveDown⟩ := resolved_of_endsAt hfs hwhole hplaced houtRoomy hends
      fun j hj => absurd hj (hlacks j)
    rw [hexclude, if_pos rfl] at h
    unfold pathBelow at h
    simp only [habove, hbase] at h
    cases hbelow : (realPath (above ++ [name])).below? (realPath base) with
    | none =>
      rw [hbelow] at h
      cases h
      exact fun own hown => absurd hown List.not_mem_nil
    | some p =>
      rw [hbelow] at h
      cases h
      obtain ⟨rest, hrest, rfl⟩ := exists_names_of_below? hbelow
      intro own hown
      obtain rfl := List.mem_singleton.mp hown
      rcases List.eq_nil_or_concat' rest with rfl | ⟨names, last, rfl⟩
      · -- the root would be the manifest, which is not there yet
        rw [List.append_nil] at hrest
        rw [← hrest] at hbaseDown
        obtain ⟨e', he', hholds, -⟩ := hbaseDown.exists_holds hfs
        obtain rfl : e' = e := by
          have hsame := he'.2.symm.trans haboveDown.2
          cases hsame
          rfl
        exact absurd hholds (hlacks r)
      · rw [← List.append_assoc] at hrest
        obtain ⟨hnames, hlast⟩ := List.append_inj' hrest rfl
        obtain rfl := List.head_eq_of_cons_eq hlast
        rw [hnames] at haboveDown
        refine ⟨names, ?_, hbaseDown.rest haboveDown⟩
        rw [Path.text_of_ne_nil .here (by simp)]
        rfl

/-- Leaving out the path of a manifest that is not there yet leaves out nothing. -/
theorem select_of_fresh (hname : LegalName name) {token : CancellationToken} {rules : RuleSet}
    {skip kept : List Text} (hskip : skipped fs options root = .ok skip)
    (h : (select fs token options root rules skip).result = .ok kept) :
    (select fs token options root rules []).result = .ok kept := by
  obtain ⟨htoken, hsize, rfl⟩ := selected_eq hfs hroot h
  rw [select_result hfs htoken options (askable_of_stat hroot) rules [] hsize]
  refine congrArg Except.ok (List.filter_congr fun path hpath => ?_)
  have hnot : path ∉ skip := by
    intro hmem
    obtain ⟨names, rfl, hdown⟩ :=
      exists_names_of_skipped hfs hwhole hplaced hout hroot hroomy hends hlacks hskip path hmem
    exact Walk.relativePath_not_mem hfs htoken _ hroot hdown hname hlacks hpath
  have hpath : (Candidate.under path).path = path := rfl
  unfold Filter.isDropped
  rw [hpath]
  simp [hnot]

end

/-- Without an output nothing is written. -/
theorem files_of_generate_none {fs : FileSystem} {token : CancellationToken} {options : Options}
    {root : Path} (hout : options.output = none) : (generate fs token options root).files = fs := by
  unfold generate
  split
  · rfl
  · split
    · rfl
    · split
      · rfl
      · dsimp only
        split
        · rfl
        · rw [hout]
  · rfl

/-- Where nothing has the name of the manifest, the list is the one that is made without an output, and
the manifest holds it. -/
theorem generate_of_fresh {fs : FileSystem} (hfs : fs.Sound) (hwhole : fs.Whole)
    (hplaced : fs.Placed) {token : CancellationToken} {options : Options} {root : Path}
    {target : Text} (hout : options.output = some (Path.ofText target))
    (hroomy : options.excludeManifest = true →
      fs.Roomy root.text ∧ fs.Roomy (Path.ofText target).text)
    (hfresh : ∀ i, fs.lstat (Path.ofText target).text ≠ .ok i) {files : List Text}
    (h : (generate fs token options root).result = .ok files) :
    (generate fs token { options with output := none } root).result = .ok files ∧
      Records (generate fs token options root).files (Path.ofText target) files := by
  obtain ⟨hprobe, loading, skip, kept, hload, hskip, hselect, rfl, hwrite⟩ :=
    generate_eq_ok_iff.mp h
  obtain ⟨p, hp⟩ := hwrite _ hout
  obtain ⟨r, hroot⟩ := stat_of_probe hprobe
  obtain ⟨e, name, k, bytes, hbytes, hends, hpublished, hsound⟩ :=
    published_of_write hfs hwhole (Path.plain_ofText target) hp
  have hlacks : ∀ c, ¬ fs.Holds e name c := by
    intro c hholds
    obtain ⟨node, hnode⟩ := Option.ne_none_iff_exists'.mp (hwhole.entry hholds)
    exact hfresh c (hends.find_of_holds hfs hholds hnode (Or.inl rfl))
  constructor
  · have hselect' := select_of_fresh hfs hwhole hplaced hout hroot hroomy hends hlacks
      (hpublished.holds.legal hsound) hskip hselect
    exact generate_eq_ok_iff.mpr ⟨hprobe, loading, [], kept, hload, rfl, hselect', rfl,
      fun _ hnone => by cases hnone⟩
  · rw [files_of_generate hprobe hload hskip hselect hout]
    exact ⟨bytes, hbytes, hpublished.read_of_endsAt hwhole hsound
      (fun j hj => absurd hj (hlacks j)) hends⟩

end Manifest

end BundleManifest
