/-
# BundleManifest.Proofs.Walk.Termination — walks through links come to an end

A walk enters a real directory whether or not it has been there before, so the number of new
directories alone does not bound its depth. What shrinks from level to level is
`room`: following a link uses up a new directory, and any other step leads into a smaller subtree.
Beyond this bound the depth that a walk is given makes no difference (`enter_eq_of_suffices`). The
limit that `traverse` sets is beyond it as well, because every level makes the path longer.
-/
import BundleManifest.Proofs.FileSystem.WellFormed
import BundleManifest.Proofs.Walk.Links

namespace BundleManifest.Walk

/-! ## Depths that suffice -/

/-- The directories that are not among those known. -/
def unknown (fs : FileSystem) (known : List Inode) : Finset Inode :=
  fs.directories.filter (· ∉ known)

/-- How many levels there can be below a directory. -/
noncomputable def room (fs : FileSystem) (d : Inode) (known : List Inode) : Nat :=
  (unknown fs known).card * fs.directories.card + (fs.subtree d).card

/-- A depth that is never used up: there is no room for so many levels, or no path is so long. -/
def Suffices (fs : FileSystem) (depth : Nat) (path : Text) (d : Inode) (known : List Inode) : Prop :=
  Route.lengthLimit < depth + path.length ∨ room fs d known ≤ depth

theorem unknown_subset {fs : FileSystem} {known more : List Inode} (h : known ⊆ more) :
    unknown fs more ⊆ unknown fs known := by
  intro i hi
  obtain ⟨hdir, hnew⟩ := Finset.mem_filter.mp hi
  exact Finset.mem_filter.mpr ⟨hdir, fun hk => hnew (h hk)⟩

theorem card_unknown_lt {fs : FileSystem} {known more : List Inode} (h : known ⊆ more) {i : Inode}
    (hi : fs.kind? i = some .directory) (hnew : i ∉ known) (hmore : i ∈ more) :
    (unknown fs more).card < (unknown fs known).card := by
  refine Finset.card_lt_card (Finset.ssubset_iff_subset_ne.mpr ⟨unknown_subset h, fun heq => ?_⟩)
  have hmem : i ∈ unknown fs known := Finset.mem_filter.mpr ⟨FileSystem.mem_directories.mpr hi, hnew⟩
  rw [← heq] at hmem
  exact (Finset.mem_filter.mp hmem).2 hmore

/-- A depth that suffices for a directory that can be asked for is not zero. -/
theorem Suffices.ne_zero {fs : FileSystem} {path : Text} {d : Inode} {known : List Inode}
    (hstat : fs.stat path = .ok d) (hd : fs.kind? d = some .directory) :
    ¬ Suffices fs 0 path d known := by
  rintro (hlong | hroom)
  · have hlength := Text.length_le_of_fits (FileSystem.fits_of_stat hstat)
    omega
  · have hpos := Finset.card_pos.mpr ⟨d, FileSystem.self_mem_subtree hd⟩
    unfold room at hroom
    omega

/-- A real directory leads into a smaller subtree. -/
theorem room_lt_of_child {fs : FileSystem} (htree : fs.Tree) {d c : Inode} (hc : fs.Child d c)
    {known more : List Inode} (h : known ⊆ more) : room fs c more < room fs d known := by
  have hcard : (unknown fs more).card ≤ (unknown fs known).card :=
    Finset.card_le_card (unknown_subset h)
  have hsubtree := htree.card_subtree_child_lt hc
  have hmul := Nat.mul_le_mul_right fs.directories.card hcard
  unfold room
  omega

/-- Wherever one is, a new directory that is known now makes room for all that lies below it. -/
theorem room_le_of_new {fs : FileSystem} {known more : List Inode} (h : known ⊆ more) {i : Inode}
    (hi : fs.kind? i = some .directory) (hnew : i ∉ known) (hmore : i ∈ more) (c : Inode) :
    room fs c more ≤ (unknown fs known).card * fs.directories.card := by
  have hsubtree := fs.card_subtree_le c
  have hmul : ((unknown fs more).card + 1) * fs.directories.card
      ≤ (unknown fs known).card * fs.directories.card :=
    Nat.mul_le_mul_right fs.directories.card (card_unknown_lt h hi hnew hmore)
  rw [Nat.add_mul, Nat.one_mul] at hmul
  unfold room
  omega

/-- A link leads anywhere, but uses up a new directory. -/
theorem room_lt_of_link {fs : FileSystem} {d c : Inode} (hd : fs.kind? d = some .directory)
    (hc : fs.kind? c = some .directory) {known more : List Inode} (h : known ⊆ more)
    (hnew : c ∉ known) (hmore : c ∈ more) : room fs c more < room fs d known := by
  have hle := room_le_of_new h hc hnew hmore c
  have hpos := Finset.card_pos.mpr ⟨d, FileSystem.self_mem_subtree hd⟩
  unfold room at hle ⊢
  omega

/-! ## Depths beyond the bound -/

section
variable {fs : FileSystem} (hfs : fs.Sound) (htree : fs.Tree)
include hfs htree

/-- One level down, one level less suffices. -/
theorem Suffices.step {options : Options} {depth : Nat} {path : Text} {d i : Inode}
    {entries : List (Bytes × Inode)} (hstat : fs.stat path = .ok d)
    (hentries : fs.entries? d = some entries) {item : Item}
    (hitem : item ∈ itemsOf fs options.followLinks path (fs.listing entries))
    (hdir : item.isDirectory = true) (hi : fs.stat (entryPath path item.name) = .ok i)
    {known seen : List Inode} (hseen : known ⊆ seen) (hnew : item.isLink = true → i ∉ seen)
    (h : Suffices fs (depth + 1) path d known) :
    Suffices fs depth (entryPath path item.name) i (i :: seen) := by
  rcases h with hlong | hroom
  · -- the path of the item is longer
    have hlonger := length_lt_of_mem_itemsOf hfs hentries hitem
    exact Or.inl (by omega)
  · -- there is less room: a smaller subtree, or one directory more that is known
    obtain ⟨hkind, hreal⟩ := entered_item hfs hstat hentries hitem hdir hi
    have hsub : known ⊆ i :: seen := List.subset_cons_of_subset i hseen
    have hlt : room fs i (i :: seen) < room fs d known := by
      cases hlink : item.isLink with
      | false =>
        obtain ⟨name, hholds, -⟩ := hreal hlink
        exact room_lt_of_child htree ⟨⟨name, hholds⟩, hkind⟩ hsub
      | true =>
        exact room_lt_of_link (FileSystem.kind?_of_entries? hentries) hkind hsub
          (fun hk => hnew hlink (hseen hk)) List.mem_cons_self
    exact Or.inr (by omega)

/-- Depths that suffice make no difference. -/
theorem enter_eq_of_suffices (options : Options) {n m : Nat} {path leading : Text} {d : Inode}
    {via : Bool} {s : State} (hs : s.world = ⟨fs, {}⟩) (hstat : fs.stat path = .ok d)
    (hd : fs.kind? d = some .directory) (hn : Suffices fs n path d s.visited)
    (hm : Suffices fs m path d s.visited) :
    enter options Receiver.passive n path leading d via s
      = enter options Receiver.passive m path leading d via s := by
  induction n generalizing m path leading d via s with
  | zero => exact absurd hn (Suffices.ne_zero hstat hd)
  | succ n ih =>
    cases m with
    | zero => exact absurd hm (Suffices.ne_zero hstat hd)
    | succ m =>
      obtain ⟨entries, hentries⟩ := FileSystem.entries?_of_kind? hd
      have hask {item : Item}
          (hitem : item ∈ itemsOf fs options.followLinks path (fs.listing entries)) :
          (entryPath path item.name).Askable :=
        askable_of_mem_itemsOf hfs (FileSystem.askable_of_stat hstat) hentries hitem
      -- what was known when the directory was entered stays known while its items are visited
      have hgo : ∀ item ∈ itemsOf fs options.followLinks path (fs.listing entries), ∀ t : State,
          t.world = ⟨fs, {}⟩ ∧ s.visited ⊆ t.visited →
          (visit Receiver.passive (enter options Receiver.passive n) path leading item t).GoesOn
            fun t => t.world = ⟨fs, {}⟩ ∧ s.visited ⊆ t.visited := by
        rintro item hitem t ⟨ht, hkept⟩
        have hgoes := goesOn_visit_still hfs rfl options n leading (hask hitem) t ht
        have honce := linksOnce_visit hfs rfl options n leading (hask hitem) ht
        exact ⟨hgoes.halt, hgoes.state, List.Subset.trans hkept honce.kept⟩
      have hsame : ∀ item ∈ itemsOf fs options.followLinks path (fs.listing entries), ∀ t : State,
          t.world = ⟨fs, {}⟩ ∧ s.visited ⊆ t.visited →
          visit Receiver.passive (enter options Receiver.passive n) path leading item t
            = visit Receiver.passive (enter options Receiver.passive m) path leading item t := by
        rintro item hitem t ⟨ht, hkept⟩
        refine visit_congr Receiver.passive _ leading fun i hi hdir hnew => ?_
        rw [ht] at hi
        have hkind := (entered_item hfs hstat hentries hitem hdir hi).1
        exact ih (s := { t with visited := i :: t.visited }) ht hi hkind
          (hn.step hfs htree hstat hentries hitem hdir hi hkept hnew)
          (hm.step hfs htree hstat hentries hitem hdir hi hkept hnew)
      rw [enter_of_entries hfs rfl options n hs hstat hentries,
        enter_of_entries hfs rfl options m hs hstat hentries]
      exact opening_andThen_congr _ _ _ _ _
        (Run.each_congr hgo hsame ⟨hs, List.Subset.refl _⟩)

end

/-! ## Walks -/

/-- Before anything is known, all directories are unknown. -/
theorem unknown_nil (fs : FileSystem) : unknown fs [] = fs.directories :=
  Finset.filter_true_of_mem fun _ _ => List.not_mem_nil

theorem card_unknown_root {fs : FileSystem} {d : Inode} (hd : fs.kind? d = some .directory) :
    (unknown fs [d]).card < fs.directories.card := by
  rw [← unknown_nil fs]
  exact card_unknown_lt (List.nil_subset _) hd List.not_mem_nil List.mem_cons_self

/-- A walk has room for at most as many levels as there are pairs of directories. -/
theorem room_root_le {fs : FileSystem} {d : Inode} (hd : fs.kind? d = some .directory) :
    room fs d [d] ≤ fs.directories.card * fs.directories.card := by
  have hle := room_le_of_new (List.nil_subset [d]) hd List.not_mem_nil List.mem_cons_self d
  rwa [unknown_nil] at hle

/-- Different directories other than the root, one for each link that is followed. -/
theorem length_linked_le {fs : FileSystem} {d : Inode} {r : Run} (h : LinksOnce fs [d] r)
    (hd : fs.kind? d = some .directory) : r.linked.length ≤ fs.directories.card - 1 := by
  have hsub : r.linked.toFinset ⊆ unknown fs [d] := by
    intro i hi
    rw [List.mem_toFinset] at hi
    exact Finset.mem_filter.mpr ⟨FileSystem.mem_directories.mpr (h.directory i hi), h.fresh i hi⟩
  have hcard := Finset.card_le_card hsub
  rw [List.toFinset_card_of_nodup h.nodup] at hcard
  have hless := card_unknown_root hd
  omega

/-- What a walk does whose root leads nowhere. -/
theorem traverse_of_stat_error {fs : FileSystem} (options : Options) {root : Path} {e : PathFault}
    (hstat : fs.stat root.text = .error e) :
    (traverse options Receiver.passive root ⟨fs, {}⟩).linked = [] ∧
      (traverse options Receiver.passive root ⟨fs, {}⟩).scans = 0 := by
  unfold traverse
  simp only [hstat]
  cases e with
  | fault fault => exact ⟨rfl, rfl⟩
  | embeddedNull => exact ⟨rfl, rfl⟩
  | unencodable u => exact ⟨rfl, rfl⟩

theorem enter_of_not_directory {fs : FileSystem} (hfs : fs.Sound) (options : Options) (depth : Nat)
    {path leading : Text} {d : Inode} {via : Bool} {s : State} (hs : s.world = ⟨fs, {}⟩)
    (hstat : fs.stat path = .ok d) (hd : fs.kind? d ≠ some .directory) :
    enter options Receiver.passive (depth + 1) path leading d via s
      = Run.note (.walkDirectoryUnreadable path (FileFault.notDirectory.report [path])) s := by
  refine enter_of_entries_none hfs rfl options depth hs hstat ?_
  cases hentries : fs.entries? d with
  | none => rfl
  | some entries => exact absurd (FileSystem.kind?_of_entries? hentries) hd

section
variable {fs : FileSystem} (hfs : fs.Sound) (options : Options) {root : Path} {d : Inode}
  (hstat : fs.stat root.text = .ok d)
include hfs hstat

theorem linksOnce_traverse :
    LinksOnce fs [d] (traverse options Receiver.passive root ⟨fs, {}⟩) := by
  rw [traverse_of_stat options hstat]
  exact linksOnce_enter hfs rfl options rfl hstat (List.Subset.refl _) fun hvia => by cases hvia

/-- What a walk does whose root is no directory. -/
theorem traverse_of_not_directory (hd : fs.kind? d ≠ some .directory) :
    traverse options Receiver.passive root ⟨fs, {}⟩
      = Run.note (.walkDirectoryUnreadable root.text (FileFault.notDirectory.report [root.text]))
        ⟨⟨fs, {}⟩, [d], 0⟩ := by
  rw [traverse_of_stat options hstat]
  exact enter_of_not_directory hfs options Route.lengthLimit rfl hstat hd

theorem length_linked_traverse_le :
    (traverse options Receiver.passive root ⟨fs, {}⟩).linked.length
      ≤ fs.directories.card - 1 := by
  by_cases hd : fs.kind? d = some .directory
  · exact length_linked_le (linksOnce_traverse hfs options hstat) hd
  · rw [traverse_of_not_directory hfs options hstat hd]
    exact Nat.zero_le _

variable (htree : fs.Tree)
include htree

/-- The limit that a walk sets for its depth does what every depth beyond the bound does. -/
theorem enter_eq_traverse {depth : Nat}
    (hdepth : fs.directories.card * fs.directories.card ≤ depth) :
    enter options Receiver.passive depth root.text [] d false ⟨⟨fs, {}⟩, [d], 0⟩
      = traverse options Receiver.passive root ⟨fs, {}⟩ := by
  rw [traverse_of_stat options hstat]
  by_cases hd : fs.kind? d = some .directory
  · refine enter_eq_of_suffices hfs htree options rfl hstat hd ?_ ?_
    · exact Or.inr (Nat.le_trans (room_root_le hd) hdepth)
    · exact Or.inl (length_lt_depthLimit root.text)
  · obtain ⟨e, he⟩ := FileSystem.exists_directory_of_stat hstat
    have hpos : 0 < fs.directories.card :=
      Finset.card_pos.mpr ⟨e, FileSystem.mem_directories.mpr he⟩
    have hsquare := Nat.mul_pos hpos hpos
    obtain ⟨n, rfl⟩ : ∃ n, depth = n + 1 := ⟨depth - 1, by omega⟩
    rw [enter_of_not_directory hfs options n rfl hstat hd]
    exact (enter_of_not_directory hfs options Route.lengthLimit rfl hstat hd).symm

theorem scans_traverse_le :
    (traverse options Receiver.passive root ⟨fs, {}⟩).scans
      ≤ fs.directories.card * fs.directories.card := by
  obtain ⟨e, he⟩ := FileSystem.exists_directory_of_stat hstat
  have hpos : 0 < fs.directories.card :=
    Finset.card_pos.mpr ⟨e, FileSystem.mem_directories.mpr he⟩
  by_cases hd : fs.kind? d = some .directory
  · have hscans : (traverse options Receiver.passive root ⟨fs, {}⟩).scans
        ≤ (fs.subtree d).card + fs.directories.card
          * (traverse options Receiver.passive root ⟨fs, {}⟩).linked.length := by
      rw [traverse_of_stat options hstat]
      exact scans_enter hfs htree options rfl hstat hd
    have hlinked := length_linked_traverse_le hfs options hstat
    calc (traverse options Receiver.passive root ⟨fs, {}⟩).scans
        ≤ fs.directories.card + fs.directories.card * (fs.directories.card - 1) :=
          Nat.le_trans hscans
            (Nat.add_le_add (fs.card_subtree_le d) (Nat.mul_le_mul_left _ hlinked))
      _ = fs.directories.card * (fs.directories.card - 1 + 1) := by
          rw [Nat.mul_add, Nat.mul_one, Nat.add_comm]
      _ = fs.directories.card * fs.directories.card := by rw [Nat.sub_add_cancel hpos]
  · rw [traverse_of_not_directory hfs options hstat hd]
    exact Nat.mul_pos hpos hpos

end

/-- Whatever links there are, a walk comes to an end: no depth from the square of the number of
directories on makes a difference to it. It follows a link to each directory at most once and never
to its root, so it follows fewer links than there are directories, and it lists directories at most
as often as the square of their number says. -/
theorem walk_through_links_bounded {fs : FileSystem} (hfs : fs.Sound) (htree : fs.Tree)
    (options : Options) (root : Path) :
    let run := traverse options Receiver.passive root ⟨fs, {}⟩
    let D := fs.directories.card
    (∀ d depth, fs.stat root.text = .ok d → D * D ≤ depth →
      enter options Receiver.passive depth root.text [] d false ⟨⟨fs, {}⟩, [d], 0⟩ = run) ∧
      run.linked.Nodup ∧ (∀ i ∈ run.linked, fs.kind? i = some .directory) ∧
      (∀ d, fs.stat root.text = .ok d → d ∉ run.linked) ∧
      run.linked.length ≤ D - 1 ∧ run.scans ≤ D * D := by
  intro run D
  cases hstat : fs.stat root.text with
  | error e =>
    obtain ⟨hlinked, hscans⟩ := traverse_of_stat_error options hstat
    simp [run, hlinked, hscans]
  | ok d =>
    have honce : LinksOnce fs [d] run := linksOnce_traverse hfs options hstat
    refine ⟨?_, honce.nodup, honce.directory, ?_, length_linked_traverse_le hfs options hstat,
      scans_traverse_le hfs options hstat htree⟩
    · intro e depth he hdepth
      cases he
      exact enter_eq_traverse hfs options hstat htree hdepth
    · intro e he hmem
      cases he
      exact honce.fresh d hmem List.mem_cons_self

/-- Two directories that link to each other, to themselves and to the one above. -/
def labyrinth : FileSystem :=
  FileSystem.empty.applyAll
    [.makeDirectory "p", .makeDirectory "q", .makeLink "p/to" [0x2E, 0x2E, 0x2F, 0x71],
      .makeLink "q/to" [0x2E, 0x2E, 0x2F, 0x70], .makeLink "p/self" [0x2E],
      .makeLink "q/up" [0x2E, 0x2E], .write "p/f" []]

theorem tree_labyrinth : labyrinth.Tree := FileSystem.tree_made _

theorem walk_through_labyrinth_bounded :
    labyrinth.Sound ∧ labyrinth.Tree ∧
      let run := traverse {} Receiver.passive ⟨.here, []⟩ ⟨labyrinth, {}⟩
      let D := labyrinth.directories.card
      (∀ d depth, labyrinth.stat (Path.text ⟨.here, []⟩) = .ok d → D * D ≤ depth →
        enter {} Receiver.passive depth (Path.text ⟨.here, []⟩) [] d false
          ⟨⟨labyrinth, {}⟩, [d], 0⟩ = run) ∧
        run.linked.Nodup ∧ (∀ i ∈ run.linked, labyrinth.kind? i = some .directory) ∧
        (∀ d, labyrinth.stat (Path.text ⟨.here, []⟩) = .ok d → d ∉ run.linked) ∧
        run.linked.length ≤ D - 1 ∧ run.scans ≤ D * D :=
  ⟨by decide, tree_labyrinth, walk_through_links_bounded (by decide) tree_labyrinth {} ⟨.here, []⟩⟩

set_option maxRecDepth 4000 in
example : (traverse {} Receiver.passive ⟨.here, []⟩ ⟨labyrinth, {}⟩).linked = [2] := by
  cbv

end BundleManifest.Walk
