/-
# BundleManifest.Proofs.FileSystem.Renaming — a file is made, filled and moved

Making a file publishes it under a free name, filling it keeps it published, and giving it another
name publishes it there: `Published.move` says that a file that has been made under one name and
renamed is published under the other one, whatever had that name before. A regular file can always be
renamed to a name that is free or stands for something other than a directory (`exists_rename`).
-/
import BundleManifest.Proofs.FileSystem.Places

namespace BundleManifest.FileSystem

/-! ## Making and filling -/

/-- Making a node needs a free name. -/
theorem make_eq_ok_iff {fs made : FileSystem} {path : Text} {node : Inode → Node} :
    fs.make path node = .ok made ↔
      ∃ d name, fs.locate false path = .ok (.vacancy d name) ∧
        made = fs.addEntry d name (node d) := by
  unfold make
  cases hlocate : fs.locate false path with
  | error e => simp [bind, Except.bind]
  | ok place =>
    cases place with
    | node i => simp [bind, Except.bind, throw, throwThe, MonadExceptOf.throw]
    | vacancy d name =>
      simp only [bind, Except.bind, pure, Except.pure, Except.ok.injEq, Place.vacancy.injEq]
      constructor
      · rintro rfl
        exact ⟨d, name, ⟨rfl, rfl⟩, rfl⟩
      · rintro ⟨_, _, ⟨rfl, rfl⟩, rfl⟩
        rfl

/-- Looking up segments never finds that something is taken. -/
theorem locateFrom_ne_taken (fs : FileSystem) (followLast : Bool) (links : Nat) (current : Inode)
    (segments : List Bytes) : fs.locateFrom followLast links current segments ≠ .error .taken := by
  induction links using Nat.strong_induction_on generalizing current segments with
  | _ links ih =>
    cases hend : fs.advance followLast current segments with
    | error fault =>
      rw [locateFrom_of_error hend]
      rintro heq
      cases heq
      simpa using fault_of_advance hend
    | ok arrival =>
      cases arrival with
      | node i => simp [locateFrom_of_node hend]
      | vacancy d name => simp [locateFrom_of_vacancy hend]
      | link d target rest =>
        rw [locateFrom_of_link hend]
        cases links with
        | zero => simp
        | succ links => exact ih links (Nat.lt_succ_self links) _ _

theorem locate_ne_taken (fs : FileSystem) (followLast : Bool) (path : Text) :
    fs.locate followLast path ≠ .error (.fault .taken) := by
  unfold locate
  cases hroute : Route.ofText path with
  | error e =>
    rintro heq
    cases heq
    -- a text that is no path is refused for other reasons
    unfold Route.ofText at hroute
    (repeat' split at hroute) <;> cases hroute
  | ok route =>
    have hfollow := fs.locateFrom_ne_taken followLast linkLimit (fs.start route) route.steps
    simp only [bind, Except.bind, follow_eq]
    cases hend : fs.locateFrom followLast linkLimit (fs.start route) route.steps with
    | error fault =>
      rintro heq
      cases heq
      exact hfollow hend
    | ok place => simp [Except.mapError]

/-- Making a node fails because the name is taken exactly where the path names something. -/
theorem make_eq_taken_iff {fs : FileSystem} {path : Text} {node : Inode → Node} :
    fs.make path node = .error (.fault .taken) ↔ ∃ i, fs.locate false path = .ok (.node i) := by
  have hlocate := fs.locate_ne_taken false path
  unfold make
  cases hplace : fs.locate false path with
  | error e => simp_all [bind, Except.bind]
  | ok place =>
    cases place with
    | node i => simp [bind, Except.bind, throw, throwThe, MonadExceptOf.throw]
    | vacancy d name => simp [bind, Except.bind, pure, Except.pure]

theorem filter_eq_self_of_lacks {entries : List (Bytes × Inode)} {name : Bytes}
    (h : name ∉ entries.map Prod.fst) : entries.filter (fun e => e.1 != name) = entries := by
  rw [List.filter_eq_self]
  intro e he
  rw [bne_iff_ne]
  rintro rfl
  exact h (List.mem_map_of_mem he)

theorem Lacks.not_holds {fs : FileSystem} {d i : Inode} {name : Bytes} (h : fs.Lacks d name) :
    ¬ fs.Holds d name i := by
  rintro ⟨entries, hentries, hmem⟩
  obtain ⟨above, listed, hd⟩ := node?_of_kind? (kind?_of_entries? hentries)
  rw [entries?, hd] at hentries
  cases hentries
  exact h above _ hd (List.mem_map_of_mem hmem)

/-- A file that is made is published. -/
theorem published_addEntry {fs : FileSystem} {d : Inode} {name : Bytes}
    (hd : fs.kind? d = some .directory) (hlacks : fs.Lacks d name) (content : Bytes) :
    fs.Published (fs.addEntry d name (.regular content)) d name fs.fresh content where
  here := here_mapEntries ..
  herePath := herePath_mapEntries ..
  unused := node?_fresh fs
  file := by rw [node?_addEntry_eq, if_pos rfl]
  directory := by
    obtain ⟨above, entries, hnode⟩ := node?_of_kind? hd
    have hne : d ≠ fs.fresh := by
      rintro rfl
      rw [node?_fresh] at hnode
      cases hnode
    refine ⟨above, entries, hnode, ?_⟩
    rw [node?_addEntry_eq, if_neg hne, if_pos rfl, hnode,
      filter_eq_self_of_lacks (hlacks above entries hnode)]
    rfl
  replaced := fun j hholds => absurd hholds hlacks.not_holds
  others := fun i hid hik _ => by rw [node?_addEntry_eq, if_neg hik, if_neg hid]

namespace Published

variable {fs gs : FileSystem} {d k : Inode} {name content : Bytes}

theorem kind?_file (h : fs.Published gs d name k content) : gs.kind? k = some .regular := by
  exact kind?_of_node? h.file

/-- The directory of the new file is still one. -/
theorem kind?_after (h : fs.Published gs d name k content) : gs.kind? d = some .directory := by
  obtain ⟨above, entries, -, hd⟩ := h.directory
  exact kind?_of_node? hd

theorem ne_directory (h : fs.Published gs d name k content) : d ≠ k := by
  rintro rfl
  have hkind := h.kind?_after
  rw [h.kind?_file] at hkind
  cases hkind

/-- The new file stands under its name. -/
theorem holds (h : fs.Published gs d name k content) : gs.Holds d name k :=
  h.holds_iff.mpr (Or.inl ⟨rfl, rfl, rfl⟩)

/-- A new file that is filled is published with what it holds now. -/
theorem setNode (h : fs.Published gs d name k content) (bytes : Bytes) :
    fs.Published (gs.setNode k (.regular bytes)) d name k bytes where
  here := h.here
  herePath := h.herePath
  unused := h.unused
  file := by
    rw [node?_setNode_eq, if_pos rfl, h.file]
    rfl
  directory := by
    obtain ⟨above, entries, hbefore, hafter⟩ := h.directory
    refine ⟨above, entries, hbefore, ?_⟩
    rw [node?_setNode_eq, if_neg h.ne_directory]
    exact hafter
  replaced := fun j hholds => by
    obtain ⟨hkind, hgone⟩ := h.replaced j hholds
    refine ⟨hkind, ?_⟩
    rw [node?_setNode_eq]
    split
    · next heq =>
      subst heq
      rw [h.file] at hgone
      cases hgone
    · exact hgone
  others := fun i hid hik hholds => by
    rw [node?_setNode_eq, if_neg hik]
    exact h.others i hid hik hholds

/-- The new file is found where it has been published. -/
theorem find_of_endsAt (hwhole : fs.Whole) (hgs : gs.Sound) (h : fs.Published gs d name k content)
    (hlink : ∀ j, fs.Holds d name j → fs.kind? j ≠ some .link) {path : Text}
    (hends : fs.EndsAt path d name) (followLast : Bool) : gs.find followLast path = .ok k :=
  ((h.endsAt_iff hwhole hlink).mpr hends).find_of_holds hgs h.holds h.file
    (Or.inr (by simp [Node.kind]))

/-- What has been published is read where a path ends in its name afterwards. -/
theorem read_of_ends (hgs : gs.Sound) (h : fs.Published gs d name k content) {path : Text}
    (hends : gs.EndsAt path d name) : gs.read path = .ok content := by
  have hfind : gs.find true path = .ok k :=
    hends.find_of_holds hgs h.holds h.file (Or.inr (by simp [Node.kind]))
  unfold read stat
  simp only [hfind, bind, Except.bind, h.file]
  rfl

/-- What has been published can be read. -/
theorem read_of_endsAt (hwhole : fs.Whole) (hgs : gs.Sound) (h : fs.Published gs d name k content)
    (hlink : ∀ j, fs.Holds d name j → fs.kind? j ≠ some .link) {path : Text}
    (hends : fs.EndsAt path d name) : gs.read path = .ok content :=
  h.read_of_ends hgs ((h.endsAt_iff hwhole hlink).mpr hends)

open Classical in
/-- There are no fewer nodes than before, as the new file replaces one at most. -/
theorem length_le (hfs : fs.Sound) (hnumbers : fs.numbers.Nodup)
    (h : fs.Published gs d name k content) : fs.nodes.length ≤ gs.nodes.length := by
  -- the new file stands for the one that it replaces
  let successor (i : Inode) : Inode := if fs.Holds d name i then k else i
  have hunused : k ∉ fs.numbers := node?_eq_none_iff.mp h.unused
  have hinjective : ∀ i ∈ fs.numbers, ∀ j ∈ fs.numbers, successor i = successor j → i = j := by
    intro i hi j hj heq
    by_cases hholds : fs.Holds d name i
    · by_cases hholds' : fs.Holds d name j
      · exact hholds.eq hfs hholds'
      · simp only [successor, if_pos hholds, if_neg hholds'] at heq
        exact absurd (heq ▸ hj) hunused
    · by_cases hholds' : fs.Holds d name j
      · simp only [successor, if_neg hholds, if_pos hholds'] at heq
        exact absurd (heq ▸ hi) hunused
      · simpa only [successor, if_neg hholds, if_neg hholds'] using heq
  have hsubset : fs.numbers.map successor ⊆ gs.numbers := by
    intro j hj
    obtain ⟨i, hi, rfl⟩ := List.mem_map.mp hj
    by_contra hmissing
    have hnone := node?_eq_none_iff.mpr hmissing
    by_cases hholds : fs.Holds d name i
    · simp only [successor, if_pos hholds, h.file] at hnone
      cases hnone
    · simp only [successor, if_neg hholds] at hnone
      by_cases hid : i = d
      · have hkind := h.kind?_after
        rw [← hid, kind?, hnone] at hkind
        cases hkind
      · have hik : i ≠ k := fun heq => hunused (heq ▸ hi)
        rw [h.others i hid hik hholds] at hnone
        exact node?_eq_none_iff.mp hnone hi
  have hsubperm := List.subperm_of_subset (hnumbers.map_on hinjective) hsubset
  simpa [numbers] using hsubperm.length_le

/-! ## Taking the name away again -/

/-- Without its name the new file is all that is left of it. -/
theorem node?_dropEntry (h : fs.Published gs d name k content) (hlacks : fs.Lacks d name)
    (i : Inode) :
    (gs.dropEntry d name).node? i = if i = k then some (.regular content) else fs.node? i := by
  rw [dropEntry, node?_mapEntries_eq]
  by_cases hid : i = d
  · subst hid
    obtain ⟨above, entries, hbefore, hafter⟩ := h.directory
    have hentries := filter_eq_self_of_lacks (hlacks above entries hbefore)
    rw [if_pos rfl, if_neg h.ne_directory, hafter, hbefore, hentries, Option.map_some,
      Node.withEntries, List.filter_append, hentries]
    simp
  rw [if_neg hid]
  by_cases hik : i = k
  · subst hik
    rw [if_pos rfl, h.file]
  · rw [if_neg hik]
    exact h.others i hid hik hlacks.not_holds

end Published

/-! ## Moving a file -/

section
variable {fs : FileSystem} (hfs : fs.Sound)
include hfs

theorem occupant_of_holds {d i : Inode} {name : Bytes} (h : fs.Holds d name i) :
    fs.occupant d name = .ok (some i) := by
  have hlength : ¬ Route.nameLimit < name.length := Nat.not_lt.mpr (h.legal hfs).length_le
  obtain ⟨entries, hentries, hmem⟩ := h
  have hlookup : entries.lookup name = some i := lookup_of_mem (hfs.entries hentries).2 hmem
  rw [occupant, if_neg hlength, hentries, Option.bind_some, hlookup]

omit hfs in
theorem holds_of_occupant {d i : Inode} {name : Bytes} (h : fs.occupant d name = .ok (some i)) :
    fs.Holds d name i := by
  unfold occupant at h
  split at h
  · cases h
  obtain ⟨entries, hentries, hlookup⟩ := Option.bind_eq_some_iff.mp (Except.ok.inj h)
  obtain ⟨before, after, rfl, -⟩ := List.lookup_eq_some_iff.mp hlookup
  exact ⟨_, hentries, by simp⟩

variable {e k : Inode} {old : Bytes} (hold : fs.Holds e old k)
  (hk : fs.kind? k = some .regular)
include hold hk

/-- What becomes of a file that is moved. -/
theorem eq_of_move {slashed : Bool} {d : Inode} {name : Bytes} {moved : FileSystem}
    (h : fs.move slashed e old d name = .ok moved) :
    slashed = false ∧ name.length ≤ Route.nameLimit ∧
      (fs.Lacks d name ∧ moved = fs.relink k e old d name ∨
       fs.Holds d name k ∧ moved = fs ∨
       ∃ j, fs.Holds d name j ∧ j ≠ k ∧ fs.kind? j ≠ some .directory ∧
         moved = (fs.unlink d name j).relink k e old d name) := by
  obtain ⟨i, hi, hdirectory, -, hcases⟩ := cases_of_move h
  obtain rfl := (holds_of_occupant hi).eq hfs hold
  have hfile : fs.kind? i ≠ some .directory := by simp [hk]
  have hslashed : slashed = false := Bool.eq_false_iff.mpr fun htrue => hfile (hdirectory htrue)
  rcases hcases with ⟨hfree, rfl⟩ | ⟨hsame, rfl⟩ | ⟨j, hj, hji, hkinds, rfl⟩
  · exact ⟨hslashed, length_le_of_occupant hfree, Or.inl ⟨occupant_none hfree, rfl⟩⟩
  · exact ⟨hslashed, length_le_of_occupant hsame,
      Or.inr (Or.inl ⟨holds_of_occupant hsame, rfl⟩)⟩
  · rcases hkinds with ⟨hdirectory, -⟩ | ⟨-, hnone⟩
    · exact absurd hdirectory hfile
    · refine ⟨hslashed, length_le_of_occupant hj,
        Or.inr (Or.inr ⟨j, holds_of_occupant hj, hji, fun hkind => ?_, rfl⟩)⟩
      obtain ⟨entries, hentries⟩ := entries?_of_kind? hkind
      rw [hnone] at hentries
      cases hentries

omit hfs hold hk in
/-- Only directories enclose directories. -/
theorem encloses_of_not_directory (hwhole : fs.Whole) {outer : Inode}
    (houter : fs.kind? outer ≠ some .directory) (fuel : Nat) {inner : Inode}
    (hinner : fs.kind? inner = some .directory) : fs.encloses outer fuel inner = false := by
  induction fuel generalizing inner with
  | zero =>
    rw [encloses, beq_eq_false_iff_ne]
    rintro rfl
    exact houter hinner
  | succ fuel ih =>
    have hne : inner ≠ outer := by
      rintro rfl
      exact houter hinner
    obtain ⟨above, entries, hnode⟩ := node?_of_kind? hinner
    rw [encloses, hnode]
    simp only [beq_eq_false_iff_ne.mpr hne, Bool.false_or, ih (hwhole.parent hnode), Bool.and_false]

/-- A file can be moved to every name that is free or stands for no directory. -/
theorem exists_move (hwhole : fs.Whole) {d : Inode} {name : Bytes}
    (hd : fs.kind? d = some .directory) (hlength : name.length ≤ Route.nameLimit)
    (hname : ∀ j, fs.Holds d name j → fs.kind? j ≠ some .directory) :
    ∃ moved, fs.move false e old d name = .ok moved := by
  have hnot : fs.kind? k ≠ some .directory := by simp [hk]
  have hfirst := encloses_of_not_directory hwhole hnot fs.nodes.length hd
  cases hoccupant : fs.occupant d name with
  | error fault =>
    unfold occupant at hoccupant
    rw [if_neg (Nat.not_lt.mpr hlength)] at hoccupant
    cases hoccupant
  | ok replaced? =>
    cases replaced? with
    | none =>
      simp only [move, occupant_of_holds hfs hold, hoccupant, hfirst, bind, Except.bind, pure,
        Except.pure, Bool.false_and, Bool.false_eq_true, if_false]
      exact ⟨_, rfl⟩
    | some j =>
      have hj := hname j (holds_of_occupant hoccupant)
      have hsecond := encloses_of_not_directory hwhole hj fs.nodes.length hold.kind
      have hentries : fs.entries? j = none := by
        cases hsome : fs.entries? j with
        | none => rfl
        | some entries => exact absurd (kind?_of_entries? hsome) hj
      simp only [move, occupant_of_holds hfs hold, hoccupant, hfirst, hsecond, hk, hentries, bind,
        Except.bind, pure, Except.pure, Bool.false_and, Bool.false_eq_true, if_false]
      split
      · exact ⟨_, rfl⟩
      · exact ⟨_, rfl⟩

end

/-! ## Moving a new file -/

/-- Entries are taken from one directory and from another in either order. -/
theorem node?_dropEntry_comm (fs : FileSystem) (d e i : Inode) (name other : Bytes) :
    ((fs.dropEntry d name).dropEntry e other).node? i
      = ((fs.dropEntry e other).dropEntry d name).node? i := by
  simp only [dropEntry, node?_mapEntries_eq]
  by_cases hd : i = d
  · by_cases he : e = d
    · have hcomm (entries : List (Bytes × Inode)) :
          (entries.filter (fun e => e.1 != name)).filter (fun e => e.1 != other)
            = (entries.filter (fun e => e.1 != other)).filter (fun e => e.1 != name) := by
        rw [List.filter_filter, List.filter_filter]
        simp only [Bool.and_comm]
      subst hd he
      simp only [if_pos trivial, Option.map_map, Function.comp_def, Node.withEntries_withEntries,
        hcomm]
    · simp [hd, Ne.symm he]
  · by_cases he : i = e
    · simp [he, show e ≠ d from fun h => hd (he.trans h)]
    · simp [hd, he]

/-- An entry is taken away and a node is dropped in either order. -/
theorem node?_dropNode_dropEntry (fs : FileSystem) (d i j : Inode) (name : Bytes) (hjd : j ≠ d) :
    ((fs.dropNode j).dropEntry d name).node? i = ((fs.dropEntry d name).dropNode j).node? i := by
  simp only [dropEntry, node?_mapEntries_eq, node?_dropNode_eq]
  by_cases hi : i = d
  · simp [hi, Ne.symm hjd]
  · simp [hi]

/-- A file is published under a name when everything else is as it was, apart from what had this name
before. -/
theorem published_relink {fs gs : FileSystem} {d e k above : Inode}
    {entries : List (Bytes × Inode)} {name old content : Bytes} (hhere : gs.here = fs.here)
    (hpath : gs.herePath = fs.herePath) (hunused : fs.node? k = none)
    (hk : gs.kind? k ≠ some .directory) (hd : fs.node? d = some (.directory above entries))
    (hfile : (gs.dropEntry e old).node? k = some (.regular content))
    (hdirectory : (gs.dropEntry e old).node? d
      = some (.directory above (entries.filter fun e => e.1 != name)))
    (hreplaced : ∀ j, fs.Holds d name j →
      fs.kind? j ≠ some .directory ∧ (gs.dropEntry e old).node? j = none)
    (hothers : ∀ i, i ≠ d → i ≠ k → ¬ fs.Holds d name i →
      (gs.dropEntry e old).node? i = fs.node? i) :
    fs.Published (gs.relink k e old d name) d name k content := by
  have hkd : k ≠ d := by
    rintro rfl
    rw [hunused] at hd
    cases hd
  refine ⟨(here_relink ..).trans hhere, (herePath_relink ..).trans hpath, hunused, ?_,
    ⟨above, entries, hd, ?_⟩, ?_, ?_⟩
  · rw [node?_relink_eq _ _ _ hk, if_neg hkd]
    exact hfile
  · rw [node?_relink_eq _ _ _ hk, if_pos rfl, hdirectory]
    rfl
  · intro j hholds
    obtain ⟨hkind, hgone⟩ := hreplaced j hholds
    refine ⟨hkind, ?_⟩
    have hjd : j ≠ d := by
      rintro rfl
      exact hkind (kind?_of_node? hd)
    rw [node?_relink_eq _ _ _ hk, if_neg hjd]
    exact hgone
  · intro i hid hik hholds
    rw [node?_relink_eq _ _ _ hk, if_neg hid]
    exact hothers i hid hik hholds

namespace Published

variable {fs gs moved : FileSystem} {e d k : Inode} {old name content : Bytes}

section
variable (h : fs.Published gs e old k content) (hlacks : fs.Lacks e old)
  (hd : fs.kind? d = some .directory)
include h hlacks hd

/-- A new file that gets a free name is published under it. -/
theorem relink_free (hfree : fs.Lacks d name) :
    fs.Published (gs.relink k e old d name) d name k content := by
  obtain ⟨above, entries, hnode⟩ := node?_of_kind? hd
  have hdropped := h.node?_dropEntry hlacks
  have hdk := h.ne_file hnode
  refine published_relink h.here h.herePath h.unused (by simp [h.kind?_file]) hnode ?_ ?_ ?_ ?_
  · rw [hdropped, if_pos rfl]
  · rw [hdropped, if_neg hdk, hnode, filter_eq_self_of_lacks (hfree above entries hnode)]
  · exact fun j hj => absurd hj hfree.not_holds
  · intro i _ hik _
    rw [hdropped, if_neg hik]

/-- A new file that gets the name of something else is published in its place. -/
theorem relink_replacing (hfs : fs.Sound) {j : Inode} (hold : fs.Holds d name j) (hjk : j ≠ k)
    (hj : fs.kind? j ≠ some .directory) :
    fs.Published ((gs.unlink d name j).relink k e old d name) d name k content := by
  obtain ⟨above, entries, hnode⟩ := node?_of_kind? hd
  have hdropped := h.node?_dropEntry hlacks
  have hdk := h.ne_file hnode
  have hje : j ≠ e := by
    rintro rfl
    obtain ⟨above', entries', hbefore, -⟩ := h.directory
    exact hj (kind?_of_node? hbefore)
  have hjd : j ≠ d := by
    rintro rfl
    exact hj hd
  -- the order in which things are taken away makes no difference
  have hunlinked (i : Inode) : ((gs.unlink d name j).dropEntry e old).node? i
      = if i = j then none
        else if i = d then some (.directory above (entries.filter fun e => e.1 != name))
        else (gs.dropEntry e old).node? i := by
    rw [unlink, node?_dropNode_dropEntry _ _ _ _ _ hje, node?_dropNode_eq,
      node?_dropEntry_comm, FileSystem.dropEntry, node?_mapEntries_eq, hdropped d, if_neg hdk,
      hnode]
    rfl
  refine published_relink ((here_mapEntries ..).trans h.here)
    ((herePath_mapEntries ..).trans h.herePath) h.unused ?_ hnode ?_ ?_ ?_ ?_
  · rw [kind?, unlink, node?_dropNode_eq, if_neg (Ne.symm hjk), FileSystem.dropEntry,
      node?_mapEntries_eq, if_neg (Ne.symm hdk), h.file]
    simp [Node.kind]
  · rw [hunlinked, if_neg (Ne.symm hjk), if_neg (Ne.symm hdk), hdropped, if_pos rfl]
  · rw [hunlinked, if_neg (Ne.symm hjd), if_pos rfl]
  · intro i hi
    obtain rfl := hi.eq hfs hold
    exact ⟨hj, by rw [hunlinked, if_pos rfl]⟩
  · intro i hid hik hkept
    have hij : i ≠ j := by
      rintro rfl
      exact hkept hold
    rw [hunlinked, if_neg hij, if_neg hid, hdropped, if_neg hik]

/-- A new file that is moved is published under its other name. -/
theorem move (hfs : fs.Sound) (hwhole : fs.Whole) (hgs : gs.Sound) {slashed : Bool}
    (hmove : gs.move slashed e old d name = .ok moved) :
    slashed = false ∧ fs.Published moved d name k content := by
  obtain ⟨hslashed, -, hcases⟩ := eq_of_move hgs h.holds h.kind?_file hmove
  refine ⟨hslashed, ?_⟩
  rcases hcases with ⟨hfree, rfl⟩ | ⟨hholds, rfl⟩ | ⟨j, hholds, hjk, hj, rfl⟩
  · -- a name that is free now was free before
    refine h.relink_free hlacks hd (lacks_of_not_holds fun j hj => hfree.not_holds (i := j) ?_)
    refine h.holds_iff.mpr (Or.inr ⟨?_, hj⟩)
    rintro ⟨rfl, rfl⟩
    exact hlacks.not_holds hj
  · -- it has the name already
    obtain ⟨rfl, rfl⟩ := (h.whole hwhole).listed_once hholds h.holds
    exact h
  · rcases h.holds_iff.mp hholds with ⟨-, -, heq⟩ | ⟨-, hold⟩
    · exact absurd heq hjk
    · exact h.relink_replacing hlacks hd hfs hold hjk
        fun hkind => hj (h.kind?_kept hkind hlacks.not_holds)

end

section
variable (hfs : fs.Sound) (hwhole : fs.Whole) (hgs : gs.Sound)
  (h : fs.Published gs e old k content) (hlacks : fs.Lacks e old) {source target : Text}
  (hsource : fs.EndsAt source e old)
include hfs hwhole hgs h hlacks hsource

/-- A new file that is renamed is published where the other path ends. -/
theorem rename (hrename : gs.rename source target = .ok moved) :
    ∃ d name, fs.EndsAt target d name ∧ fs.Published moved d name k content := by
  have hends {path : Text} {f : Inode} {other : Bytes} :
      gs.EndsAt path f other ↔ fs.EndsAt path f other :=
    h.endsAt_iff hwhole fun j hholds => absurd hholds hlacks.not_holds
  obtain ⟨sourceRoute, targetRoute, e', old', d, name, hroute, htarget, hbefore, hafter, hmove⟩ :=
    exists_move_of_rename hrename
  -- the file is moved from where it was made
  obtain ⟨hsite, hslashed⟩ := (hends.mpr hsource).site hroute
  cases hbefore.symm.trans hsite
  rw [hslashed, Bool.false_or] at hmove
  -- a slash behind the other path would ask for a directory
  have htargetSlashed := (eq_of_move hgs h.holds h.kind?_file hmove).1
  have htargetEnds := hends.mp (endsAt_of_site htarget htargetSlashed hafter)
  exact ⟨d, name, htargetEnds, (h.move hlacks htargetEnds.kind hfs hwhole hgs hmove).2⟩

omit hfs in
/-- A new file can be renamed to every path that ends in a name that is free or stands for no
directory. -/
theorem exists_rename {d : Inode} {name : Bytes} (htarget : fs.EndsAt target d name)
    (hlength : name.length ≤ Route.nameLimit)
    (hname : ∀ j, fs.Holds d name j → fs.kind? j ≠ some .directory) :
    ∃ moved, gs.rename source target = .ok moved := by
  have hends {path : Text} {f : Inode} {other : Bytes} :
      gs.EndsAt path f other ↔ fs.EndsAt path f other :=
    h.endsAt_iff hwhole fun j hholds => absurd hholds hlacks.not_holds
  obtain ⟨sourceRoute, -, hroute, -⟩ := hsource.route
  obtain ⟨targetRoute, -, hroute', -⟩ := htarget.route
  obtain ⟨hsite, hslashed⟩ := (hends.mpr hsource).site hroute
  obtain ⟨hsite', hslashed'⟩ := (hends.mpr htarget).site hroute'
  have hafter (j : Inode) (hholds : gs.Holds d name j) : gs.kind? j ≠ some .directory := by
    rcases h.holds_iff.mp hholds with ⟨-, -, rfl⟩ | ⟨-, hbefore⟩
    · simp [h.kind?_file]
    · intro hkind
      obtain ⟨above, listed, hnode⟩ := node?_of_kind? hkind
      obtain ⟨entries, hnode', -⟩ := h.node?_directory_of_after hnode
      exact hname j hbefore (kind?_of_node? hnode')
  obtain ⟨moved, hmove⟩ := exists_move hgs h.holds h.kind?_file (h.whole hwhole)
    (hends.mpr htarget).kind hlength hafter
  refine ⟨moved, ?_⟩
  simp only [FileSystem.rename, hroute, hroute', hsite, hsite', hslashed, hslashed', bind,
    Except.bind, Except.mapError, Bool.or_self, hmove]

end

end Published

end BundleManifest.FileSystem
