/-
# BundleManifest.Proofs.FileSystem.Changes — changes keep a file system sound

Making, writing, renaming and removing only ever give a directory a name that it lacks and that the
operating system allows. `sound_apply` says so for one change and `sound_applyAll` for any number of
them, whether they succeed or are refused; every file system that is made from the empty one is
therefore sound.
-/
import BundleManifest.Proofs.FileSystem.Soundness

namespace BundleManifest.FileSystem

/-! ## Tables of nodes -/

theorem lookup_map_of_ne {nodes : List (Inode × Node)} {i j : Inode} {node : Node} (h : j ≠ i) :
    (nodes.map fun e => if e.1 = i then (i, node) else e).lookup j = nodes.lookup j := by
  induction nodes with
  | nil => rfl
  | cons e nodes ih =>
    obtain ⟨k, old⟩ := e
    by_cases hk : k = i
    · have hjk : (j == k) = false := by simpa [hk] using h
      have hji : (j == i) = false := by simpa using h
      rw [List.map_cons, if_pos hk, List.lookup_cons, List.lookup_cons, hjk, hji]
      exact ih
    · rw [List.map_cons, if_neg hk, List.lookup_cons, List.lookup_cons, ih]

/-- Only nodes under certain numbers are kept. -/
theorem lookup_filter (nodes : List (Inode × Node)) (p : Inode → Bool) (j : Inode) :
    (nodes.filter fun e => p e.1).lookup j = if p j then nodes.lookup j else none := by
  induction nodes with
  | nil => simp
  | cons e nodes ih =>
    obtain ⟨k, node⟩ := e
    by_cases hjk : j = k
    · subst hjk
      by_cases hj : p j = true
      · simp [hj]
      · simp [hj, ih]
    · have hne : (j == k) = false := by simpa using hjk
      by_cases hk : p k = true
      · simp [List.lookup_cons, hk, hne, ih]
      · simp [List.lookup_cons, hk, hne, ih]

theorem node?_setNode {fs : FileSystem} {i j : Inode} {node found : Node}
    (h : (fs.setNode i node).node? j = some found) :
    fs.node? j = some found ∨ j = i ∧ found = node := by
  by_cases hji : j = i
  · obtain ⟨e, -, he⟩ := List.mem_map.mp (mem_nodes_of_node? h)
    split at he
    · exact Or.inr ⟨hji, (Prod.mk.inj he).2.symm⟩
    · next hne =>
      rw [he] at hne
      exact absurd hji hne
  · exact Or.inl ((lookup_map_of_ne hji).symm.trans h)

theorem node?_dropNode {fs : FileSystem} {i j : Inode} {found : Node}
    (h : (fs.dropNode i).node? j = some found) : fs.node? j = some found := by
  unfold dropNode node? at h
  rw [lookup_filter fs.nodes (· != i)] at h
  split at h
  · exact h
  · cases h

/-! ## Names that stay free -/

theorem lacks_mapEntries {fs : FileSystem} {d e : Inode} {name : Bytes}
    {f : List (Bytes × Inode) → List (Bytes × Inode)} (h : fs.Lacks d name)
    (hf : ∀ entries, (f entries).Sublist entries) : (fs.mapEntries e f).Lacks d name := by
  intro parent entries hnode
  unfold mapEntries at hnode
  split at hnode
  · next above listed hlisted =>
    rcases node?_setNode hnode with hold | ⟨rfl, hnew⟩
    · exact h parent entries hold
    · cases hnew
      intro hmem
      exact h _ listed hlisted (((hf listed).map Prod.fst).subset hmem)
  · exact h parent entries hnode

theorem lacks_dropEntry {fs : FileSystem} {d e : Inode} {name other : Bytes}
    (h : fs.Lacks d name) : (fs.dropEntry e other).Lacks d name :=
  lacks_mapEntries h fun _ => List.filter_sublist

/-- A name that has been taken away is free. -/
theorem lacks_dropEntry_self (fs : FileSystem) (d : Inode) (name : Bytes) :
    (fs.dropEntry d name).Lacks d name := by
  intro parent entries hnode
  unfold dropEntry mapEntries at hnode
  split at hnode
  · next above listed hlisted =>
    rcases node?_setNode hnode with hold | ⟨-, hnew⟩
    · -- the node under `d` is the changed one wherever it is found
      have hmem := mem_nodes_of_node? hnode
      obtain ⟨e, -, he⟩ := List.mem_map.mp hmem
      split at he
      · cases he
        simp
      · next hne => exact absurd (congrArg Prod.fst he) hne
    · cases hnew
      simp
  · next hnone => exact absurd hnode (hnone parent entries)

theorem lacks_dropNode {fs : FileSystem} {d i : Inode} {name : Bytes} (h : fs.Lacks d name) :
    (fs.dropNode i).Lacks d name :=
  fun parent entries hnode => h parent entries (node?_dropNode hnode)

/-! ## Small steps -/

section
variable {fs : FileSystem} (hfs : fs.Sound)
include hfs

theorem sound_setNode {i : Inode} {node : Node} (hnode : node.Sound) :
    (fs.setNode i node).Sound := by
  intro e he
  obtain ⟨old, hold, rfl⟩ := List.mem_map.mp he
  split
  · exact hnode
  · exact hfs old hold

theorem sound_addNode {i : Inode} {node : Node} (hnode : node.Sound) :
    (fs.addNode i node).Sound := by
  intro e he
  rcases List.mem_append.mp he with he | he
  · exact hfs e he
  · rw [List.mem_singleton] at he
    exact he ▸ hnode

theorem sound_filter {p : Inode × Node → Bool} : ({ fs with nodes := fs.nodes.filter p }).Sound :=
  fun e he => hfs e (List.mem_filter.mp he).1

theorem sound_dropNode {i : Inode} : (fs.dropNode i).Sound := sound_filter hfs

theorem sound_mapEntries {d : Inode} {f : List (Bytes × Inode) → List (Bytes × Inode)}
    (hf : ∀ parent entries, fs.node? d = some (.directory parent entries) →
      (Node.directory parent (f entries)).Sound) : (fs.mapEntries d f).Sound := by
  unfold mapEntries
  split
  · next parent entries hnode => exact sound_setNode hfs (hf parent entries hnode)
  · exact hfs

theorem sound_dropEntry {d : Inode} {name : Bytes} : (fs.dropEntry d name).Sound := by
  refine sound_mapEntries hfs fun parent entries hnode => ?_
  obtain ⟨hlegal, hnodup⟩ := hfs.node hnode
  exact ⟨fun e he => hlegal e (List.mem_filter.mp he).1,
    hnodup.sublist (List.filter_sublist.map Prod.fst)⟩

/-- A directory may get a name that it lacks. -/
theorem sound_mapEntries_append {d i : Inode} {name : Bytes} (hname : LegalName name)
    (hfree : fs.Lacks d name) : (fs.mapEntries d fun entries => entries ++ [(name, i)]).Sound := by
  refine sound_mapEntries hfs fun parent entries hnode => ?_
  obtain ⟨hlegal, hnodup⟩ := hfs.node hnode
  constructor
  · intro e he
    rcases List.mem_append.mp he with he | he
    · exact hlegal e he
    · rw [List.mem_singleton] at he
      exact he ▸ hname
  · rw [List.map_append, List.nodup_append]
    refine ⟨hnodup, by simp, ?_⟩
    rintro a ha b hb rfl
    rw [List.map_singleton, List.mem_singleton] at hb
    subst hb
    exact hfree parent entries hnode ha

theorem sound_addEntry {d : Inode} {name : Bytes} {node : Node} (hname : LegalName name)
    (hfree : fs.Lacks d name) (hnode : node.Sound) : (fs.addEntry d name node).Sound :=
  sound_addNode (sound_mapEntries_append hfs hname hfree) hnode

theorem sound_relink {i fromDirectory toDirectory : Inode} {fromName toName : Bytes}
    (hname : LegalName toName) (hfree : fs.Lacks toDirectory toName) :
    (fs.relink i fromDirectory fromName toDirectory toName).Sound := by
  have hdrop : (fs.dropEntry fromDirectory fromName).Sound := sound_dropEntry hfs
  have hlacks : (fs.dropEntry fromDirectory fromName).Lacks toDirectory toName :=
    lacks_dropEntry hfree
  unfold relink
  extract_lets dropped moved
  unfold moved
  split
  · next above entries hnode =>
    -- a directory that is moved gets another parent, and the free name stays free meanwhile
    have hentries : dropped.entries? i = some entries := by simp [entries?, hnode]
    have hmoved : (dropped.setNode i (.directory toDirectory entries)).Sound :=
      sound_setNode hdrop (hdrop.entries hentries)
    refine sound_mapEntries_append hmoved hname ?_
    intro parent listed hlisted
    rcases node?_setNode hlisted with hold | ⟨rfl, hnew⟩
    · exact hlacks parent listed hold
    · cases hnew
      exact hlacks above _ hnode
  · exact sound_mapEntries_append hdrop hname hlacks

/-! ## Operations on paths -/

theorem locate_vacancy {followLast : Bool} {path : Text} {d : Inode} {name : Bytes}
    (h : fs.locate followLast path = .ok (.vacancy d name)) :
    LegalName name ∧ fs.Lacks d name ∧ fs.kind? d = some .directory := by
  obtain ⟨route, hroute, hfollow⟩ := Except.bind_eq_ok_iff.mp h
  exact locateFrom_vacancy hfs (fun s hs => Route.isPiece_of_ofText hroute (Or.inr hs))
    (Except.mapError_eq_ok_iff.mp hfollow)

theorem sound_make {path : Text} {node : Inode → Node} {made : FileSystem}
    (hnode : ∀ above, (node above).Sound) (h : fs.make path node = .ok made) : made.Sound := by
  obtain ⟨place, hplace, h⟩ := Except.bind_eq_ok_iff.mp h
  cases place with
  | node i => cases h
  | vacancy d name =>
    cases h
    obtain ⟨hname, hfree, -⟩ := locate_vacancy hfs hplace
    exact sound_addEntry hfs hname hfree (hnode d)

omit hfs in
/-- Writing makes a file under a free name, or fills the file that is there. Anything else but a
directory takes what is written and stays as it is. -/
theorem cases_of_write {path : Text} {content : Bytes} {written : FileSystem}
    (h : fs.write path content = .ok written) :
    (∃ d name, fs.locate true path = .ok (.vacancy d name) ∧
      written = fs.addEntry d name (.regular content)) ∨
    (∃ i, fs.kind? i = some .regular ∧ written = fs.setNode i (.regular content)) ∨
    written = fs := by
  obtain ⟨place, hplace, h⟩ := Except.bind_eq_ok_iff.mp h
  cases place with
  | vacancy d name =>
    cases h
    exact Or.inl ⟨d, name, hplace, rfl⟩
  | node i =>
    dsimp only at h
    split at h
    · cases h
    · next old hold =>
      cases h
      exact Or.inr (Or.inl ⟨i, kind?_of_node? hold, rfl⟩)
    · cases h
      exact Or.inr (Or.inr rfl)

theorem sound_write {path : Text} {content : Bytes} {written : FileSystem}
    (h : fs.write path content = .ok written) : written.Sound := by
  rcases cases_of_write h with ⟨d, name, hplace, rfl⟩ | ⟨i, -, rfl⟩ | rfl
  · obtain ⟨hname, hfree, -⟩ := locate_vacancy hfs hplace
    exact sound_addEntry hfs hname hfree trivial
  · exact sound_setNode hfs trivial
  · exact hfs

omit hfs in
/-- A removal takes away the entry under the last name of the path, and the nodes in and below the
node that the entry leads to. After a slash that node is a directory. -/
theorem exists_occupant_of_remove {path : Text} {left : FileSystem}
    (h : fs.remove path = .ok left) :
    ∃ route d name i, Route.ofText path = .ok route ∧ fs.site route = .ok ⟨d, some name⟩ ∧
      fs.occupant d name = .ok (some i) ∧
      (route.slashed = true → fs.kind? i = some .directory) ∧
      left = { fs.dropEntry d name with
        nodes := (fs.dropEntry d name).nodes.filter fun e =>
          !(fs.below fs.nodes.length [i]).contains e.1 } := by
  obtain ⟨route, hroute, h⟩ := Except.bind_eq_ok_iff.mp h
  obtain ⟨⟨d, name?⟩, hsite, h⟩ := Except.bind_eq_ok_iff.mp h
  cases name? with
  | none => cases h
  | some name =>
    obtain ⟨occupant?, hoccupant, h⟩ := Except.bind_eq_ok_iff.mp h
    rw [Except.mapError_eq_ok_iff] at hsite hoccupant
    cases occupant? with
    | none => cases h
    | some i =>
      dsimp only at h
      split at h
      · cases h
      next hslashed =>
      cases h
      exact ⟨route, d, name, i, hroute, hsite, hoccupant, by simpa using hslashed, rfl⟩

theorem sound_remove {path : Text} {left : FileSystem} (h : fs.remove path = .ok left) :
    left.Sound := by
  obtain ⟨_, d, name, _, -, -, -, -, rfl⟩ := exists_occupant_of_remove h
  exact sound_filter (sound_dropEntry hfs)

omit hfs in
/-- The site of a route is the directory to which all but its last segment leads, with that last
segment unless it is a dot or two. -/
theorem follow_of_site {route : Route} {place : Site} (h : fs.site route = .ok place) :
    fs.follow true { route with segments := route.segments.dropLast, slashed := false } =
        .ok (.node place.directory) ∧
      fs.kind? place.directory = some .directory ∧
      ∀ name, place.name? = some name →
        route.segments.getLast? = some name ∧ name ≠ Route.self ∧ name ≠ Route.up := by
  obtain ⟨above, habove, h⟩ := Except.bind_eq_ok_iff.mp h
  cases above with
  | vacancy d name => cases h
  | node d =>
    dsimp only at h
    split at h
    · cases h
    next entries hentries =>
    cases h
    refine ⟨habove, kind?_of_entries? hentries, fun name hname => ?_⟩
    obtain ⟨hlast, hdots⟩ := Option.filter_eq_some_iff.mp hname
    exact ⟨hlast, by simpa using hdots⟩

omit hfs in
/-- The name of a site is a name that may be made, if it is not too long. -/
theorem legalName_of_site {t : Text} {route : Route} (hroute : Route.ofText t = .ok route)
    {place : Site} (h : fs.site route = .ok place) {name : Bytes}
    (hname : place.name? = some name) (hlength : name.length ≤ Route.nameLimit) :
    LegalName name := by
  obtain ⟨-, -, hlast⟩ := follow_of_site h
  obtain ⟨hlast, hself, hup⟩ := hlast name hname
  have hpiece := Route.isPiece_of_ofText hroute (Or.inl (List.mem_of_getLast? hlast))
  exact hpiece.legalName hlength hself hup

omit hfs in
theorem occupant_none {d : Inode} {name : Bytes} (h : fs.occupant d name = .ok none) :
    fs.Lacks d name := by
  unfold occupant at h
  split at h
  · cases h
  intro parent entries hnode
  have hlookup := Except.ok.inj h
  simp only [entries?, hnode, Option.bind_some] at hlookup
  exact lookup_eq_none_iff.mp hlookup

omit hfs in
theorem length_le_of_occupant {d : Inode} {name : Bytes} {found : Option Inode}
    (h : fs.occupant d name = .ok found) : name.length ≤ Route.nameLimit := by
  unfold occupant at h
  split at h
  · cases h
  next hlength => exact Nat.le_of_not_lt hlength

omit hfs in
/-- How a node is moved: nothing had its new name, or the node has that name already, or what had the
name is taken away first. A directory takes the place of an empty directory only, and anything else
the place of something that is none. -/
theorem cases_of_move {slashed : Bool} {e d : Inode} {old name : Bytes} {moved : FileSystem}
    (h : fs.move slashed e old d name = .ok moved) :
    ∃ i, fs.occupant e old = .ok (some i) ∧ (slashed = true → fs.kind? i = some .directory) ∧
      fs.encloses i fs.nodes.length d = false ∧
      (fs.occupant d name = .ok none ∧ moved = fs.relink i e old d name ∨
       fs.occupant d name = .ok (some i) ∧ moved = fs ∨
       ∃ j, fs.occupant d name = .ok (some j) ∧ j ≠ i ∧
         (fs.kind? i = some .directory ∧ fs.entries? j = some [] ∨
           fs.kind? i ≠ some .directory ∧ fs.entries? j = none) ∧
         moved = (fs.unlink d name j).relink i e old d name) := by
  simp only [move, bind, Except.bind, pure, Except.pure, throw, throwThe,
    MonadExceptOf.throw] at h
  split at h
  · cases h
  next occupant? hoccupant =>
  split at h
  · next i =>
    split at h
    · cases h
    next replaced? hreplaced =>
    split at h
    · cases h
    next hslashed =>
    split at h
    · cases h
    next hencloses =>
    refine ⟨i, hoccupant, by simpa using hslashed, by simpa using hencloses, ?_⟩
    split at h
    · cases h
      exact Or.inl ⟨hreplaced, rfl⟩
    · next j =>
      split at h
      · next hji =>
        cases h
        exact Or.inr (Or.inl ⟨hji ▸ hreplaced, rfl⟩)
      next hji =>
      split at h
      · cases h
      split at h
      · cases h
      · cases h
      · next hkind hentries =>
        cases h
        exact Or.inr (Or.inr ⟨j, hreplaced, hji, Or.inl ⟨hkind, hentries⟩, rfl⟩)
      · cases h
      · next hentries hkind =>
        cases h
        exact Or.inr (Or.inr ⟨j, hreplaced, hji, Or.inr ⟨hkind, hentries⟩, rfl⟩)
  · cases h

theorem sound_move {slashed : Bool} {fromDirectory toDirectory : Inode} {fromName toName : Bytes}
    {moved : FileSystem} (hname : toName.length ≤ Route.nameLimit → LegalName toName)
    (h : fs.move slashed fromDirectory fromName toDirectory toName = .ok moved) : moved.Sound := by
  obtain ⟨i, -, -, -, hcases⟩ := cases_of_move h
  rcases hcases with ⟨hfree, rfl⟩ | ⟨-, rfl⟩ | ⟨j, hreplaced, -, -, rfl⟩
  · exact sound_relink hfs (hname (length_le_of_occupant hfree)) (occupant_none hfree)
  · exact hfs
  · -- where another node has the name, that node is taken away first
    exact sound_relink (sound_dropNode (sound_dropEntry hfs))
      (hname (length_le_of_occupant hreplaced)) (lacks_dropNode (lacks_dropEntry_self _ _ _))

omit hfs in
/-- A renamed node is moved from where one path ends to where the other one does. -/
theorem exists_move_of_rename {source target : Text} {renamed : FileSystem}
    (h : fs.rename source target = .ok renamed) :
    ∃ sourceRoute targetRoute e old d name, Route.ofText source = .ok sourceRoute ∧
      Route.ofText target = .ok targetRoute ∧ fs.site sourceRoute = .ok ⟨e, some old⟩ ∧
      fs.site targetRoute = .ok ⟨d, some name⟩ ∧
      fs.move (sourceRoute.slashed || targetRoute.slashed) e old d name = .ok renamed := by
  obtain ⟨sourceRoute, hsource, h⟩ := Except.bind_eq_ok_iff.mp h
  obtain ⟨targetRoute, htarget, h⟩ := Except.bind_eq_ok_iff.mp h
  obtain ⟨⟨e, old?⟩, hbefore, h⟩ := Except.bind_eq_ok_iff.mp h
  obtain ⟨⟨d, name?⟩, hafter, h⟩ := Except.bind_eq_ok_iff.mp h
  rw [Except.mapError_eq_ok_iff] at hbefore hafter
  cases old? with
  | none => cases h
  | some old =>
    cases name? with
    | none => cases h
    | some name =>
      exact ⟨sourceRoute, targetRoute, e, old, d, name, hsource, htarget, hbefore, hafter,
        Except.mapError_eq_ok_iff.mp h⟩

theorem sound_rename {source target : Text} {renamed : FileSystem}
    (h : fs.rename source target = .ok renamed) : renamed.Sound := by
  obtain ⟨_, targetRoute, _, _, d, name, -, htarget, -, hsite, hmove⟩ := exists_move_of_rename h
  exact sound_move hfs (legalName_of_site htarget hsite rfl) hmove

end

/-! ## Sequences of changes -/

/-- Something that is done to a file system from outside. -/
inductive Change where
  | makeDirectory (path : Text)
  | write (path : Text) (content : Bytes)
  | makeLink (path : Text) (target : Bytes)
  | makePipe (path : Text)
  | remove (path : Text)
  | rename (source target : Text)
  deriving DecidableEq, Repr

/-- A change that is tried. -/
def Change.attempt (fs : FileSystem) : Change → Except PathFault FileSystem
  | .makeDirectory path => fs.makeDirectory path
  | .write path content => fs.write path content
  | .makeLink path target =>
    if (0 : UInt8) ∈ target then .error .embeddedNull else fs.make path fun _ => .link target
  | .makePipe path => fs.make path fun _ => .pipe
  | .remove path => fs.remove path
  | .rename source target => fs.rename source target

/-- What becomes of a file system under a change; one that is refused changes nothing. -/
def Change.apply (fs : FileSystem) (change : Change) : FileSystem :=
  match change.attempt fs with
  | .ok changed => changed
  | .error _ => fs

/-- What becomes of a file system under several changes. -/
def applyAll (fs : FileSystem) (changes : List Change) : FileSystem := changes.foldl Change.apply fs

theorem sound_attempt {fs changed : FileSystem} (hfs : fs.Sound) {change : Change}
    (h : change.attempt fs = .ok changed) : changed.Sound := by
  cases change with
  | makeDirectory path =>
    have hdirectory (above : Inode) : (Node.directory above []).Sound := ⟨by simp, by simp⟩
    exact sound_make hfs hdirectory h
  | write path content => exact sound_write hfs h
  | makeLink path target =>
    simp only [Change.attempt] at h
    split at h
    · cases h
    next hzero =>
    have hlink (_ : Inode) : (Node.link target).Sound := hzero
    exact sound_make hfs hlink h
  | makePipe path =>
    have hpipe (_ : Inode) : Node.pipe.Sound := trivial
    exact sound_make hfs hpipe h
  | remove path => exact sound_remove hfs h
  | rename source target => exact sound_rename hfs h

theorem sound_apply {fs : FileSystem} (hfs : fs.Sound) (change : Change) :
    (change.apply fs).Sound := by
  unfold Change.apply
  split
  · next changed h => exact sound_attempt hfs h
  · exact hfs

theorem sound_applyAll {fs : FileSystem} (hfs : fs.Sound) (changes : List Change) :
    (fs.applyAll changes).Sound := by
  unfold applyAll
  induction changes generalizing fs with
  | nil => exact hfs
  | cons change changes ih => exact ih (sound_apply hfs change)

theorem sound_empty : empty.Sound := by decide

end BundleManifest.FileSystem
