/-
# BundleManifest.Proofs.FileSystem.Emptied — what does not depend on what files hold

`emptied` is a file system with nothing in its regular files. All that is asked of a file system, except for
the content of a file, has the same answer there: where paths lead, what directories list, which targets
links have (`locate_emptied`, `scan_emptied`, `resolved_emptied`). And what is changed can be emptied before
or after the change (`write_emptied`, `rename_emptied`). So two file systems that are the same when they are
emptied can be told apart by reading files only.
-/
import BundleManifest.FileSystem.Change
import BundleManifest.Proofs.FileSystem.Canonical
import BundleManifest.Proofs.FileSystem.Tables

namespace BundleManifest

/-- A node with nothing in it, if it is a regular file. -/
def Node.emptied : Node → Node
  | regular _ => regular []
  | node => node

@[simp] theorem Node.kind_emptied (node : Node) : node.emptied.kind = node.kind := by
  cases node <;> rfl

namespace FileSystem

/-- The file system with nothing in its regular files. -/
def emptied (fs : FileSystem) : FileSystem :=
  { fs with nodes := fs.nodes.map fun e => (e.1, e.2.emptied) }

/-! ## Looking up -/

section
variable (fs : FileSystem)

@[simp] theorem here_emptied : fs.emptied.here = fs.here := rfl

@[simp] theorem herePath_emptied : fs.emptied.herePath = fs.herePath := rfl

@[simp] theorem node?_emptied (i : Inode) : fs.emptied.node? i = (fs.node? i).map Node.emptied := by
  unfold node? emptied
  induction fs.nodes with
  | nil => rfl
  | cons e nodes ih =>
    rw [List.map_cons, List.lookup_cons, List.lookup_cons]
    cases i == e.1 with
    | true => rfl
    | false => exact ih

@[simp] theorem kind?_emptied (i : Inode) : fs.emptied.kind? i = fs.kind? i := by
  unfold kind?
  rw [node?_emptied, Option.map_map]
  exact congrArg (Option.map · _) (funext Node.kind_emptied)

@[simp] theorem entries?_emptied (i : Inode) : fs.emptied.entries? i = fs.entries? i := by
  unfold entries?
  rw [node?_emptied]
  cases fs.node? i with
  | none => rfl
  | some node => cases node <;> rfl

theorem advance_emptied (followLast : Bool) (current : Inode) (segments : List Bytes) :
    fs.emptied.advance followLast current segments = fs.advance followLast current segments := by
  induction segments generalizing current with
  | nil => rfl
  | cons segment rest ih =>
    unfold advance
    simp only [ih, node?_emptied]
    cases fs.node? current with
    | none => rfl
    | some node =>
      cases node with
      | directory parent entries =>
        simp only [Option.map_some, Node.emptied]
        cases entries.lookup segment with
        | none => rfl
        | some i =>
          dsimp only
          cases fs.node? i with
          | none => rfl
          | some node => cases node <;> rfl
      | _ => rfl

theorem locateFrom_emptied (followLast : Bool) (links : Nat) (current : Inode)
    (segments : List Bytes) :
    fs.emptied.locateFrom followLast links current segments
      = fs.locateFrom followLast links current segments := by
  induction links generalizing current segments with
  | zero =>
    unfold locateFrom
    rw [advance_emptied]
  | succ links ih =>
    unfold locateFrom
    simp only [advance_emptied, ih]

theorem follow_emptied (followLast : Bool) (route : Route) :
    fs.emptied.follow followLast route = fs.follow followLast route :=
  fs.locateFrom_emptied ..

theorem locate_emptied (followLast : Bool) (path : Text) :
    fs.emptied.locate followLast path = fs.locate followLast path := by
  unfold locate
  simp only [follow_emptied]

theorem find_emptied (followLast : Bool) (path : Text) :
    fs.emptied.find followLast path = fs.find followLast path := by
  unfold find
  rw [locate_emptied]

theorem stat_emptied (path : Text) : fs.emptied.stat path = fs.stat path := fs.find_emptied true path

theorem probe_emptied (path : Text) : fs.emptied.probe path = fs.probe path := by
  unfold probe
  simp only [stat_emptied, kind?_emptied]

theorem listing_emptied (entries : List (Bytes × Inode)) :
    fs.emptied.listing entries = fs.listing entries := by
  unfold listing
  simp only [kind?_emptied]

theorem scan_emptied (path : Text) : fs.emptied.scan path = fs.scan path := by
  unfold scan
  simp only [stat_emptied, entries?_emptied, listing_emptied]

theorem linkTarget?_emptied (path : Text) : fs.emptied.linkTarget? path = fs.linkTarget? path := by
  unfold linkTarget? lstat
  rw [find_emptied]
  cases fs.find false path with
  | error e => cases e <;> rfl
  | ok i =>
    simp only [node?_emptied]
    cases fs.node? i with
    | none => rfl
    | some node => cases node <;> rfl

theorem resolved_emptied (p : Path) : fs.emptied.resolved p = fs.resolved p := by
  have hcanonical : fs.emptied.canonical p = fs.canonical p := by
    unfold canonical
    rw [unfold_congr fs.linkTarget?_emptied]
    rfl
  unfold resolved
  simp only [hcanonical, stat_emptied]

/-! ## Changes -/

theorem setNode_emptied (i : Inode) (node : Node) :
    (fs.setNode i node).emptied = fs.emptied.setNode i node.emptied := by
  unfold setNode emptied
  simp only [List.map_map]
  congr 2
  funext e
  show (_, Node.emptied _) = _
  simp only [Function.comp_apply]
  split <;> rfl

theorem addNode_emptied (i : Inode) (node : Node) :
    (fs.addNode i node).emptied = fs.emptied.addNode i node.emptied := by
  simp [addNode, emptied]

theorem dropNode_emptied (i : Inode) : (fs.dropNode i).emptied = fs.emptied.dropNode i := by
  simp [dropNode, emptied, List.filter_map, Function.comp_def]

theorem mapEntries_emptied (d : Inode) (f : List (Bytes × Inode) → List (Bytes × Inode)) :
    (fs.mapEntries d f).emptied = fs.emptied.mapEntries d f := by
  unfold mapEntries
  rw [node?_emptied]
  cases fs.node? d with
  | none => rfl
  | some node =>
    cases node with
    | directory parent entries => exact fs.setNode_emptied ..
    | _ => rfl

theorem dropEntry_emptied (d : Inode) (name : Bytes) :
    (fs.dropEntry d name).emptied = fs.emptied.dropEntry d name :=
  fs.mapEntries_emptied ..

theorem fresh_emptied : fs.emptied.fresh = fs.fresh := by
  unfold fresh emptied
  rw [List.foldl_map]

theorem addEntry_emptied (d : Inode) (name : Bytes) (node : Node) :
    (fs.addEntry d name node).emptied = fs.emptied.addEntry d name node.emptied := by
  unfold addEntry
  rw [addNode_emptied, mapEntries_emptied, fresh_emptied]

theorem make_emptied (path : Text) (node : Inode → Node) :
    (fs.make path node).map emptied = fs.emptied.make path fun above => (node above).emptied := by
  unfold make
  rw [locate_emptied]
  cases fs.locate false path with
  | error e => rfl
  | ok place =>
    cases place with
    | node i => rfl
    | vacancy d name => exact congrArg Except.ok (fs.addEntry_emptied ..)

theorem write_emptied (path : Text) (content : Bytes) :
    (fs.write path content).map emptied = fs.emptied.write path [] := by
  unfold write
  rw [locate_emptied]
  cases fs.locate true path with
  | error e => rfl
  | ok place =>
    cases place with
    | vacancy d name => exact congrArg Except.ok (fs.addEntry_emptied ..)
    | node i =>
      simp only [bind, Except.bind, node?_emptied]
      cases fs.node? i with
      | none => rfl
      | some node =>
        cases node with
        | directory parent entries => rfl
        | regular content => exact congrArg Except.ok (fs.setNode_emptied ..)
        | _ => rfl

theorem site_emptied (route : Route) : fs.emptied.site route = fs.site route := by
  unfold site
  simp only [follow_emptied, entries?_emptied]

theorem occupant_emptied (d : Inode) (name : Bytes) : fs.emptied.occupant d name = fs.occupant d name := by
  unfold occupant
  rw [entries?_emptied]

theorem encloses_emptied (outer : Inode) (fuel : Nat) (inner : Inode) :
    fs.emptied.encloses outer fuel inner = fs.encloses outer fuel inner := by
  induction fuel generalizing inner with
  | zero => rfl
  | succ fuel ih =>
    unfold encloses
    simp only [node?_emptied, ih]
    cases fs.node? inner with
    | none => rfl
    | some node => cases node <;> rfl

theorem unlink_emptied (d : Inode) (name : Bytes) (i : Inode) :
    (fs.unlink d name i).emptied = fs.emptied.unlink d name i := by
  unfold unlink
  rw [dropNode_emptied, dropEntry_emptied]

theorem relink_emptied (i d e : Inode) (name other : Bytes) :
    (fs.relink i d name e other).emptied = fs.emptied.relink i d name e other := by
  unfold relink
  extract_lets dropped moved dropped' moved'
  have hdropped : dropped.emptied = dropped' := fs.dropEntry_emptied ..
  have hmoved : moved.emptied = moved' := by
    unfold moved moved'
    rw [← hdropped, node?_emptied]
    cases dropped.node? i with
    | none => rfl
    | some node =>
      cases node with
      | directory above entries => exact dropped.setNode_emptied ..
      | _ => rfl
  rw [← hmoved]
  exact moved.mapEntries_emptied ..

theorem length_nodes_emptied : fs.emptied.nodes.length = fs.nodes.length := List.length_map _

theorem move_emptied (slashed : Bool) (d e : Inode) (name other : Bytes) :
    (fs.move slashed d name e other).map emptied = fs.emptied.move slashed d name e other := by
  unfold move
  simp only [occupant_emptied, kind?_emptied, entries?_emptied, encloses_emptied, length_nodes_emptied]
  cases fs.occupant d name with
  | error e => rfl
  | ok found =>
    cases found with
    | none => rfl
    | some i =>
      cases fs.occupant e other with
      | error e => rfl
      | ok replaced? =>
        simp only [bind, Except.bind, pure, Except.pure]
        split
        · rfl
        split
        · rfl
        cases replaced? with
        | none => exact congrArg Except.ok (fs.relink_emptied ..)
        | some j =>
          dsimp only
          split
          · rfl
          split
          · rfl
          have hrenamed : ((fs.unlink e other j).relink i d name e other).emptied
              = (fs.emptied.unlink e other j).relink i d name e other := by
            rw [relink_emptied, unlink_emptied]
          (repeat' split) <;> first | rfl | exact congrArg Except.ok hrenamed

theorem rename_emptied (source target : Text) :
    (fs.rename source target).map emptied = fs.emptied.rename source target := by
  unfold rename
  simp only [site_emptied]
  cases Route.ofText source with
  | error e => rfl
  | ok before =>
    cases Route.ofText target with
    | error e => rfl
    | ok after =>
      cases hbefore : fs.site before with
      | error e => 
        simp only [bind, Except.bind, hbefore]
        rfl
      | ok place =>
        cases hafter : fs.site after with
        | error e => 
          simp only [bind, Except.bind, hbefore, hafter]
          rfl
        | ok goal =>
          simp only [bind, Except.bind, hbefore, hafter, Except.mapError]
          cases place.name? with
          | none => rfl
          | some fromName =>
            cases goal.name? with
            | none => rfl
            | some toName =>
              dsimp only
              rw [← move_emptied]
              cases fs.move (before.slashed || after.slashed) place.directory fromName goal.directory
                toName <;> rfl

end

/-- What is written to a regular file makes no difference. -/
theorem emptied_setNode {fs : FileSystem} (hnumbers : fs.numbers.Nodup) {i : Inode} {content : Bytes}
    (h : fs.node? i = some (.regular content)) (bytes : Bytes) :
    (fs.setNode i (.regular bytes)).emptied = fs.emptied := by
  rw [setNode_emptied]
  unfold setNode emptied
  rw [List.map_map]
  congr 1
  apply List.map_congr_left
  intro e he
  show (if e.1 = i then (i, Node.regular []) else (e.1, e.2.emptied)) = (e.1, e.2.emptied)
  split
  · next hi =>
    obtain rfl := List.inj_on_of_nodup_map hnumbers he (mem_nodes_of_node? h) hi
    rfl
  · rfl

theorem locate_of_stat {fs : FileSystem} {path : Text} {i : Inode} (h : fs.stat path = .ok i) :
    fs.locate true path = .ok (.node i) := by
  unfold stat find at h
  cases hlocate : fs.locate true path with
  | error e =>
    rw [hlocate] at h
    cases h
  | ok place =>
    rw [hlocate] at h
    cases place with
    | node j =>
      obtain rfl : j = i := Except.ok.inj h
      rfl
    | vacancy d name => cases h

/-- A file that is not empty can be emptied: nothing else changes, and then there is nothing to read. -/
theorem exists_write_of_read {fs : FileSystem} (hnumbers : fs.numbers.Nodup) {path : Text}
    {content : Bytes} (hcontent : content ≠ []) (h : fs.read path = .ok content) :
    ∃ bare, fs.write path [] = .ok bare ∧ bare.emptied = fs.emptied ∧ bare.read path = .ok [] := by
  unfold read at h
  cases hstat : fs.stat path with
  | error e =>
    rw [hstat] at h
    cases h
  | ok i =>
    have hnode : fs.node? i = some (.regular content) := by
      rw [hstat] at h
      simp only [bind, Except.bind] at h
      split at h
      · next found hfound =>
        rw [hfound, Except.ok.inj h]
      · cases h
      · exact absurd (Except.ok.inj h).symm hcontent
      · cases h
    have hsame := emptied_setNode hnumbers hnode []
    refine ⟨fs.setNode i (.regular []), ?_, hsame, ?_⟩
    · unfold write
      rw [locate_of_stat hstat]
      simp only [bind, Except.bind, hnode]
      rfl
    · have hstat' : (fs.setNode i (.regular [])).stat path = .ok i := by
        rw [← stat_emptied, hsame, stat_emptied, hstat]
      unfold read
      rw [hstat']
      simp only [bind, Except.bind, node?_setNode_eq, hnode]
      rfl

end FileSystem

end BundleManifest
