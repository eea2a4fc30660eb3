/-
# BundleManifest.Proofs.FileSystem.Publication — one file comes into its place

`Published` says that two file systems differ only in this: a name of a directory stands for a new
regular file in the second one, whatever it stood for in the first. Nothing else can be told apart by
asking for paths. Where a path led to the file that has been replaced, or to the free name, it leads
to the new file now, and every other path leads where it led before (`Published.locateFrom`). That
needs a `Whole` file system, in which nothing refers to a number that is not in use.
-/
import BundleManifest.Proofs.FileSystem.Canonical
import BundleManifest.Proofs.FileSystem.Tables
import BundleManifest.Proofs.FileSystem.Tree

namespace BundleManifest

/-- A place as the end of looking up. -/
def Place.arrival : Place → Arrival
  | .node i => .node i
  | .vacancy directory name => .vacancy directory name

namespace FileSystem

/-- Nothing is missing: the root, the working directory, every entry and the directory above every
directory are there, and no node has two names. -/
structure Whole (fs : FileSystem) : Prop where
  root : fs.kind? rootInode = some .directory
  here : fs.kind? fs.here = some .directory
  entry : ∀ {d i : Inode} {name : Bytes}, fs.Holds d name i → fs.node? i ≠ none
  listed_once : ∀ {d e i : Inode} {name other : Bytes}, fs.Holds d name i → fs.Holds e other i →
    d = e ∧ name = other
  parent : ∀ {d above : Inode} {entries : List (Bytes × Inode)},
    fs.node? d = some (.directory above entries) → fs.kind? above = some .directory

/-- A new regular file has come under a name of a directory, in place of what was there. -/
structure Published (fs gs : FileSystem) (d : Inode) (name : Bytes) (k : Inode) (content : Bytes) :
    Prop where
  here : gs.here = fs.here
  herePath : gs.herePath = fs.herePath
  unused : fs.node? k = none
  file : gs.node? k = some (.regular content)
  directory : ∃ above entries, fs.node? d = some (.directory above entries) ∧
    gs.node? d = some (.directory above (entries.filter (fun e => e.1 != name) ++ [(name, k)]))
  replaced : ∀ j, fs.Holds d name j → fs.kind? j ≠ some .directory ∧ gs.node? j = none
  others : ∀ i, i ≠ d → i ≠ k → ¬ fs.Holds d name i → gs.node? i = fs.node? i

/-- A node that is there and is not replaced. -/
structure Kept (fs : FileSystem) (d : Inode) (name : Bytes) (i : Inode) : Prop where
  used : fs.node? i ≠ none
  elsewhere : ¬ fs.Holds d name i

/-! ## Nodes -/

theorem lookup_filter_append {entries : List (Bytes × Inode)} {name other : Bytes} {k : Inode} :
    (entries.filter (fun e => e.1 != name) ++ [(name, k)]).lookup other
      = if other = name then some k else entries.lookup other := by
  rw [List.lookup_append]
  split
  · next h =>
    subst h
    have hnone : (entries.filter fun e => e.1 != other).lookup other = none := by
      rw [lookup_eq_none_iff, List.mem_map]
      rintro ⟨e, he, heq⟩
      simpa [heq] using (List.mem_filter.mp he).2
    rw [hnone]
    simp
  · next h =>
    have hname : (other == name) = false := by simpa using h
    have hkept : (entries.filter fun e => e.1 != name).lookup other = entries.lookup other := by
      induction entries with
      | nil => rfl
      | cons e entries ih =>
        obtain ⟨first, i⟩ := e
        by_cases hfirst : first = name
        · have hother : (other == first) = false := by simpa [hfirst] using h
          rw [List.filter_cons_of_neg (by simpa using hfirst), List.lookup_cons, hother]
          exact ih
        · rw [List.filter_cons_of_pos (by simpa using hfirst), List.lookup_cons, List.lookup_cons, ih]
    rw [hkept]
    simp [List.lookup_cons, hname]

/-- Looking up ends at a link in a directory. -/
theorem kind?_of_advance_link {fs : FileSystem} {followLast : Bool} {current d : Inode}
    {segments rest : List Bytes} {target : Bytes}
    (h : fs.advance followLast current segments = .ok (.link d target rest)) :
    fs.kind? d = some .directory :=
  (advance_link h).2.1

namespace Published

variable {fs gs : FileSystem} {d k : Inode} {name content : Bytes}

/-- What was there is not the new file. -/
theorem ne_file (h : fs.Published gs d name k content) {i : Inode} {node : Node}
    (hi : fs.node? i = some node) : i ≠ k := by
  rintro rfl
  rw [h.unused] at hi
  cases hi

/-- A directory is still one; only the name that has been given stands for something else. -/
theorem node?_directory (h : fs.Published gs d name k content) {i above : Inode}
    {entries : List (Bytes × Inode)} (hi : fs.node? i = some (.directory above entries)) :
    ∃ listed, gs.node? i = some (.directory above listed) ∧
      ∀ other, listed.lookup other
        = if i = d ∧ other = name then some k else entries.lookup other := by
  by_cases hid : i = d
  · subst hid
    obtain ⟨above', entries', hbefore, hafter⟩ := h.directory
    rw [hi] at hbefore
    cases hbefore
    refine ⟨_, hafter, fun other => ?_⟩
    rw [lookup_filter_append]
    simp
  · have hholds : ¬ fs.Holds d name i := fun hholds =>
      (h.replaced i hholds).1 (kind?_of_node? hi)
    refine ⟨entries, (h.others i hid (h.ne_file hi) hholds).trans hi, fun other => ?_⟩
    rw [if_neg fun hboth => hid hboth.1]

/-- What is neither a directory nor replaced is as it was. -/
theorem node?_other (h : fs.Published gs d name k content) {i : Inode} {node : Node}
    (hi : fs.node? i = some node) (hnode : node.kind ≠ .directory) (hholds : ¬ fs.Holds d name i) :
    gs.node? i = some node := by
  have hid : i ≠ d := by
    rintro rfl
    obtain ⟨above, entries, hbefore, -⟩ := h.directory
    rw [hi] at hbefore
    cases hbefore
    exact hnode rfl
  exact (h.others i hid (h.ne_file hi) hholds).trans hi

theorem kind?_kept (h : fs.Published gs d name k content) {i : Inode} {kind : NodeKind}
    (hi : fs.kind? i = some kind) (hholds : ¬ fs.Holds d name i) : gs.kind? i = some kind := by
  obtain ⟨node, hnode, rfl⟩ := Option.map_eq_some_iff.mp hi
  by_cases hkind : node.kind = .directory
  · obtain ⟨above, entries, hdirectory⟩ := node?_of_kind? (hkind ▸ hi)
    obtain ⟨listed, hlisted, -⟩ := h.node?_directory hdirectory
    rw [hkind]
    exact kind?_of_node? hlisted
  · exact kind?_of_node? (h.node?_other hnode hkind hholds)

/-- What is kept is of the kind that it was. -/
theorem kind?_eq (h : fs.Published gs d name k content) {i : Inode} (hi : fs.Kept d name i) :
    gs.kind? i = fs.kind? i := by
  obtain ⟨node, hnode⟩ := Option.ne_none_iff_exists'.mp hi.used
  have hkind : fs.kind? i = some node.kind := kind?_of_node? hnode
  rw [hkind, h.kind?_kept hkind hi.elsewhere]

end Published

/-! ## Answers -/

/-- How the place that a path names changes. -/
inductive Moved (fs : FileSystem) (d : Inode) (name : Bytes) (k : Inode) : Place → Place → Prop
  | kept {i : Inode} (h : fs.Kept d name i) : Moved fs d name k (.node i) (.node i)
  | replaced {j : Inode} (h : fs.Holds d name j) : Moved fs d name k (.node j) (.node k)
  | free {e : Inode} {other : Bytes} (h : ¬ (e = d ∧ other = name)) :
    Moved fs d name k (.vacancy e other) (.vacancy e other)
  | taken (h : ∀ j, ¬ fs.Holds d name j) : Moved fs d name k (.vacancy d name) (.node k)

/-- How the end of looking up changes. -/
inductive Ends (fs : FileSystem) (d : Inode) (name : Bytes) (k : Inode) : Arrival → Arrival → Prop
  | place {p q : Place} (h : Moved fs d name k p q) : Ends fs d name k p.arrival q.arrival
  | link {e : Inode} {target : Bytes} {rest : List Bytes} :
    Ends fs d name k (.link e target rest) (.link e target rest)

/-- How an answer changes. A path that goes on behind the new file asked for something missing before,
and takes a file for a directory now. -/
inductive Changed {α : Type} (R : α → α → Prop) : Except FileFault α → Except FileFault α → Prop
  | ok {a b : α} (h : R a b) : Changed R (.ok a) (.ok b)
  | same {fault : FileFault} : Changed R (.error fault) (.error fault)
  | behind : Changed R (.error .missing) (.error .notDirectory)

/-- Looking up segments ends in the same way in both file systems, up to the new file, unless it meets a
link that this file replaces. -/
def Parallel (fs gs : FileSystem) (d : Inode) (name : Bytes) (k : Inode) (followLast : Bool)
    (current : Inode) (segments : List Bytes) : Prop :=
  Changed (Ends fs d name k) (fs.advance followLast current segments)
    (gs.advance followLast current segments) ∨
  ∃ j target rest, fs.Holds d name j ∧ fs.node? j = some (.link target) ∧
    (rest = [] → followLast = true) ∧
    fs.advance followLast current segments = .ok (.link d target rest)

namespace Published

variable {fs gs : FileSystem} {d k : Inode} {name content : Bytes}

section
variable (hwhole : fs.Whole) (h : fs.Published gs d name k content) (followLast : Bool)
include hwhole h

/-- The name that has been given stands for the new file, whatever it has stood for. -/
theorem parallel_name {above : Inode} {entries listed : List (Bytes × Inode)}
    (hnode : fs.node? d = some (.directory above entries))
    (hlisted : gs.node? d = some (.directory above listed))
    (hlookup : listed.lookup name = some k) (hself : name ≠ Route.self) (hup : name ≠ Route.up)
    (hlength : ¬ Route.nameLimit < name.length) (rest : List Bytes) :
    Parallel fs gs d name k followLast d (name :: rest) := by
  unfold Parallel
  have hfile : (Node.regular content).kind ≠ .link := by simp [Node.kind]
  rw [advance_of_entry hlisted hself hup hlength hlookup h.file hfile,
    advance_of_not_directory h.file (by simp [Node.kind])]
  cases hold : entries.lookup name with
  | none =>
    rw [advance_of_free hnode hself hup hlength hold]
    refine Or.inl ?_
    split
    · refine .ok (.place (.taken fun j hholds => ?_))
      obtain ⟨listed', hlisted', hmem⟩ := hholds
      rw [entries?, hnode] at hlisted'
      cases hlisted'
      exact lookup_eq_none_iff.mp hold (List.mem_map_of_mem hmem)
    · exact .behind
  | some j =>
    have hholds := holds_of_lookup hnode hold
    obtain ⟨node, hj⟩ := Option.ne_none_iff_exists'.mp (hwhole.entry hholds)
    have hdirectory : node.kind ≠ .directory := by
      have hkind := (h.replaced j hholds).1
      simpa [kind?, hj] using hkind
    by_cases hlink : node.kind = .link
    · obtain ⟨target, rfl⟩ := exists_target hlink
      rw [advance_of_link hnode hself hup hlength hold hj]
      by_cases hlast : (rest = [] && !followLast) = true
      · obtain ⟨rfl, -⟩ : rest = [] ∧ followLast = false := by simpa using hlast
        rw [if_pos hlast, if_pos rfl]
        exact Or.inl (.ok (.place (.replaced hholds)))
      · rw [if_neg hlast]
        exact Or.inr ⟨j, target, rest, hholds, hj, by simpa using hlast, rfl⟩
    · rw [advance_of_entry hnode hself hup hlength hold hj hlink,
        advance_of_not_directory hj hdirectory]
      refine Or.inl ?_
      split
      · exact .ok (.place (.replaced hholds))
      · exact .same

/-- Every other name stands for what it stood for, and what is looked up in a directory that it names ends
in the same way if that does. -/
theorem parallel_other {current above : Inode} {segment : Bytes}
    {entries listed : List (Bytes × Inode)} (hother : ¬(current = d ∧ segment = name))
    (hnode : fs.node? current = some (.directory above entries))
    (hlisted : gs.node? current = some (.directory above listed))
    (hlookup : listed.lookup segment = entries.lookup segment) (hself : segment ≠ Route.self)
    (hup : segment ≠ Route.up) (hlength : ¬ Route.nameLimit < segment.length) {rest : List Bytes}
    (hrest : ∀ i, fs.kind? i = some .directory → Parallel fs gs d name k followLast i rest) :
    Parallel fs gs d name k followLast current (segment :: rest) := by
  unfold Parallel
  cases hfound : entries.lookup segment with
  | none =>
    rw [advance_of_free hnode hself hup hlength hfound,
      advance_of_free hlisted hself hup hlength (hlookup.trans hfound)]
    refine Or.inl ?_
    split
    · exact .ok (.place (.free hother))
    · exact .same
  | some i =>
    have hafter := hlookup.trans hfound
    have hholds := holds_of_lookup hnode hfound
    have hkept : ¬ fs.Holds d name i := fun hsame => hother (hwhole.listed_once hholds hsame)
    obtain ⟨node, hi⟩ := Option.ne_none_iff_exists'.mp (hwhole.entry hholds)
    by_cases hkind : node.kind = .directory
    · have hdirectory : fs.kind? i = some .directory := by rw [kind?_of_node? hi, hkind]
      obtain ⟨above', entries', hi'⟩ := node?_of_kind? hdirectory
      obtain ⟨listed', hlisted', -⟩ := h.node?_directory hi'
      rw [advance_of_entry hnode hself hup hlength hfound hi' (by simp [Node.kind]),
        advance_of_entry hlisted hself hup hlength hafter hlisted' (by simp [Node.kind])]
      exact hrest i hdirectory
    · have hi' := h.node?_other hi hkind hkept
      by_cases hlinked : node.kind = .link
      · obtain ⟨target, rfl⟩ := exists_target hlinked
        rw [advance_of_link hnode hself hup hlength hfound hi,
          advance_of_link hlisted hself hup hlength hafter hi']
        refine Or.inl ?_
        split
        · exact .ok (.place (.kept ⟨by simp [hi], hkept⟩))
        · exact .ok .link
      · rw [advance_of_entry hnode hself hup hlength hfound hi hlinked,
          advance_of_entry hlisted hself hup hlength hafter hi' hlinked,
          advance_of_not_directory hi hkind, advance_of_not_directory hi' hkind]
        refine Or.inl ?_
        split
        · exact .ok (.place (.kept ⟨by simp [hi], hkept⟩))
        · exact .same

/-- Looking up segments ends in the same way, from every directory. -/
theorem parallel {current : Inode} (hcurrent : fs.kind? current = some .directory)
    (segments : List Bytes) : Parallel fs gs d name k followLast current segments := by
  induction segments generalizing current with
  | nil =>
    obtain ⟨above, entries, hnode⟩ := node?_of_kind? hcurrent
    have hkept : fs.Kept d name current :=
      ⟨by simp [hnode], fun hholds => (h.replaced _ hholds).1 hcurrent⟩
    exact Or.inl (.ok (.place (.kept hkept)))
  | cons segment rest ih =>
    obtain ⟨above, entries, hnode⟩ := node?_of_kind? hcurrent
    obtain ⟨listed, hlisted, hlookup⟩ := h.node?_directory hnode
    by_cases hself : segment = Route.self
    · simp only [Parallel, FileSystem.advance, hnode, hlisted, if_pos hself]
      exact ih hcurrent
    by_cases hup : segment = Route.up
    · simp only [Parallel, FileSystem.advance, hnode, hlisted, if_neg hself, if_pos hup]
      exact ih (hwhole.parent hnode)
    by_cases hlength : Route.nameLimit < segment.length
    · simp only [Parallel, FileSystem.advance, hnode, hlisted, if_neg hself, if_neg hup,
        if_pos hlength]
      exact Or.inl .same
    by_cases hhere : current = d ∧ segment = name
    · obtain ⟨rfl, rfl⟩ := hhere
      exact h.parallel_name hwhole followLast hnode hlisted
        ((hlookup segment).trans (if_pos ⟨rfl, rfl⟩)) hself hup hlength rest
    · exact h.parallel_other hwhole followLast hhere hnode hlisted
        ((hlookup segment).trans (if_neg hhere)) hself hup hlength fun i hi => ih hi

end

section
variable (hwhole : fs.Whole) (h : fs.Published gs d name k content)
  (hlink : ∀ j, fs.Holds d name j → fs.kind? j ≠ some .link)
include hwhole h hlink

/-- Looking up segments ends in the same way, up to the new file. -/
theorem advance (followLast : Bool) {current : Inode} (hcurrent : fs.kind? current = some .directory)
    (segments : List Bytes) :
    Changed (Ends fs d name k) (fs.advance followLast current segments)
      (gs.advance followLast current segments) := by
  rcases h.parallel hwhole followLast hcurrent segments with
    hends | ⟨j, target, rest, hholds, hj, -⟩
  · exact hends
  · exact absurd (kind?_of_node? hj) (hlink j hholds)

/-- A path leads where it led before, up to the new file. -/
theorem locateFrom (followLast : Bool) (links : Nat) {current : Inode}
    (hcurrent : fs.kind? current = some .directory) (segments : List Bytes) :
    Changed (Moved fs d name k) (fs.locateFrom followLast links current segments)
      (gs.locateFrom followLast links current segments) := by
  induction links using Nat.strong_induction_on generalizing current segments with
  | _ links ih =>
    have hadvance := h.advance hwhole hlink followLast hcurrent segments
    generalize hbefore : fs.advance followLast current segments = before at hadvance
    generalize hafter : gs.advance followLast current segments = after at hadvance
    cases hadvance with
    | same =>
      rw [locateFrom_of_error hbefore, locateFrom_of_error hafter]
      exact .same
    | behind =>
      rw [locateFrom_of_error hbefore, locateFrom_of_error hafter]
      exact .behind
    | ok hends =>
      cases hends with
      | place hmoved =>
        cases hmoved with
        | kept hkept =>
          rw [locateFrom_of_node hbefore, locateFrom_of_node hafter]
          exact .ok (.kept hkept)
        | replaced hholds =>
          rw [locateFrom_of_node hbefore, locateFrom_of_node hafter]
          exact .ok (.replaced hholds)
        | free hfree =>
          rw [locateFrom_of_vacancy hbefore, locateFrom_of_vacancy hafter]
          exact .ok (.free hfree)
        | taken hfree =>
          rw [locateFrom_of_vacancy hbefore, locateFrom_of_node hafter]
          exact .ok (.taken hfree)
      | link =>
        rw [locateFrom_of_link hbefore, locateFrom_of_link hafter]
        cases links with
        | zero => exact .same
        | succ links =>
          refine ih links (Nat.lt_succ_self links) ?_ _
          split
          · exact hwhole.root
          · exact kind?_of_advance_link hbefore

theorem follow (followLast : Bool) (route : Route) :
    Changed (Moved fs d name k) (fs.follow followLast route) (gs.follow followLast route) := by
  unfold FileSystem.follow
  rw [h.here]
  refine h.locateFrom hwhole hlink followLast linkLimit ?_ route.steps
  split
  · exact hwhole.root
  · exact hwhole.here

/-- What a path names, before and after. -/
theorem locate (followLast : Bool) (path : Text) :
    (∃ p q, fs.locate followLast path = .ok p ∧ gs.locate followLast path = .ok q ∧
      Moved fs d name k p q) ∨
    (∃ e, fs.locate followLast path = .error e ∧ gs.locate followLast path = .error e) ∨
    fs.locate followLast path = .error (.fault .missing) ∧
      gs.locate followLast path = .error (.fault .notDirectory) := by
  unfold FileSystem.locate
  cases Route.ofText path with
  | error e => exact Or.inr (Or.inl ⟨e, rfl, rfl⟩)
  | ok route =>
    simp only [bind, Except.bind]
    have hfollow := h.follow hwhole hlink followLast route
    generalize fs.follow followLast route = before at hfollow
    generalize gs.follow followLast route = after at hfollow
    cases hfollow with
    | ok hmoved => exact Or.inl ⟨_, _, rfl, rfl, hmoved⟩
    | same => exact Or.inr (Or.inl ⟨_, rfl, rfl⟩)
    | behind => exact Or.inr (Or.inr ⟨rfl, rfl⟩)

/-- What a path leads to, before and after. -/
theorem find (followLast : Bool) (path : Text) :
    (∃ i, fs.find followLast path = .ok i ∧ fs.Kept d name i ∧ gs.find followLast path = .ok i) ∨
    (∃ j, fs.find followLast path = .ok j ∧ fs.Holds d name j ∧ gs.find followLast path = .ok k) ∨
    (∃ e, fs.find followLast path = .error e ∧ gs.find followLast path = .error e) ∨
    fs.find followLast path = .error (.fault .missing) ∧
      (gs.find followLast path = .ok k ∧ (∀ j, ¬ fs.Holds d name j) ∨
        gs.find followLast path = .error (.fault .notDirectory)) := by
  unfold FileSystem.find
  rcases h.locate hwhole hlink followLast path with
    ⟨p, q, hp, hq, hmoved⟩ | ⟨e, he, he'⟩ | ⟨hmissing, hbehind⟩
  · rw [hp, hq]
    cases hmoved with
    | kept hkept => exact Or.inl ⟨_, rfl, hkept, rfl⟩
    | replaced hholds => exact Or.inr (Or.inl ⟨_, rfl, hholds, rfl⟩)
    | free hfree => exact Or.inr (Or.inr (Or.inl ⟨_, rfl, rfl⟩))
    | taken hfree => exact Or.inr (Or.inr (Or.inr ⟨rfl, Or.inl ⟨rfl, hfree⟩⟩))
  · rw [he, he']
    exact Or.inr (Or.inr (Or.inl ⟨e, rfl, rfl⟩))
  · rw [hmissing, hbehind]
    exact Or.inr (Or.inr (Or.inr ⟨rfl, Or.inr rfl⟩))

/-- A path that leads to a node leads there afterwards, or to the new file in its place. -/
theorem stat_of_before {path : Text} {i : Inode} (hi : fs.stat path = .ok i) :
    fs.Kept d name i ∧ gs.stat path = .ok i ∨ fs.Holds d name i ∧ gs.stat path = .ok k := by
  unfold stat at hi ⊢
  rcases h.find hwhole hlink true path with
    ⟨j, hj, hkept, hafter⟩ | ⟨j, hj, hholds, hafter⟩ | ⟨e, he, -⟩ | ⟨he, -⟩
  · cases hi.symm.trans hj
    exact Or.inl ⟨hkept, hafter⟩
  · cases hi.symm.trans hj
    exact Or.inr ⟨hholds, hafter⟩
  · cases hi.symm.trans he
  · cases hi.symm.trans he

/-- A path that leads to a node has led there, unless that is the new file; what this has replaced is
then where the path has led. -/
theorem stat_of_after {path : Text} {i : Inode} (hi : gs.stat path = .ok i) :
    fs.Kept d name i ∧ fs.stat path = .ok i ∨
      i = k ∧ ((∃ j, fs.Holds d name j ∧ fs.stat path = .ok j) ∨ ∀ j, ¬ fs.Holds d name j) := by
  unfold stat at hi ⊢
  rcases h.find hwhole hlink true path with
    ⟨j, hj, hkept, hafter⟩ | ⟨j, hj, hholds, hafter⟩ | ⟨e, -, hafter⟩ |
      ⟨-, ⟨hafter, hfree⟩ | hafter⟩
  · cases hi.symm.trans hafter
    exact Or.inl ⟨hkept, hj⟩
  · cases hi.symm.trans hafter
    exact Or.inr ⟨rfl, Or.inl ⟨j, hholds, hj⟩⟩
  · cases hi.symm.trans hafter
  · cases hi.symm.trans hafter
    exact Or.inr ⟨rfl, Or.inr hfree⟩
  · cases hi.symm.trans hafter

/-- What does not lead to the new file is read as before. -/
theorem read_of_elsewhere {path : Text} (hpath : gs.stat path ≠ .ok k) :
    gs.read path = fs.read path ∨
      fs.read path = .error (.fault .missing) ∧ gs.read path = .error (.fault .notDirectory) := by
  unfold FileSystem.read
  unfold stat at hpath ⊢
  rcases h.find hwhole hlink true path with
    ⟨i, hi, hkept, hafter⟩ | ⟨j, -, -, hafter⟩ | ⟨e, he, hafter⟩ | ⟨he, ⟨hafter, -⟩ | hafter⟩
  · refine Or.inl ?_
    simp only [hi, hafter, bind, Except.bind]
    obtain ⟨node, hnode⟩ := Option.ne_none_iff_exists'.mp hkept.used
    by_cases hkind : node.kind = .directory
    · obtain ⟨above, entries, hdirectory⟩ :=
        node?_of_kind? (show fs.kind? i = some .directory by rw [kind?_of_node? hnode, hkind])
      obtain ⟨listed, hlisted, -⟩ := h.node?_directory hdirectory
      rw [hdirectory, hlisted]
    · rw [h.node?_other hnode hkind hkept.elsewhere, hnode]
  · exact absurd hafter hpath
  · exact Or.inl (by rw [he, hafter]; rfl)
  · exact absurd hafter hpath
  · exact Or.inr ⟨by rw [he]; rfl, by rw [hafter]; rfl⟩

/-- A path names a link with the same target, before and after. -/
theorem linkTarget? (path : Text) : gs.linkTarget? path = fs.linkTarget? path := by
  have hnew : gs.kind? k ≠ some .link := by simp [kind?, h.file, Node.kind]
  rcases h.find hwhole hlink false path with
    ⟨i, hi, hkept, hafter⟩ | ⟨j, hj, hholds, hafter⟩ | ⟨e, he, hafter⟩ |
      ⟨he, ⟨hafter, -⟩ | hafter⟩
  · by_cases hkind : fs.kind? i = some .link
    · obtain ⟨node, hnode, hlinked⟩ := Option.map_eq_some_iff.mp hkind
      obtain ⟨target, rfl⟩ := exists_target hlinked
      have hnode' := h.node?_other hnode (by simp [Node.kind]) hkept.elsewhere
      rw [linkTarget?_of_link hi hnode, linkTarget?_of_link hafter hnode']
    · have hkind' : gs.kind? i ≠ some .link := by rwa [h.kind?_eq hkept]
      rw [linkTarget?_of_other hi hkind, linkTarget?_of_other hafter hkind']
  · rw [linkTarget?_of_other hj (hlink j hholds), linkTarget?_of_other hafter hnew]
  · rw [linkTarget?_of_error he, linkTarget?_of_error hafter]
  · rw [linkTarget?_of_error he, linkTarget?_of_other hafter hnew]
  · rw [linkTarget?_of_error he, linkTarget?_of_error hafter]

/-- Links are replaced by the same targets, before and after. -/
theorem canonical (p : Path) : gs.canonical p = fs.canonical p := by
  unfold FileSystem.canonical FileSystem.absolute
  rw [unfold_congr (h.linkTarget? hwhole hlink), h.herePath]

theorem resolved (p : Path) : gs.resolved p = fs.resolved p := by
  unfold FileSystem.resolved stat
  rw [h.canonical hwhole hlink]
  split
  · rfl
  · next q hq =>
    rcases h.find hwhole hlink true q.text with
      ⟨i, hi, -, hafter⟩ | ⟨j, hj, -, hafter⟩ | ⟨e, he, hafter⟩ | ⟨he, ⟨hafter, -⟩ | hafter⟩
    · rw [hi, hafter]
    · rw [hj, hafter]
    · rw [he, hafter]
    · rw [he, hafter]
    · rw [he, hafter]

end

/-! ## Entries -/

theorem unused_of_holds (hwhole : fs.Whole) (h : fs.Published gs d name k content) {e i : Inode}
    {other : Bytes} (hholds : fs.Holds e other i) : i ≠ k := by
  rintro rfl
  exact hwhole.entry hholds h.unused

/-- A directory now has been one before, with the same one above. -/
theorem node?_directory_of_after (h : fs.Published gs d name k content) {e above : Inode}
    {listed : List (Bytes × Inode)} (he : gs.node? e = some (.directory above listed)) :
    ∃ entries, fs.node? e = some (.directory above entries) ∧ ∀ other i, (other, i) ∈ listed ↔
      e = d ∧ other = name ∧ i = k ∨ ¬ (e = d ∧ other = name) ∧ (other, i) ∈ entries := by
  by_cases hed : e = d
  · subst hed
    obtain ⟨above', entries, hbefore, hafter⟩ := h.directory
    rw [he] at hafter
    cases hafter
    refine ⟨entries, hbefore, fun other i => ?_⟩
    rw [List.mem_append, List.mem_filter, List.mem_singleton, Prod.mk.injEq]
    simp only [true_and, bne_iff_ne, ne_eq]
    tauto
  · have hek : e ≠ k := by
      rintro rfl
      rw [h.file] at he
      cases he
    have hkept : ¬ fs.Holds d name e := by
      intro hholds
      rw [(h.replaced e hholds).2] at he
      cases he
    rw [h.others e hed hek hkept] at he
    exact ⟨listed, he, fun other i => by simp [hed]⟩

/-- What the directories hold now: the new file under its name, and what they held before under all
other names. -/
theorem holds_iff (h : fs.Published gs d name k content) {e i : Inode} {other : Bytes} :
    gs.Holds e other i ↔
      e = d ∧ other = name ∧ i = k ∨ ¬ (e = d ∧ other = name) ∧ fs.Holds e other i := by
  constructor
  · intro hafter
    obtain ⟨above, listed, he⟩ := node?_of_kind? hafter.kind
    obtain ⟨entries, hbefore, hmem⟩ := h.node?_directory_of_after he
    obtain ⟨listed', hlisted', hmem'⟩ := hafter
    rw [entries?, he] at hlisted'
    cases hlisted'
    refine Or.imp_right (And.imp_right fun hin => ?_) ((hmem other i).mp hmem')
    exact ⟨entries, by rw [entries?, hbefore], hin⟩
  · intro hcases
    -- either way the directory was one before
    obtain ⟨above, entries, he⟩ : ∃ above entries, fs.node? e = some (.directory above entries) := by
      rcases hcases with ⟨rfl, -, -⟩ | ⟨-, hbefore⟩
      · obtain ⟨above, entries, hd, -⟩ := h.directory
        exact ⟨above, entries, hd⟩
      · exact node?_of_kind? hbefore.kind
    obtain ⟨listed, hlisted, -⟩ := h.node?_directory he
    obtain ⟨entries', he', hmem⟩ := h.node?_directory_of_after hlisted
    rw [he] at he'
    cases he'
    refine ⟨listed, by rw [entries?, hlisted], (hmem other i).mpr ?_⟩
    refine Or.imp_right (And.imp_right fun hbefore => ?_) hcases
    obtain ⟨entries', hentries', hin⟩ := hbefore
    rw [entries?, he] at hentries'
    cases hentries'
    exact hin

/-- Nothing is missing afterwards. -/
theorem whole (hwhole : fs.Whole) (h : fs.Published gs d name k content) : gs.Whole where
  root := h.kind?_kept hwhole.root fun hholds => (h.replaced _ hholds).1 hwhole.root
  here := by
    rw [h.here]
    exact h.kind?_kept hwhole.here fun hholds => (h.replaced _ hholds).1 hwhole.here
  entry := by
    intro e i other hafter
    rcases h.holds_iff.mp hafter with ⟨-, -, rfl⟩ | ⟨helsewhere, hbefore⟩
    · rw [h.file]
      simp
    · have hkept : ¬ fs.Holds d name i := fun hother =>
        helsewhere (hwhole.listed_once hbefore hother)
      obtain ⟨node, hi⟩ := Option.ne_none_iff_exists'.mp (hwhole.entry hbefore)
      have hkind := h.kind?_kept (kind?_of_node? hi) hkept
      intro hnone
      rw [kind?, hnone] at hkind
      cases hkind
  listed_once := by
    intro e f i other another he hf
    rcases h.holds_iff.mp he with ⟨rfl, rfl, rfl⟩ | ⟨-, he⟩
    · rcases h.holds_iff.mp hf with ⟨rfl, rfl, -⟩ | ⟨-, hf⟩
      · exact ⟨rfl, rfl⟩
      · exact absurd rfl (h.unused_of_holds hwhole hf)
    · rcases h.holds_iff.mp hf with ⟨rfl, rfl, rfl⟩ | ⟨-, hf⟩
      · exact absurd rfl (h.unused_of_holds hwhole he)
      · exact hwhole.listed_once he hf
  parent := by
    intro e above listed he
    obtain ⟨entries, hbefore, -⟩ := h.node?_directory_of_after he
    have habove := hwhole.parent hbefore
    exact h.kind?_kept habove fun hholds => (h.replaced _ hholds).1 habove

end Published

end FileSystem

end BundleManifest
