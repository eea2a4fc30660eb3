/-
# BundleManifest.Proofs.FileSystem.Pruning — directories that are removed with all that is in them

Removing a path takes one entry away, and the nodes in and below what it stood for
(`exists_of_remove`). What is left is a part of what was there (`partOf_prune`). A file system is
`Thinned` when some of its nodes may be lost, with all that is below them, and everything else is still
in its place. Removing a node that may be lost leaves it thinned (`Thinned.apply_remove`), and so does
any number of removals. What is not lost is found under the same names (`Thinned.below`), and so is
what a path leads down to (`Thinned.stat`).
-/
import BundleManifest.Proofs.FileSystem.Parts
import BundleManifest.Proofs.FileSystem.Passage
import BundleManifest.Proofs.FileSystem.Renaming

namespace BundleManifest.FileSystem

variable {fs : FileSystem}

/-! ## Names below a directory -/

/-- A node lies below a directory under one list of names. -/
theorem Below.unique (hwhole : fs.Whole) (htree : fs.Tree) {d i : Inode} {names others : List Bytes}
    (h : fs.Below d names i) (h' : fs.Below d others i) : names = others := by
  -- from the last name up: the directory that lists the node is the same
  induction names using List.reverseRecOn generalizing others i with
  | nil => exact absurd rfl h.ne_nil
  | append_singleton names name ih =>
    obtain ⟨front, last, e, hnames, hholds, hfront⟩ := h.exists_last
    obtain ⟨rfl, hlast⟩ := List.append_inj' hnames rfl
    obtain rfl := List.singleton_inj.mp hlast
    obtain ⟨front', last', e', rfl, hholds', hfront'⟩ := h'.exists_last
    obtain ⟨rfl, rfl⟩ := hwhole.listed_once hholds hholds'
    rcases hfront with ⟨rfl, rfl⟩ | hfront
    · rcases hfront' with ⟨rfl, -⟩ | hfront'
      · rfl
      · exact absurd hfront' htree.not_below
    · rcases hfront' with ⟨rfl, rfl⟩ | hfront'
      · exact absurd hfront htree.not_below
      · rw [ih hfront hfront']

theorem mem_children_iff {nodes : List Inode} {i : Inode} :
    i ∈ (nodes.flatMap fun d => ((fs.entries? d).getD []).map (·.2)) ↔
      ∃ d ∈ nodes, ∃ name, fs.Holds d name i := by
  rw [List.mem_flatMap]
  constructor
  · rintro ⟨d, hd, hi⟩
    obtain ⟨⟨name, j⟩, hmem, rfl⟩ := List.mem_map.mp hi
    cases hentries : fs.entries? d with
    | none => simp [hentries] at hmem
    | some entries =>
      rw [hentries] at hmem
      exact ⟨d, hd, name, entries, hentries, hmem⟩
  · rintro ⟨d, hd, name, entries, hentries, hmem⟩
    refine ⟨d, hd, List.mem_map.mpr ⟨(name, i), ?_, rfl⟩⟩
    rw [hentries]
    exact hmem

theorem mem_below_of_mem {depth : Nat} {nodes : List Inode} {i : Inode} (hi : i ∈ nodes) :
    i ∈ fs.below depth nodes := by
  cases depth with
  | zero => exact hi
  | succ depth => exact List.mem_append_left _ hi

/-- What lies below one of some nodes is found if one goes deep enough. -/
theorem mem_below_of_below {depth : Nat} {nodes : List Inode} {d i : Inode} {names : List Bytes}
    (h : fs.Below d names i) (hd : d ∈ nodes) (hdepth : names.length ≤ depth) :
    i ∈ fs.below depth nodes := by
  induction h generalizing depth nodes with
  | @entry d i name hholds =>
    cases depth with
    | zero => exact absurd hdepth (by simp)
    | succ depth =>
      rw [below, List.mem_append]
      exact Or.inr (mem_below_of_mem (mem_children_iff.mpr ⟨d, hd, name, hholds⟩))
  | @deeper d e i name names hholds _ ih =>
    cases depth with
    | zero => exact absurd hdepth (by simp)
    | succ depth =>
      rw [below, List.mem_append]
      have hlength : names.length ≤ depth := Nat.le_of_succ_le_succ hdepth
      exact Or.inr (ih (mem_children_iff.mpr ⟨d, hd, name, hholds⟩) hlength)

/-- What is in or below some nodes is one of them or lies below one. -/
theorem exists_below_of_mem {depth : Nat} {nodes : List Inode} {i : Inode}
    (h : i ∈ fs.below depth nodes) : i ∈ nodes ∨ ∃ d ∈ nodes, ∃ names, fs.Below d names i := by
  induction depth generalizing nodes with
  | zero => exact Or.inl h
  | succ depth ih =>
    rw [below, List.mem_append] at h
    rcases h with h | h
    · exact Or.inl h
    · refine Or.inr ?_
      rcases ih h with hchild | ⟨c, hc, names, hbelow⟩
      · obtain ⟨d, hd, name, hholds⟩ := mem_children_iff.mp hchild
        exact ⟨d, hd, [name], .entry hholds⟩
      · obtain ⟨d, hd, name, hholds⟩ := mem_children_iff.mp hc
        exact ⟨d, hd, name :: names, .deeper hholds hbelow⟩

/-- What is in or below some nodes, and none of them, is listed by something in or below them. -/
theorem exists_holds_of_mem_below {depth : Nat} {nodes : List Inode} {i : Inode}
    (h : i ∈ fs.below depth nodes) :
    i ∈ nodes ∨ ∃ d ∈ fs.below depth nodes, ∃ name, fs.Holds d name i := by
  induction depth generalizing nodes with
  | zero => exact Or.inl h
  | succ depth ih =>
    rw [below, List.mem_append] at h
    rcases h with h | h
    · exact Or.inl h
    · refine Or.inr ?_
      rcases ih h with hchild | ⟨d, hd, hholds⟩
      · obtain ⟨d, hd, hholds⟩ := mem_children_iff.mp hchild
        exact ⟨d, List.mem_append_left _ hd, hholds⟩
      · exact ⟨d, List.mem_append_right _ hd, hholds⟩

/-! ## Taking away -/

theorem holds_dropEntry_iff {d e i : Inode} {name other : Bytes} :
    (fs.dropEntry d name).Holds e other i ↔ fs.Holds e other i ∧ ¬(e = d ∧ other = name) := by
  unfold Holds dropEntry
  rw [entries?_mapEntries]
  by_cases h : e = d
  · subst h
    cases fs.entries? e <;> simp
  · simp [h]

/-- The file system without an entry and without some nodes. -/
def prune (fs : FileSystem) (d : Inode) (name : Bytes) (gone : List Inode) : FileSystem :=
  let left := fs.dropEntry d name
  { left with nodes := left.nodes.filter fun e => !gone.contains e.1 }

theorem unlink_eq_prune (fs : FileSystem) (d i : Inode) (name : Bytes) :
    fs.unlink d name i = fs.prune d name [i] := by
  unfold unlink dropNode prune
  congr 2
  funext e
  simp [bne, Bool.beq_eq_decide_eq]

section
variable {d : Inode} {name : Bytes} {gone : List Inode}

theorem node?_prune_eq (i : Inode) :
    (fs.prune d name gone).node? i
      = if i ∈ gone then none else (fs.dropEntry d name).node? i := by
  unfold prune node?
  rw [lookup_filter _ fun i => !gone.contains i]
  by_cases hi : i ∈ gone
  · simp [hi]
  · simp [hi]

theorem holds_prune_iff {e i : Inode} {other : Bytes} :
    (fs.prune d name gone).Holds e other i ↔
      fs.Holds e other i ∧ e ∉ gone ∧ ¬(e = d ∧ other = name) := by
  have hdropped : (fs.dropEntry d name).Holds e other i ↔
      fs.Holds e other i ∧ ¬(e = d ∧ other = name) := holds_dropEntry_iff
  unfold Holds entries? at hdropped ⊢
  rw [node?_prune_eq]
  by_cases hgone : e ∈ gone
  · simp [hgone]
  · rw [if_neg hgone, hdropped]
    simp [hgone]

theorem kind?_prune (i : Inode) :
    (fs.prune d name gone).kind? i = if i ∈ gone then none else fs.kind? i := by
  have hdropped := fs.kind?_mapEntries i d fun entries => entries.filter fun e => e.1 != name
  unfold kind? at hdropped ⊢
  rw [node?_prune_eq]
  split
  · rfl
  · exact hdropped

/-- What is left keeps nothing that has gone: each node that has gone was listed by another one, or
under the entry that has been taken away. -/
theorem partOf_prune {i : Inode} (hentry : ∀ {d i name}, fs.Holds d name i → fs.node? i ≠ none)
    (honce : ∀ {d e i name other}, fs.Holds d name i → fs.Holds e other i → d = e ∧ name = other)
    (hholds : fs.Holds d name i)
    (hgone : ∀ j ∈ gone, j = i ∨ ∃ e ∈ gone, ∃ other, fs.Holds e other j) :
    (fs.prune d name gone).PartOf fs where
  here := here_mapEntries ..
  node := by
    intro j node hj
    rw [node?_prune_eq] at hj
    split at hj
    · cases hj
    rw [dropEntry, node?_mapEntries_eq] at hj
    split at hj
    · next heq =>
      subst heq
      obtain ⟨whole, hwhole, rfl⟩ := Option.map_eq_some_iff.mp hj
      refine ⟨whole, hwhole, ?_⟩
      cases whole with
      | directory above entries => exact .directory (List.filter_subset_self _)
      | regular content => exact .refl _
      | link target => exact .refl _
      | pipe => exact .refl _
      | device => exact .refl _
    · exact ⟨node, hj, .refl node⟩
  entry := by
    intro e j other hleft
    obtain ⟨hj, he, hother⟩ := holds_prune_iff.mp hleft
    rw [node?_prune_eq, dropEntry, node?_mapEntries_eq]
    split
    · next hmem =>
      rcases hgone j hmem with rfl | ⟨a, ha, another, hlisted⟩
      · exact absurd (honce hj hholds) hother
      · obtain ⟨rfl, -⟩ := honce hj hlisted
        exact absurd ha he
    · split
      · next heq =>
        subst heq
        simpa using hentry hj
      · exact hentry hj

end

theorem sound_prune (hfs : fs.Sound) (d : Inode) (name : Bytes) (gone : List Inode) :
    (fs.prune d name gone).Sound :=
  sound_filter (sound_dropEntry hfs)

/-- A removal that succeeds finds the node under the last name of the path. After a slash the node is
a directory. -/
theorem eq_prune_of_remove {path : Text} {left : FileSystem} (h : fs.remove path = .ok left) :
    ∃ route d name i, Route.ofText path = .ok route ∧ fs.site route = .ok ⟨d, some name⟩ ∧
      fs.Holds d name i ∧ (route.slashed = true → fs.kind? i = some .directory) ∧
      left = fs.prune d name (fs.below fs.nodes.length [i]) := by
  obtain ⟨route, d, name, i, hroute, hsite, hoccupant, hdirectory, rfl⟩ :=
    exists_occupant_of_remove h
  exact ⟨route, d, name, i, hroute, hsite, holds_of_occupant hoccupant, hdirectory, rfl⟩

/-- Removing a path takes away the entry of the node that the path names, and the nodes in and below
that node. -/
theorem exists_of_remove (hfs : fs.Sound)
    (hentry : ∀ {d i name}, fs.Holds d name i → fs.node? i ≠ none) {path : Text}
    {left : FileSystem} (h : fs.remove path = .ok left) :
    ∃ d name i, fs.Holds d name i ∧ fs.lstat path = .ok i ∧
      left = fs.prune d name (fs.below fs.nodes.length [i]) := by
  obtain ⟨route, d, name, i, hroute, hsite, hholds, hdirectory, hleft⟩ := eq_prune_of_remove h
  refine ⟨d, name, i, hholds, ?_, hleft⟩
  cases hslashed : route.slashed with
  | false =>
    obtain ⟨node, hnode⟩ := Option.ne_none_iff_exists'.mp (hentry hholds)
    exact (endsAt_of_site hroute hslashed hsite).find_of_holds hfs hholds hnode (Or.inl rfl)
  | true =>
    obtain ⟨before, hsegments, -, -, -, hbefore⟩ := exists_of_site hsite
    have hi := hdirectory hslashed
    obtain ⟨above, entries, hnode⟩ := node?_of_kind? hi
    -- the point after the slash leads from the directory to itself
    have hadvance : fs.advance false d [name, Route.self] = .ok (.node i) := by
      rw [hholds.advance hfs (by simp [hi])]
      simp [advance, hnode]
    have hsteps : route.steps = before ++ [name, Route.self] := by
      rw [Route.steps, hsegments, hslashed]
      simp
    refine find_eq_ok_iff.mpr ⟨route, hroute, ?_⟩
    rw [follow_eq, hsteps]
    rcases locateFrom_append fs false linkLimit (fs.start route) before
      (List.cons_ne_nil name [Route.self]) with ⟨e, links, he, happend⟩ | ⟨hnone, -⟩
    · cases hbefore.symm.trans he
      rw [happend, locateFrom_of_node hadvance]
    · exact absurd hbefore (hnone d)

/-! ## One removal after another -/

/-- Some nodes may be lost, and the rest is in its place. -/
structure Thinned (fs : FileSystem) (lost : Inode → Prop) (gs : FileSystem) : Prop where
  sound : gs.Sound
  part : gs.PartOf fs
  stays : ∀ {i : Inode} {kind : NodeKind}, fs.kind? i = some kind → ¬ lost i →
    gs.kind? i = some kind
  kept : ∀ {d i : Inode} {name : Bytes}, fs.Holds d name i → ¬ lost d → ¬ lost i →
    gs.Holds d name i

/-- What is in a directory that is lost is lost as well. -/
def DownClosed (fs : FileSystem) (lost : Inode → Prop) : Prop :=
  ∀ {d i : Inode} {name : Bytes}, fs.Holds d name i → lost d → lost i

theorem DownClosed.below {lost : Inode → Prop} (h : fs.DownClosed lost) {d i : Inode}
    {names : List Bytes} (hbelow : fs.Below d names i) (hd : lost d) : lost i := by
  induction hbelow with
  | entry hholds => exact h hholds hd
  | deeper hholds _ ih => exact ih (h hholds hd)

namespace Thinned

variable {gs : FileSystem} {lost : Inode → Prop}

theorem refl (hfs : fs.Sound) (hwhole : fs.Whole) : fs.Thinned lost fs where
  sound := hfs
  part := .refl hwhole
  stays hi _ := hi
  kept hholds _ _ := hholds

section
variable (hclosed : fs.DownClosed lost)
include hclosed

section
variable (hfs : fs.Sound) (hwhole : fs.Whole)
include hfs hwhole

/-- Removing what may be lost leaves the rest in its place. -/
theorem apply_remove {path : Text} (hpath : ∀ i, fs.lstat path = .ok i → lost i)
    (h : fs.Thinned lost gs) : fs.Thinned lost ((Change.remove path).apply gs) := by
  unfold Change.apply
  split
  · next left hleft =>
    obtain ⟨e, name, i, hholds, hi, rfl⟩ := exists_of_remove h.sound h.part.entry hleft
    have hlost : lost i := hpath i (h.part.find hfs hi)
    have hgone {k : Inode} (hk : k ∈ gs.below gs.nodes.length [i]) : lost k := by
      rcases exists_below_of_mem hk with hk | ⟨j, hj, names, hbelow⟩
      · exact List.mem_singleton.mp hk ▸ hlost
      · obtain rfl := List.mem_singleton.mp hj
        exact hclosed.below ((h.part.within hfs).below hbelow) hlost
    constructor
    · exact sound_prune h.sound e name _
    · refine (partOf_prune h.part.entry (fun hj hj' => ?_) hholds fun j hj => ?_).trans h.part
      · exact hwhole.listed_once (h.part.holds hj) (h.part.holds hj')
      · simpa using exists_holds_of_mem_below hj
    · intro j kind hj hkept
      rw [kind?_prune, if_neg fun hmem => hkept (hgone hmem)]
      exact h.stays hj hkept
    · intro d j other hj hd hkept
      have hj' := h.kept hj hd hkept
      refine holds_prune_iff.mpr ⟨hj', fun hmem => hd (hgone hmem), ?_⟩
      -- the entry that is taken away stands for something lost
      rintro ⟨rfl, rfl⟩
      exact hkept (hj'.eq h.sound hholds ▸ hlost)
  · exact h

theorem applyAll_remove {paths : List Text}
    (hpaths : ∀ path ∈ paths, ∀ i, fs.lstat path = .ok i → lost i) (h : fs.Thinned lost gs) :
    fs.Thinned lost (gs.applyAll (paths.map .remove)) := by
  unfold applyAll
  induction paths generalizing gs with
  | nil => exact h
  | cons path paths ih =>
    exact ih (fun p hp => hpaths p (List.mem_cons_of_mem path hp))
      (h.apply_remove hclosed hfs hwhole (hpaths path List.mem_cons_self))

end

/-- What is not lost is found under the same names. -/
theorem below (h : fs.Thinned lost gs) {d i : Inode} {names : List Bytes}
    (hbelow : fs.Below d names i) (hi : ¬ lost i) : gs.Below d names i := by
  induction hbelow with
  | entry hholds => exact .entry (h.kept hholds (fun hd => hi (hclosed hholds hd)) hi)
  | @deeper d e i name names hholds hbelow ih =>
    have he : ¬ lost e := fun he => hi (hclosed.below hbelow he)
    exact .deeper (h.kept hholds (fun hd => he (hclosed hholds hd)) he) (ih hi)

/-- Segments that lead down to what is not lost still lead there. -/
theorem advance (h : fs.Thinned lost gs) {d e : Inode} {segments : List Bytes} {added : Nat}
    (hpassage : Passage fs d segments 0 added e) (hup : Route.up ∉ segments) (he : ¬ lost e) :
    gs.advance true d segments = .ok (.node e) ∧ ¬ lost d := by
  generalize hlinks : 0 = links at hpassage
  induction hpassage with
  | done => exact ⟨rfl, he⟩
  | self hd _ ih =>
    obtain ⟨hadvance, hkept⟩ := ih (fun hmem => hup (List.mem_cons_of_mem _ hmem)) he hlinks
    obtain ⟨above, entries, hnode⟩ := node?_of_kind? (h.stays hd hkept)
    exact ⟨by simpa [FileSystem.advance, hnode] using hadvance, hkept⟩
  | up => exact absurd List.mem_cons_self hup
  | entry hholds hkind _ ih =>
    obtain ⟨hadvance, hkept⟩ := ih (fun hmem => hup (List.mem_cons_of_mem _ hmem)) he hlinks
    have hd := fun hd => hkept (hclosed hholds hd)
    have hlink := fun hlink => hkind (h.part.kind? hlink)
    rw [(h.kept hholds hd hkept).advance h.sound hlink]
    exact ⟨hadvance, hd⟩
  | link => exact absurd hlinks (by omega)

/-- A path that leads down to what is not lost, and through no link, still leads there. -/
theorem stat (h : fs.Thinned lost gs) {path : Text} {route : Route}
    (hroute : Route.ofText path = .ok route) {e : Inode} {added : Nat}
    (hpassage : Passage fs (fs.start route) route.steps 0 added e) (hup : Route.up ∉ route.steps)
    (he : ¬ lost e) : gs.stat path = .ok e := by
  refine stat_eq_ok_iff.mpr ⟨route, hroute, ?_⟩
  rw [follow_eq, h.part.start_eq]
  exact locateFrom_of_node (h.advance hclosed hpassage hup he).1 linkLimit

end

end Thinned

end BundleManifest.FileSystem
