/-
# BundleManifest.Proofs.FileSystem.Parts — what is left of a file system

`gs.PartOf fs` says that `gs` is what is left of `fs`: nodes and entries may have gone, and nothing
else has changed. No entry is left without its node. Then whatever a path names in `gs` it names in
`fs` (`PartOf.find`): on the way there every name stands for the node that it stood for, and every
link has the target that it had.
-/
import BundleManifest.Proofs.FileSystem.Places

namespace BundleManifest

/-- A directory without some of its entries; any other node as it is. -/
inductive Node.PartOf : Node → Node → Prop
  | directory {above : Inode} {entries whole : List (Bytes × Inode)} (h : entries ⊆ whole) :
      PartOf (.directory above entries) (.directory above whole)
  | other {node : Node} (h : node.kind ≠ .directory) : PartOf node node

namespace Node.PartOf

variable {node whole : Node}

theorem refl (node : Node) : node.PartOf node := by
  cases node with
  | directory above entries => exact directory (List.Subset.refl entries)
  | regular content => exact other (by simp [kind])
  | link target => exact other (by simp [kind])
  | pipe => exact other (by simp [kind])
  | device => exact other (by simp [kind])

theorem trans {other : Node} (h : node.PartOf whole) (h' : whole.PartOf other) :
    node.PartOf other := by
  cases h with
  | directory hentries =>
    cases h' with
    | directory hwhole => exact directory (List.Subset.trans hentries hwhole)
    | other hkind => exact absurd rfl hkind
  | other => exact h'

theorem kind_eq (h : node.PartOf whole) : node.kind = whole.kind := by
  cases h with
  | directory => rfl
  | other => rfl

end Node.PartOf

namespace FileSystem

/-- What is left of a file system when nodes and entries have gone. -/
structure PartOf (gs fs : FileSystem) : Prop where
  here : gs.here = fs.here
  node : ∀ {i : Inode} {node : Node}, gs.node? i = some node →
    ∃ whole, fs.node? i = some whole ∧ node.PartOf whole
  entry : ∀ {d i : Inode} {name : Bytes}, gs.Holds d name i → gs.node? i ≠ none

namespace PartOf

variable {gs fs : FileSystem}

theorem refl (h : fs.Whole) : fs.PartOf fs where
  here := rfl
  node hi := ⟨_, hi, .refl _⟩
  entry := h.entry

theorem trans {hs : FileSystem} (h : hs.PartOf gs) (h' : gs.PartOf fs) : hs.PartOf fs where
  here := h.here.trans h'.here
  node hi := by
    obtain ⟨whole, hwhole, hpart⟩ := h.node hi
    obtain ⟨all, hall, hpart'⟩ := h'.node hwhole
    exact ⟨all, hall, hpart.trans hpart'⟩
  entry := h.entry

section
variable (h : gs.PartOf fs)
include h

theorem start_eq (route : Route) : gs.start route = fs.start route := by
  rw [start, start, h.here]

theorem kind? {i : Inode} {kind : NodeKind} (hi : gs.kind? i = some kind) :
    fs.kind? i = some kind := by
  obtain ⟨node, hnode, rfl⟩ := Option.map_eq_some_iff.mp hi
  obtain ⟨whole, hwhole, hpart⟩ := h.node hnode
  rw [FileSystem.kind?, hwhole, hpart.kind_eq]
  rfl

/-- An entry that is left was there. -/
theorem holds {d i : Inode} {name : Bytes} (hi : gs.Holds d name i) : fs.Holds d name i := by
  obtain ⟨above, listed, hd⟩ := node?_of_kind? hi.kind
  obtain ⟨entries, hentries, hmem⟩ := hi
  rw [entries?, hd] at hentries
  cases hentries
  obtain ⟨whole, hwhole, hpart⟩ := h.node hd
  cases hpart with
  | directory hsubset => exact ⟨_, by rw [entries?, hwhole], hsubset hmem⟩
  | other hkind => exact absurd rfl hkind

theorem child {d c : Inode} (hchild : gs.Child d c) : fs.Child d c :=
  ⟨hchild.1.imp fun _ hname => h.holds hname, h.kind? hchild.2⟩

section
variable (hfs : fs.Sound)
include hfs

/-- Looking up segments comes where it came, unless the last name is free. -/
theorem advance {followLast : Bool} {current : Inode} {segments : List Bytes} {arrival : Arrival}
    (hfound : ∀ d name, arrival ≠ .vacancy d name)
    (hgs : gs.advance followLast current segments = .ok arrival) :
    fs.advance followLast current segments = .ok arrival := by
  induction segments generalizing current with
  | nil => exact hgs
  | cons segment rest ih =>
    cases hnode : gs.node? current with
    | none => simp [FileSystem.advance, hnode] at hgs
    | some node =>
      obtain ⟨whole, hwhole, hpart⟩ := h.node hnode
      cases hpart with
      | other hkind =>
        rw [advance_of_not_directory hnode hkind, if_neg (List.cons_ne_nil segment rest)] at hgs
        cases hgs
      | @directory above entries all hsubset =>
        by_cases hself : segment = Route.self
        · simp only [FileSystem.advance, hnode, hwhole, if_pos hself] at hgs ⊢
          exact ih hgs
        by_cases hup : segment = Route.up
        · simp only [FileSystem.advance, hnode, hwhole, if_neg hself, if_pos hup] at hgs ⊢
          exact ih hgs
        by_cases hlength : Route.nameLimit < segment.length
        · simp only [FileSystem.advance, hnode, if_neg hself, if_neg hup, if_pos hlength] at hgs
          cases hgs
        cases hlookup : entries.lookup segment with
        | none =>
          rw [advance_of_free hnode hself hup hlength hlookup] at hgs
          split at hgs
          · cases hgs
            exact absurd rfl (hfound current segment)
          · cases hgs
        | some i =>
          -- the entry was there, and stood for the same node
          have hholds := holds_of_lookup hnode hlookup
          obtain ⟨node, hi⟩ := Option.ne_none_iff_exists'.mp (h.entry hholds)
          obtain ⟨wholeNode, hi', hpart⟩ := h.node hi
          obtain ⟨above', all', hcurrent, hlookup'⟩ := (h.holds hholds).lookup hfs
          cases hwhole.symm.trans hcurrent
          by_cases hkind : node.kind = .link
          · obtain ⟨target, rfl⟩ := exists_target hkind
            cases hpart
            rw [advance_of_link hnode hself hup hlength hlookup hi] at hgs
            rw [advance_of_link hwhole hself hup hlength hlookup' hi']
            exact hgs
          · rw [advance_of_entry hnode hself hup hlength hlookup hi hkind] at hgs
            rw [advance_of_entry hwhole hself hup hlength hlookup' hi' (hpart.kind_eq ▸ hkind)]
            exact ih hgs

theorem locateFrom {followLast : Bool} {links : Nat} {current i : Inode} {segments : List Bytes}
    (hgs : gs.locateFrom followLast links current segments = .ok (.node i)) :
    fs.locateFrom followLast links current segments = .ok (.node i) := by
  induction links using Nat.strong_induction_on generalizing current segments with
  | _ links ih =>
    cases hadvance : gs.advance followLast current segments with
    | error fault =>
      rw [locateFrom_of_error hadvance] at hgs
      cases hgs
    | ok arrival =>
      cases arrival with
      | node j =>
        rw [locateFrom_of_node hadvance] at hgs
        rw [locateFrom_of_node (h.advance hfs (by simp) hadvance)]
        exact hgs
      | vacancy d name =>
        rw [locateFrom_of_vacancy hadvance] at hgs
        cases hgs
      | link d target rest =>
        rw [locateFrom_of_link hadvance] at hgs
        rw [locateFrom_of_link (h.advance hfs (by simp) hadvance)]
        cases links with
        | zero => cases hgs
        | succ links => exact ih links (Nat.lt_succ_self links) hgs

/-- What a path names in what is left, it has always named. -/
theorem find {followLast : Bool} {path : Text} {i : Inode} (hi : gs.find followLast path = .ok i) :
    fs.find followLast path = .ok i := by
  obtain ⟨route, hroute, hfollow⟩ := find_eq_ok_iff.mp hi
  rw [follow_eq, h.start_eq] at hfollow
  exact find_eq_ok_iff.mpr ⟨route, hroute, h.locateFrom hfs hfollow⟩

theorem within : gs.Within fs where
  stat hi := h.find hfs hi
  kind? hi := h.kind? hi
  holds hi := h.holds hi

end

end

end PartOf

end FileSystem

end BundleManifest
