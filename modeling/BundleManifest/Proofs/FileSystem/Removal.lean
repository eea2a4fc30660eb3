/-
# BundleManifest.Proofs.FileSystem.Removal — a new file is taken away again

Making a file appends an entry to a directory and a node to the table, and taking it away undoes both.
`unlink_addEntry` says that the file system is then the one that it was before, down to the order of
its entries, and `remove_addEntry` that removing the path of the new file does this.
-/
import BundleManifest.Proofs.FileSystem.Pruning

namespace BundleManifest.FileSystem

variable {fs : FileSystem} {i j d : Inode} {node other : Node}

/-! ## Single changes, undone -/

/-- A node is set to what it is. -/
theorem setNode_self (hnumbers : fs.numbers.Nodup) (hi : fs.node? i = some node) :
    fs.setNode i node = fs := by
  have hsame : fs.nodes.map (fun e => if e.1 = i then (i, node) else e) = fs.nodes := by
    conv_rhs => rw [← List.map_id fs.nodes]
    apply List.map_congr_left
    intro e he
    split
    · next heq =>
      -- no other entry of the table has this number
      exact List.inj_on_of_nodup_map hnumbers (mem_nodes_of_node? hi) he heq.symm
    · rfl
  rw [setNode, hsame]

/-- Only the last of two nodes under one number counts. -/
theorem setNode_setNode : (fs.setNode i node).setNode i other = fs.setNode i other := by
  unfold setNode
  rw [List.map_map]
  congr 1
  apply List.map_congr_left
  intro e _
  by_cases he : e.1 = i
  · simp [he]
  · simp [he]

theorem setNode_addNode (h : i ≠ j) :
    (fs.addNode j other).setNode i node = (fs.setNode i node).addNode j other := by
  unfold setNode addNode
  simp [Ne.symm h]

/-- A node under a new number is dropped. -/
theorem dropNode_addNode (h : fs.node? i = none) : (fs.addNode i node).dropNode i = fs := by
  have hkept : fs.nodes.filter (fun e => e.1 != i) = fs.nodes := by
    rw [List.filter_eq_self]
    intro e he
    rw [bne_iff_ne]
    rintro rfl
    exact node?_eq_none_iff.mp h (List.mem_map_of_mem he)
  unfold dropNode addNode
  simp [hkept]

/-! ## A new entry, taken away -/

section
variable {name : Bytes} (hnumbers : fs.numbers.Nodup) (hlacks : fs.Lacks d name)
  (hd : fs.kind? d = some .directory)
include hnumbers hlacks hd

/-- Taking a new name away, and the node that it names, leaves everything as it was. -/
theorem unlink_addEntry (node : Node) :
    (fs.addEntry d name node).unlink d name fs.fresh = fs := by
  obtain ⟨above, entries, hnode⟩ := node?_of_kind? hd
  have hentries := filter_eq_self_of_lacks (hlacks above entries hnode)
  have hne : d ≠ fs.fresh := by
    rintro rfl
    rw [node?_fresh] at hnode
    cases hnode
  -- the directory with its new entry
  have hlisted : (fs.addEntry d name node).node? d
      = some (.directory above (entries ++ [(name, fs.fresh)])) := by
    rw [node?_addEntry_eq, if_neg hne, if_pos rfl, hnode]
    rfl
  have hold : (entries ++ [(name, fs.fresh)]).filter (fun e => e.1 != name) = entries := by
    rw [List.filter_append, hentries]
    simp
  have hmade : fs.addEntry d name node
      = (fs.setNode d (.directory above (entries ++ [(name, fs.fresh)]))).addNode fs.fresh node := by
    simp only [addEntry, mapEntries, hnode]
  have hdropped : (fs.addEntry d name node).dropEntry d name = fs.addNode fs.fresh node := by
    simp only [dropEntry, mapEntries, hlisted, hold]
    rw [hmade, setNode_addNode hne, setNode_setNode, setNode_self hnumbers hnode]
  rw [unlink, hdropped, dropNode_addNode (node?_fresh fs)]

end

/-! ## Removing -/

/-- Nothing is below a node that is no directory. -/
theorem below_singleton (h : fs.kind? i ≠ some .directory) (depth : Nat) :
    fs.below depth [i] = [i] := by
  have hnone : fs.entries? i = none := by
    cases hentries : fs.entries? i with
    | none => rfl
    | some entries => exact absurd (kind?_of_entries? hentries) h
  have hnil (depth : Nat) : fs.below depth [] = [] := by
    induction depth with
    | zero => rfl
    | succ depth ih => simpa [below] using ih
  cases depth with
  | zero => rfl
  | succ depth => simp [below, hnone, hnil]

/-- Removing a path that ends in the name of something other than a directory takes this name away, and
the node that it names. -/
theorem remove_of_endsAt (hfs : fs.Sound) {path : Text} {name : Bytes}
    (hends : fs.EndsAt path d name) (hholds : fs.Holds d name i)
    (hi : fs.kind? i ≠ some .directory) : fs.remove path = .ok (fs.unlink d name i) := by
  obtain ⟨route, -, hroute, -⟩ := hends.route
  obtain ⟨hsite, hslashed⟩ := hends.site hroute
  unfold remove
  simp only [hroute, hsite, hslashed, occupant_of_holds hfs hholds, below_singleton hi, bind,
    Except.bind, Except.mapError, Bool.false_and, Bool.false_eq_true, if_false, pure, Except.pure]
  rw [unlink_eq_prune]
  rfl

/-- Removing a file that has just been made leaves everything as it was. -/
theorem remove_addEntry (hfs : fs.Sound) (hwhole : fs.Whole) (hnumbers : fs.numbers.Nodup)
    {path : Text} {name content : Bytes} (hends : fs.EndsAt path d name)
    (hlacks : fs.Lacks d name) (hlegal : LegalName name) :
    (fs.addEntry d name (.regular content)).remove path = .ok fs := by
  have hmade := published_addEntry hends.kind hlacks content
  have hsound : (fs.addEntry d name (.regular content)).Sound :=
    sound_addEntry hfs hlegal hlacks trivial
  have hends' : (fs.addEntry d name (.regular content)).EndsAt path d name :=
    (hmade.endsAt_iff hwhole fun j hholds => absurd hholds hlacks.not_holds).mpr hends
  have hfile : (fs.addEntry d name (.regular content)).kind? fs.fresh ≠ some .directory := by
    simp [hmade.kind?_file]
  rw [remove_of_endsAt hsound hends' hmade.holds hfile, unlink_addEntry hnumbers hlacks hends.kind]

end BundleManifest.FileSystem
