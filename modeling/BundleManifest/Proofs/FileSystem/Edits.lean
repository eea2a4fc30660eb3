/-
# BundleManifest.Proofs.FileSystem.Edits — the tree after a change

Three things are known of the tree that nodes form: the kind of every node, what directories list, and what
is recorded as the directory above (`parent?`). For each way in which an operation edits the table there is
one equation for each of them: a name is given to a new node (`addEntry`), a node gets another name
(`relink`), or a name is taken away with some nodes (`prune`).
-/
import BundleManifest.Proofs.FileSystem.Pruning

namespace BundleManifest

/-- The directory above a directory. -/
def Node.above? : Node → Option Inode
  | .directory above _ => some above
  | _ => none

namespace FileSystem

variable {fs : FileSystem}

/-! ## What is recorded as the directory above -/

/-- The directory that is recorded as the one above a directory. -/
def parent? (fs : FileSystem) (i : Inode) : Option Inode := (fs.node? i).bind Node.above?

theorem parent?_eq_some_iff {i above : Inode} :
    fs.parent? i = some above ↔ ∃ entries, fs.node? i = some (.directory above entries) := by
  unfold parent?
  cases fs.node? i with
  | none => simp
  | some node => cases node <;> simp [Node.above?]

section
variable (fs)

theorem parent?_mapEntries (d : Inode) (f : List (Bytes × Inode) → List (Bytes × Inode))
    (i : Inode) : (fs.mapEntries d f).parent? i = fs.parent? i := by
  have hnode (node : Node) : (node.withEntries f).above? = node.above? := by cases node <;> rfl
  unfold parent?
  rw [node?_mapEntries_eq]
  split
  · next h => cases hfound : fs.node? d <;> simp [h, hfound, hnode]
  · rfl

theorem parent?_putUnder (i d j : Inode) :
    (fs.putUnder i d).parent? j = if j = i then (fs.parent? i).map fun _ => d else fs.parent? j := by
  unfold putUnder
  split
  · next above entries hi =>
    unfold parent?
    rw [node?_setNode_eq, hi]
    split
    · rfl
    · rfl
  · next hother =>
    split
    · next h =>
      -- nothing is recorded for what is no directory
      subst h
      cases hparent : fs.parent? j with
      | none => rfl
      | some above =>
        obtain ⟨entries, hj⟩ := parent?_eq_some_iff.mp hparent
        exact absurd hj (hother above entries)
    · rfl

end

/-! ## The tree after a change -/

theorem holds_append_iff {d e i j : Inode} {name other : Bytes}
    (hd : fs.kind? d = some .directory) :
    (fs.mapEntries d (· ++ [(name, j)])).Holds e other i ↔
      fs.Holds e other i ∨ e = d ∧ other = name ∧ i = j := by
  unfold Holds
  rw [entries?_mapEntries]
  by_cases h : e = d
  · subst h
    obtain ⟨entries, hentries⟩ := entries?_of_kind? hd
    simp [hentries]
  · simp [h]

section
variable {d : Inode} {name : Bytes} {node : Node}

theorem kind?_addEntry (i : Inode) :
    (fs.addEntry d name node).kind? i = if i = fs.fresh then some node.kind else fs.kind? i := by
  have hmapped := fs.kind?_mapEntries i d (· ++ [(name, fs.fresh)])
  unfold kind? at hmapped ⊢
  rw [node?_mapEntries_eq] at hmapped
  rw [node?_addEntry_eq]
  split
  · rfl
  · exact hmapped

theorem parent?_addEntry (i : Inode) :
    (fs.addEntry d name node).parent? i = if i = fs.fresh then node.above? else fs.parent? i := by
  have hmapped := fs.parent?_mapEntries d (· ++ [(name, fs.fresh)]) i
  unfold parent? at hmapped ⊢
  rw [node?_mapEntries_eq] at hmapped
  rw [node?_addEntry_eq]
  split
  · rfl
  · exact hmapped

theorem holds_addEntry_iff {e i : Inode} {other : Bytes} (hd : fs.kind? d = some .directory)
    (hnode : node = .directory d [] ∨ node.kind ≠ .directory) :
    (fs.addEntry d name node).Holds e other i ↔
      fs.Holds e other i ∨ e = d ∧ other = name ∧ i = fs.fresh := by
  have happended : (fs.mapEntries d (· ++ [(name, fs.fresh)])).Holds e other i ↔
      fs.Holds e other i ∨ e = d ∧ other = name ∧ i = fs.fresh := holds_append_iff hd
  unfold Holds entries? at happended ⊢
  rw [node?_mapEntries_eq] at happended
  rw [node?_addEntry_eq]
  by_cases hfresh : e = fs.fresh
  · -- a new node lists nothing, and the directory is no new node
    have hne : e ≠ d := by
      rintro rfl
      rw [kind?, hfresh, node?_fresh] at hd
      cases hd
    have hnone : fs.node? e = none := hfresh ▸ node?_fresh fs
    rw [if_pos hfresh]
    rcases hnode with rfl | hkind
    · simp [hnone, hne]
    · cases node <;> simp_all [Node.kind]
  · rw [if_neg hfresh]
    exact happended

end

section
variable {i e d : Inode} {old name : Bytes}

theorem kind?_relink (j : Inode) : (fs.relink i e old d name).kind? j = fs.kind? j := by
  rw [relink_eq, kind?_mapEntries, kind?_putUnder, dropEntry, kind?_mapEntries]

theorem parent?_relink (j : Inode) :
    (fs.relink i e old d name).parent? j
      = if j = i then (fs.parent? i).map fun _ => d else fs.parent? j := by
  rw [relink_eq, parent?_mapEntries, parent?_putUnder, dropEntry, parent?_mapEntries,
    parent?_mapEntries]

theorem holds_relink_iff (hd : fs.kind? d = some .directory) {a j : Inode} {other : Bytes} :
    (fs.relink i e old d name).Holds a other j ↔
      (fs.Holds a other j ∧ ¬(a = e ∧ other = old)) ∨ a = d ∧ other = name ∧ j = i := by
  have hput : ((fs.dropEntry e old).putUnder i d).kind? d = some .directory := by
    rw [kind?_putUnder, dropEntry, kind?_mapEntries]
    exact hd
  rw [relink_eq, holds_append_iff hput, ← holds_dropEntry_iff, Holds, entries?_putUnder]
  rfl

end

theorem parent?_prune (d : Inode) (name : Bytes) (gone : List Inode) (i : Inode) :
    (fs.prune d name gone).parent? i = if i ∈ gone then none else fs.parent? i := by
  have hdropped := fs.parent?_mapEntries d (fun entries => entries.filter fun e => e.1 != name) i
  unfold parent? at hdropped ⊢
  rw [node?_prune_eq]
  split
  · rfl
  · exact hdropped

theorem numbers_prune_sublist (d : Inode) (name : Bytes) (gone : List Inode) :
    (fs.prune d name gone).numbers.Sublist fs.numbers := by
  rw [← fs.numbers_mapEntries d fun entries => entries.filter fun e => e.1 != name]
  exact List.filter_sublist.map Prod.fst

end FileSystem

end BundleManifest
