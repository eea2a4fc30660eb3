/-
# BundleManifest.Proofs.FileSystem.Tables — what a changed table holds

One equation for each small change of a file system says what is found under every number afterwards.
A new number is above all others, so nothing is found under it before. What only changes entries
changes neither the kind of a node nor which numbers are in use.
-/
import BundleManifest.Proofs.FileSystem.Changes

namespace BundleManifest

/-- A directory with its entries changed; any other node as it is. -/
def Node.withEntries (f : List (Bytes × Inode) → List (Bytes × Inode)) : Node → Node
  | .directory parent entries => .directory parent (f entries)
  | node => node

theorem Node.withEntries_withEntries (f g : List (Bytes × Inode) → List (Bytes × Inode))
    (node : Node) : (node.withEntries f).withEntries g = node.withEntries fun e => g (f e) := by
  cases node <;> rfl

@[simp] theorem Node.kind_withEntries (f : List (Bytes × Inode) → List (Bytes × Inode))
    (node : Node) : (node.withEntries f).kind = node.kind := by
  cases node <;> rfl

namespace FileSystem

/-- The numbers in use. -/
def numbers (fs : FileSystem) : List Inode := fs.nodes.map Prod.fst

theorem node?_eq_none_iff {fs : FileSystem} {i : Inode} : fs.node? i = none ↔ i ∉ fs.numbers := by
  rw [node?, numbers, List.lookup_eq_none_iff, List.mem_map]
  constructor
  · intro h hmem
    obtain ⟨e, he, rfl⟩ := hmem
    simpa using h e he
  · intro h e he
    rw [bne_iff_ne]
    rintro rfl
    exact h ⟨e, he, rfl⟩

theorem kind?_eq_none_iff {fs : FileSystem} {i : Inode} : fs.kind? i = none ↔ fs.node? i = none :=
  Option.map_eq_none_iff

/-! ## New numbers -/

theorem lt_fresh {fs : FileSystem} {i : Inode} (h : i ∈ fs.numbers) : i < fs.fresh := by
  -- the number grows along the table, and it passes each number in use
  have hgrows (nodes : List (Inode × Node)) (n : Nat) :
      n ≤ nodes.foldl (fun n e => max n (e.1 + 1)) n ∧
        ∀ e ∈ nodes, e.1 < nodes.foldl (fun n e => max n (e.1 + 1)) n := by
    induction nodes generalizing n with
    | nil => exact ⟨Nat.le_refl n, fun e he => by cases he⟩
    | cons e nodes ih =>
      obtain ⟨hstart, hlater⟩ := ih (max n (e.1 + 1))
      refine ⟨Nat.le_trans (Nat.le_max_left ..) hstart, fun other hother => ?_⟩
      rcases List.mem_cons.mp hother with rfl | hother
      · exact Nat.lt_of_lt_of_le (Nat.lt_succ_self other.1)
          (Nat.le_trans (Nat.le_max_right ..) hstart)
      · exact hlater other hother
  obtain ⟨e, he, rfl⟩ := List.mem_map.mp h
  exact (hgrows fs.nodes 0).2 e he

theorem node?_fresh (fs : FileSystem) : fs.node? fs.fresh = none := by
  rw [node?_eq_none_iff]
  exact fun h => Nat.lt_irrefl _ (lt_fresh h)

/-! ## Single changes -/

section
variable (fs : FileSystem) (i j : Inode) (node : Node)

theorem node?_setNode_eq :
    (fs.setNode i node).node? j = if j = i then (fs.node? i).map fun _ => node else fs.node? j := by
  split
  · next h =>
    subst h
    unfold setNode node?
    induction fs.nodes with
    | nil => rfl
    | cons e nodes ih =>
      obtain ⟨k, old⟩ := e
      rw [List.map_cons]
      by_cases hk : k = j
      · subst hk
        simp
      · have hjk : (j == k) = false := by simpa using Ne.symm hk
        rw [if_neg hk, List.lookup_cons, List.lookup_cons, hjk]
        exact ih
  · next h => exact lookup_map_of_ne h

theorem node?_addNode_eq (hi : fs.node? i = none) :
    (fs.addNode i node).node? j = if j = i then some node else fs.node? j := by
  unfold addNode node?
  rw [List.lookup_append]
  split
  · next h =>
    subst h
    rw [show fs.nodes.lookup j = none from hi]
    simp
  · next h =>
    have hji : (j == i) = false := by simpa using h
    simp [List.lookup_cons, hji]

theorem node?_dropNode_eq :
    (fs.dropNode i).node? j = if j = i then none else fs.node? j := by
  unfold dropNode node?
  rw [lookup_filter fs.nodes (· != i)]
  by_cases h : j = i
  · simp [h]
  · simp [h]

theorem node?_mapEntries_eq (d : Inode) (f : List (Bytes × Inode) → List (Bytes × Inode)) :
    (fs.mapEntries d f).node? j
      = if j = d then (fs.node? d).map (Node.withEntries f) else fs.node? j := by
  unfold mapEntries
  split
  · next parent entries hnode =>
    rw [node?_setNode_eq, hnode]
    rfl
  · next hother =>
    -- what is no directory keeps what it holds
    split
    · next h =>
      subst h
      cases hnode : fs.node? j with
      | none => rfl
      | some node =>
        cases node with
        | directory parent entries => exact absurd hnode (hother parent entries)
        | regular content => rfl
        | link target => rfl
        | pipe => rfl
        | device => rfl
    · rfl

theorem node?_addEntry_eq (d : Inode) (name : Bytes) :
    (fs.addEntry d name node).node? j
      = if j = fs.fresh then some node
        else if j = d then (fs.node? d).map (Node.withEntries (· ++ [(name, fs.fresh)]))
        else fs.node? j := by
  have hfresh : (fs.mapEntries d (· ++ [(name, fs.fresh)])).node? fs.fresh = none := by
    rw [node?_mapEntries_eq]
    split
    · next h => rw [← h, node?_fresh, Option.map_none]
    · exact node?_fresh fs
  rw [addEntry, node?_addNode_eq _ _ _ _ hfresh, node?_mapEntries_eq]

/-! ## Changed entries -/

section
variable (d : Inode) (f : List (Bytes × Inode) → List (Bytes × Inode))

theorem entries?_mapEntries :
    (fs.mapEntries d f).entries? j = if j = d then (fs.entries? d).map f else fs.entries? j := by
  unfold entries?
  rw [node?_mapEntries_eq]
  by_cases h : j = d
  · subst h
    rw [if_pos rfl, if_pos rfl]
    cases fs.node? j with
    | none => rfl
    | some node => cases node <;> rfl
  · rw [if_neg h, if_neg h]

theorem kind?_mapEntries : (fs.mapEntries d f).kind? j = fs.kind? j := by
  unfold kind?
  rw [node?_mapEntries_eq]
  split
  · next h => simp [h, Function.comp_def]
  · rfl

end

/-! ## Another name -/

/-- The file system in which a directory has been told what is above it. -/
def putUnder (fs : FileSystem) (i d : Inode) : FileSystem :=
  match fs.node? i with
  | some (.directory _ entries) => fs.setNode i (.directory d entries)
  | _ => fs

theorem relink_eq (e d : Inode) (old name : Bytes) :
    fs.relink i e old d name
      = ((fs.dropEntry e old).putUnder i d).mapEntries d (· ++ [(name, i)]) := rfl

theorem kind?_putUnder (d : Inode) : (fs.putUnder i d).kind? j = fs.kind? j := by
  unfold putUnder
  split
  · next above entries hi =>
    unfold kind?
    rw [node?_setNode_eq, hi]
    split
    · next h => rw [h, hi]; rfl
    · rfl
  · rfl

theorem entries?_putUnder (d : Inode) : (fs.putUnder i d).entries? j = fs.entries? j := by
  unfold putUnder
  split
  · next above entries hi =>
    unfold entries?
    rw [node?_setNode_eq, hi]
    by_cases h : j = i
    · rw [if_pos h, h, hi]
      rfl
    · rw [if_neg h]
  · rfl

/-- A file keeps what it holds when it gets another name. -/
theorem node?_relink_eq {d e : Inode} {name other : Bytes} (hi : fs.kind? i ≠ some .directory) :
    (fs.relink i e other d name).node? j
      = if j = d then ((fs.dropEntry e other).node? d).map (Node.withEntries (· ++ [(name, i)]))
        else (fs.dropEntry e other).node? j := by
  have hput : (fs.dropEntry e other).putUnder i d = fs.dropEntry e other := by
    unfold putUnder
    split
    · next above entries hnode =>
      -- a node that is no directory does not become one
      rw [← fs.kind?_mapEntries i e fun entries => entries.filter fun e => e.1 != other] at hi
      exact absurd (by rw [kind?, ← dropEntry, hnode]; rfl) hi
    · rfl
  rw [relink_eq, hput, node?_mapEntries_eq]

/-! ## Numbers in use -/

theorem numbers_setNode : (fs.setNode i node).numbers = fs.numbers := by
  unfold numbers setNode
  rw [List.map_map]
  apply List.map_congr_left
  intro e _
  by_cases he : e.1 = i
  · simp [he]
  · simp [he]

theorem numbers_mapEntries (d : Inode) (f : List (Bytes × Inode) → List (Bytes × Inode)) :
    (fs.mapEntries d f).numbers = fs.numbers := by
  unfold mapEntries
  split
  · exact numbers_setNode ..
  · rfl

theorem numbers_addEntry (d : Inode) (name : Bytes) :
    (fs.addEntry d name node).numbers = fs.numbers ++ [fs.fresh] := by
  have hmapped := fs.numbers_mapEntries d (· ++ [(name, fs.fresh)])
  unfold addEntry addNode
  unfold numbers at hmapped ⊢
  rw [List.map_append, hmapped]
  rfl

theorem numbers_relink (d e : Inode) (name other : Bytes) :
    (fs.relink i e other d name).numbers = fs.numbers := by
  have hput (gs : FileSystem) : (gs.putUnder i d).numbers = gs.numbers := by
    unfold putUnder
    split
    · exact numbers_setNode ..
    · rfl
  rw [relink_eq, numbers_mapEntries, hput, dropEntry, numbers_mapEntries]

/-! ## The working directory -/

@[simp] theorem here_mapEntries (d : Inode) (f : List (Bytes × Inode) → List (Bytes × Inode)) :
    (fs.mapEntries d f).here = fs.here := by
  unfold mapEntries
  split <;> rfl

@[simp] theorem herePath_mapEntries (d : Inode) (f : List (Bytes × Inode) → List (Bytes × Inode)) :
    (fs.mapEntries d f).herePath = fs.herePath := by
  unfold mapEntries
  split <;> rfl

@[simp] theorem here_relink (d e : Inode) (name other : Bytes) :
    (fs.relink i e other d name).here = fs.here := by
  unfold relink
  rw [here_mapEntries]
  split
  · exact here_mapEntries ..
  · exact here_mapEntries ..

@[simp] theorem herePath_relink (d e : Inode) (name other : Bytes) :
    (fs.relink i e other d name).herePath = fs.herePath := by
  unfold relink
  rw [herePath_mapEntries]
  split
  · exact herePath_mapEntries ..
  · exact herePath_mapEntries ..

end

end FileSystem

end BundleManifest
