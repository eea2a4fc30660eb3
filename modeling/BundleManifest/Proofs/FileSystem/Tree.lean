/-
# BundleManifest.Proofs.FileSystem.Tree — what lies below a directory

`Below` says which node lies below a directory under which names; no link is followed on the way.
Directories form a `Tree` when each is listed once and none lies below itself. The directories in
and below one of them are its `subtree`. The subtrees of the children of a directory have nothing in
common, so together they are smaller than the subtree of the directory (`sum_card_subtree_lt`).
-/
import BundleManifest.Proofs.FileSystem.Resolution

namespace BundleManifest.FileSystem

open Relation

/-! ## Entries -/

/-- A directory lists a node under a name. -/
def Holds (fs : FileSystem) (d : Inode) (name : Bytes) (i : Inode) : Prop :=
  ∃ entries, fs.entries? d = some entries ∧ (name, i) ∈ entries

theorem holds_of_lookup {fs : FileSystem} {d above i : Inode} {entries : List (Bytes × Inode)}
    {name : Bytes} (hd : fs.node? d = some (.directory above entries))
    (h : entries.lookup name = some i) : fs.Holds d name i := by
  obtain ⟨before, after, rfl, -⟩ := List.lookup_eq_some_iff.mp h
  exact ⟨_, by rw [entries?, hd], by simp⟩

theorem Holds.kind {fs : FileSystem} {d i : Inode} {name : Bytes} (h : fs.Holds d name i) :
    fs.kind? d = some .directory := by
  obtain ⟨entries, hentries, -⟩ := h
  exact kind?_of_entries? hentries

/-- A name under which a directory holds nothing is not listed. -/
theorem lacks_of_not_holds {fs : FileSystem} {d : Inode} {name : Bytes}
    (h : ∀ i, ¬ fs.Holds d name i) : fs.Lacks d name := by
  intro above entries hd hmem
  obtain ⟨⟨other, i⟩, hi, rfl⟩ := List.mem_map.mp hmem
  exact h i ⟨entries, by rw [entries?, hd], hi⟩

/-- A name of a directory stands for one node. -/
theorem Holds.eq {fs : FileSystem} (hfs : fs.Sound) {d i j : Inode} {name : Bytes}
    (hi : fs.Holds d name i) (hj : fs.Holds d name j) : i = j := by
  obtain ⟨entries, hentries, hi⟩ := hi
  obtain ⟨entries', hentries', hj⟩ := hj
  rw [hentries] at hentries'
  cases hentries'
  have hnodup := (hfs.entries hentries).2
  exact Option.some.inj ((lookup_of_mem hnodup hi).symm.trans (lookup_of_mem hnodup hj))

theorem Holds.legal {fs : FileSystem} (hfs : fs.Sound) {d i : Inode} {name : Bytes}
    (h : fs.Holds d name i) : LegalName name := by
  obtain ⟨entries, hentries, hmem⟩ := h
  exact (hfs.entries hentries).1 _ hmem

/-- What a directory lists is found in it. -/
theorem Holds.lookup {fs : FileSystem} (hfs : fs.Sound) {d i : Inode} {name : Bytes}
    (h : fs.Holds d name i) :
    ∃ above entries, fs.node? d = some (.directory above entries) ∧ entries.lookup name = some i := by
  obtain ⟨above, entries, hd⟩ := node?_of_kind? h.kind
  obtain ⟨entries', hentries', hmem⟩ := h
  have hnodup := (hfs.entries hentries').2
  rw [entries?, hd] at hentries'
  cases hentries'
  exact ⟨above, entries, hd, lookup_of_mem hnodup hmem⟩

/-- Looking up an entry that is no link goes on from there. -/
theorem Holds.advance {fs : FileSystem} (hfs : fs.Sound) {d i : Inode} {name : Bytes}
    (h : fs.Holds d name i) (hkind : fs.kind? i ≠ some .link) (followLast : Bool)
    (rest : List Bytes) : fs.advance followLast d (name :: rest) = fs.advance followLast i rest := by
  have hname := h.legal hfs
  obtain ⟨above, entries, hd, hlookup⟩ := h.lookup hfs
  conv_lhs => unfold FileSystem.advance
  simp only [hd, if_neg hname.ne_self, if_neg hname.ne_up, if_neg (Nat.not_lt.mpr hname.length_le),
    hlookup]
  split
  · next target hi => exact absurd (kind?_of_node? hi) hkind
  · rfl

/-- Looking up an entry that is a link stops there, to follow it. -/
theorem Holds.advance_link {fs : FileSystem} (hfs : fs.Sound) {d j : Inode} {name target : Bytes}
    (h : fs.Holds d name j) (hj : fs.node? j = some (.link target)) (rest : List Bytes) :
    fs.advance true d (name :: rest) = .ok (.link d target rest) := by
  have hname := h.legal hfs
  obtain ⟨above, entries, hd, hlookup⟩ := h.lookup hfs
  rw [advance_of_link hd hname.ne_self hname.ne_up (Nat.not_lt.mpr hname.length_le) hlookup hj,
    Bool.not_true, Bool.and_false, if_neg Bool.false_ne_true]

/-- The path of a directory in another one leads to it, as long as it is not too long. -/
theorem Holds.stat {fs : FileSystem} (hfs : fs.Sound) {path : Text} {d i : Inode} {name : Bytes}
    (h : fs.Holds d name i) (hstat : fs.stat path = .ok d) (hkind : fs.kind? i = some .directory)
    (hfits : (Walk.entryPath path (Utf8.decode name)).Fits) :
    fs.stat (Walk.entryPath path (Utf8.decode name)) = .ok i := by
  obtain ⟨entries, hentries, hmem⟩ := h
  exact stat_entryPath hfs hstat hentries hmem (by simp [hkind]) hfits

theorem Holds.eq_of_stat {fs : FileSystem} (hfs : fs.Sound) {path : Text} {d i j : Inode}
    {name : Bytes} (h : fs.Holds d name i) (hstat : fs.stat path = .ok d)
    (hkind : fs.kind? i = some .directory)
    (hj : fs.stat (Walk.entryPath path (Utf8.decode name)) = .ok j) : j = i :=
  Except.ok.inj (hj.symm.trans (h.stat hfs hstat hkind (fits_of_stat hj)))

/-! ## Below a directory -/

/-- A node lies below a directory, under the names that lead down to it. -/
inductive Below (fs : FileSystem) : Inode → List Bytes → Inode → Prop
  | entry {d i : Inode} {name : Bytes} (h : fs.Holds d name i) : Below fs d [name] i
  | deeper {d e i : Inode} {name : Bytes} {names : List Bytes} (h : fs.Holds d name e)
      (hbelow : Below fs e names i) : Below fs d (name :: names) i

theorem Below.ne_nil {fs : FileSystem} {d i : Inode} {names : List Bytes}
    (h : fs.Below d names i) : names ≠ [] := by
  cases h <;> simp

theorem Below.kind {fs : FileSystem} {d i : Inode} {names : List Bytes}
    (h : fs.Below d names i) : fs.kind? d = some .directory := by
  cases h with
  | entry h => exact h.kind
  | deeper h _ => exact h.kind

theorem Below.legal {fs : FileSystem} (hfs : fs.Sound) {d i : Inode} {names : List Bytes}
    (h : fs.Below d names i) : ∀ name ∈ names, LegalName name := by
  induction h with
  | entry h =>
    intro name hname
    rw [List.mem_singleton] at hname
    exact hname ▸ h.legal hfs
  | deeper h _ ih =>
    intro name hname
    rcases List.mem_cons.mp hname with rfl | hname
    · exact h.legal hfs
    · exact ih name hname

/-- Names lead down to one node. -/
theorem Below.eq {fs : FileSystem} (hfs : fs.Sound) {d i j : Inode} {names : List Bytes}
    (hi : fs.Below d names i) (hj : fs.Below d names j) : i = j := by
  induction hi with
  | entry h =>
    cases hj with
    | entry h' => exact h.eq hfs h'
    | deeper _ hbelow => exact absurd rfl hbelow.ne_nil
  | deeper h hbelow ih =>
    cases hj with
    | entry h' => exact absurd rfl hbelow.ne_nil
    | deeper h' hbelow' =>
      cases h.eq hfs h'
      exact ih hbelow'

/-- What lies below a node below a directory lies below the directory. -/
theorem Below.append {fs : FileSystem} {d e i : Inode} {names others : List Bytes}
    (h : fs.Below d names e) (h' : fs.Below e others i) : fs.Below d (names ++ others) i := by
  induction h with
  | entry h => exact .deeper h h'
  | deeper h _ ih => exact .deeper h (ih h')

/-- The last name is one of the directory before it. -/
theorem Below.exists_last {fs : FileSystem} {d i : Inode} {names : List Bytes}
    (h : fs.Below d names i) :
    ∃ front last e, names = front ++ [last] ∧ fs.Holds e last i ∧
      (front = [] ∧ e = d ∨ fs.Below d front e) := by
  induction h with
  | @entry d i name h => exact ⟨[], name, d, rfl, h, Or.inl ⟨rfl, rfl⟩⟩
  | @deeper d e i name names h _ ih =>
    obtain ⟨front, last, a, rfl, hlast, hfront⟩ := ih
    refine ⟨name :: front, last, a, rfl, hlast, Or.inr ?_⟩
    rcases hfront with ⟨rfl, rfl⟩ | hfront
    · exact .entry h
    · exact .deeper h hfront

/-- Whatever is found in one file system is found in another one as well. -/
structure Within (gs fs : FileSystem) : Prop where
  stat : ∀ {path : Text} {i : Inode}, gs.stat path = .ok i → fs.stat path = .ok i
  kind? : ∀ {i : Inode} {kind : NodeKind}, gs.kind? i = some kind → fs.kind? i = some kind
  holds : ∀ {d i : Inode} {name : Bytes}, gs.Holds d name i → fs.Holds d name i

theorem Within.refl (fs : FileSystem) : fs.Within fs where
  stat h := h
  kind? h := h
  holds h := h

theorem Within.below {gs fs : FileSystem} (h : gs.Within fs) {d i : Inode} {names : List Bytes}
    (hi : gs.Below d names i) : fs.Below d names i := by
  induction hi with
  | entry hholds => exact .entry (h.holds hholds)
  | deeper hholds _ ih => exact .deeper (h.holds hholds) ih

/-! ## Directories as a tree -/

/-- A directory lists another one. -/
def Child (fs : FileSystem) (d c : Inode) : Prop :=
  (∃ name, fs.Holds d name c) ∧ fs.kind? c = some .directory

/-- Directories form a tree: each is listed once, and none lies below itself. -/
structure Tree (fs : FileSystem) : Prop where
  listed_once : ∀ {d e i : Inode} {name other : Bytes}, fs.kind? i = some .directory →
    fs.Holds d name i → fs.Holds e other i → d = e ∧ name = other
  not_below_itself : ∀ i, ¬ TransGen fs.Child i i

/-- What lies below a directory, and is one, is a descendant of it. -/
theorem Below.transGen {fs : FileSystem} {d i : Inode} {names : List Bytes}
    (h : fs.Below d names i) (hi : fs.kind? i = some .directory) : TransGen fs.Child d i := by
  induction h with
  | entry h => exact .single ⟨⟨_, h⟩, hi⟩
  | deeper h hbelow ih => exact .head ⟨⟨_, h⟩, hbelow.kind⟩ (ih hi)

/-- No directory lies below itself. -/
theorem Tree.not_below {fs : FileSystem} (htree : fs.Tree) {d : Inode} {names : List Bytes} :
    ¬ fs.Below d names d :=
  fun h => htree.not_below_itself d (h.transGen h.kind)

/-- What directories list, with the directory and the name. -/
def edges (fs : FileSystem) : List (Inode × Bytes × Inode) :=
  fs.nodes.flatMap fun (d, node) =>
    match node with
    | .directory _ entries => entries.map fun (name, i) => (d, name, i)
    | _ => []

theorem Holds.mem_edges {fs : FileSystem} {d i : Inode} {name : Bytes} (h : fs.Holds d name i) :
    (d, name, i) ∈ fs.edges := by
  obtain ⟨entries, hentries, hmem⟩ := h
  unfold entries? at hentries
  split at hentries
  · next parent listed hnode =>
    cases hentries
    exact List.mem_flatMap.mpr ⟨_, mem_nodes_of_node? hnode, List.mem_map.mpr ⟨_, hmem, rfl⟩⟩
  · cases hentries

/-- The numbers of all directories. -/
def directories (fs : FileSystem) : Finset Inode :=
  ((fs.nodes.map Prod.fst).filter fun i => fs.kind? i = some .directory).toFinset

theorem mem_directories {fs : FileSystem} {i : Inode} :
    i ∈ fs.directories ↔ fs.kind? i = some .directory := by
  rw [directories, List.mem_toFinset, List.mem_filter, decide_eq_true_eq, and_iff_right_iff_imp]
  intro h
  obtain ⟨node, hnode, -⟩ := Option.map_eq_some_iff.mp h
  exact List.mem_map_of_mem (mem_nodes_of_node? hnode)

theorem card_directories_le (fs : FileSystem) : fs.directories.card ≤ fs.nodes.length := by
  unfold directories
  refine (List.toFinset_card_le _).trans ((List.length_filter_le _ _).trans ?_)
  rw [List.length_map]

open Classical in
/-- The directories in and below a directory. -/
noncomputable def subtree (fs : FileSystem) (d : Inode) : Finset Inode :=
  fs.directories.filter fun i => ReflTransGen fs.Child d i

theorem mem_subtree {fs : FileSystem} {d i : Inode} :
    i ∈ fs.subtree d ↔ fs.kind? i = some .directory ∧ ReflTransGen fs.Child d i := by
  classical
  rw [subtree, Finset.mem_filter, mem_directories]

theorem card_subtree_le (fs : FileSystem) (d : Inode) :
    (fs.subtree d).card ≤ fs.directories.card :=
  Finset.card_le_card fun _ hi => mem_directories.mpr (mem_subtree.mp hi).1

theorem subtree_subset {fs : FileSystem} {d c : Inode} (h : fs.Child d c) :
    fs.subtree c ⊆ fs.subtree d := by
  intro i hi
  obtain ⟨hkind, hreach⟩ := mem_subtree.mp hi
  exact mem_subtree.mpr ⟨hkind, hreach.head h⟩

theorem self_mem_subtree {fs : FileSystem} {d : Inode} (h : fs.kind? d = some .directory) :
    d ∈ fs.subtree d :=
  mem_subtree.mpr ⟨h, ReflTransGen.refl⟩

section
variable {fs : FileSystem} (htree : fs.Tree)
include htree

theorem Tree.parent_eq {d e i : Inode} (hd : fs.Child d i) (he : fs.Child e i) : d = e := by
  obtain ⟨⟨name, hname⟩, hkind⟩ := hd
  obtain ⟨⟨other, hother⟩, -⟩ := he
  exact (htree.listed_once hkind hname hother).1

theorem Tree.not_mem_subtree_child {d c : Inode} (h : fs.Child d c) : d ∉ fs.subtree c :=
  fun hd => htree.not_below_itself d (TransGen.head' h (mem_subtree.mp hd).2)

/-- The subtrees of two children have nothing in common. -/
theorem Tree.disjoint_subtrees {d a b : Inode} (ha : fs.Child d a) (hb : fs.Child d b)
    (hne : a ≠ b) : Disjoint (fs.subtree a) (fs.subtree b) := by
  -- a chain from one child down to the other would run through `d`, their only parent
  have hapart {x y : Inode} (hx : fs.Child d x) (hy : fs.Child d y) (hxy : x ≠ y) :
      ¬ ReflTransGen fs.Child x y := by
    intro hreach
    rcases ReflTransGen.cases_tail hreach with heq | ⟨e, hxe, hey⟩
    · exact hxy heq.symm
    · have hed : e = d := htree.parent_eq hey hy
      subst hed
      exact htree.not_below_itself e (TransGen.head' hx hxe)
  -- chains up from a common directory are unique, so one of the children lies on the other's chain
  rw [Finset.disjoint_left]
  intro i hia hib
  have hpa := (mem_subtree.mp hia).2
  have hpb := (mem_subtree.mp hib).2
  rw [← reflTransGen_swap] at hpa hpb
  have hunique : Relator.RightUnique (Function.swap fs.Child) := fun x y z hy hz =>
    htree.parent_eq hy hz
  rcases ReflTransGen.total_of_right_unique hunique hpa hpb with hab | hba
  · rw [reflTransGen_swap] at hab
    exact hapart hb ha (Ne.symm hne) hab
  · rw [reflTransGen_swap] at hba
    exact hapart ha hb hne hba

/-- A directory has more directories in and below it than its children have together. -/
theorem Tree.sum_card_subtree_lt {d : Inode} (hd : fs.kind? d = some .directory)
    {children : List Inode} (hnodup : children.Nodup) (hchildren : ∀ c ∈ children, fs.Child d c) :
    (children.map fun c => (fs.subtree c).card).sum < (fs.subtree d).card := by
  have hdisjoint : (children.toFinset : Set Inode).PairwiseDisjoint fs.subtree := by
    intro a ha b hb hne
    have ha : fs.Child d a := hchildren a (by simpa using ha)
    have hb : fs.Child d b := hchildren b (by simpa using hb)
    exact htree.disjoint_subtrees ha hb hne
  rw [← List.sum_toFinset _ hnodup, ← Finset.card_biUnion hdisjoint]
  refine Finset.card_lt_card (Finset.ssubset_iff_subset_ne.mpr ⟨?_, ?_⟩)
  · intro i hi
    obtain ⟨c, hc, hi⟩ := Finset.mem_biUnion.mp hi
    exact subtree_subset (hchildren c (List.mem_toFinset.mp hc)) hi
  · -- `d` itself is in none of the subtrees
    intro heq
    have hmem : d ∈ children.toFinset.biUnion fs.subtree := heq ▸ self_mem_subtree hd
    obtain ⟨c, hc, hi⟩ := Finset.mem_biUnion.mp hmem
    exact htree.not_mem_subtree_child (hchildren c (List.mem_toFinset.mp hc)) hi

theorem Tree.card_subtree_child_lt {d c : Inode} (h : fs.Child d c) :
    (fs.subtree c).card < (fs.subtree d).card := by
  obtain ⟨name, hname⟩ := h.1
  have hsum := htree.sum_card_subtree_lt hname.kind (List.nodup_singleton c) (by simpa using h)
  simpa using hsum

end

end BundleManifest.FileSystem
