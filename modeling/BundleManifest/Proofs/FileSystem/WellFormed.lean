/-
# BundleManifest.Proofs.FileSystem.WellFormed — what every change keeps

A file system is `WellFormed` when its nodes form one tree under the root: every entry stands for a node,
every node but the root has one entry, every directory knows the one that lists it, and no directory lies
below itself. Looking up and down the tree then finds all that there is (`WellFormed.encloses_eq_true_iff`,
`WellFormed.mem_below_iff`). A change gives a name to a new node (`WellFormed.addEntry`), takes a name away
with all that lies below it (`WellFormed.prune`), or gives a node another name (`WellFormed.relink`). Each
of these keeps a file system well-formed, hence so does every change (`WellFormed.apply`), and whatever
changes make of the empty file system is well-formed (`wellFormed_made`): there every node has one place
below the root (`existsUnique_below_made`).
-/
import BundleManifest.Proofs.FileSystem.Descent
import BundleManifest.Proofs.FileSystem.Edits

namespace BundleManifest.FileSystem

open Relation

variable {fs : FileSystem}

/-- One more edge closes no circle unless its end leads back to its start. -/
theorem not_transGen_of_one_more {α : Type} {R S : α → α → Prop} {d c : α}
    (hacyclic : ∀ a, ¬ TransGen R a a) (hmore : ∀ a b, S a b → R a b ∨ a = d ∧ b = c)
    (hback : ¬ ReflTransGen R c d) (a : α) : ¬ TransGen S a a := by
  -- a chain that takes the new edge takes it once
  have hchain {a b : α} (h : TransGen S a b) :
      TransGen R a b ∨ ReflTransGen R a d ∧ ReflTransGen R c b := by
    induction h with
    | single hstep =>
      rcases hmore _ _ hstep with hstep | ⟨rfl, rfl⟩
      · exact Or.inl (.single hstep)
      · exact Or.inr ⟨.refl, .refl⟩
    | tail _ hstep ih =>
      rcases hmore _ _ hstep with hstep | ⟨rfl, rfl⟩
      · rcases ih with hchain | ⟨hbefore, hafter⟩
        · exact Or.inl (hchain.tail hstep)
        · exact Or.inr ⟨hbefore, hafter.tail hstep⟩
      · rcases ih with hchain | ⟨-, hafter⟩
        · exact Or.inr ⟨hchain.to_reflTransGen, .refl⟩
        · exact absurd hafter hback
  intro h
  rcases hchain h with h | ⟨hbefore, hafter⟩
  · exact hacyclic a h
  · exact hback (hafter.trans hbefore)

/-! ## The invariant -/

/-- The nodes form a tree under the root: each of the others has one entry, and the directory that lists
a directory is the one above it. The root is above itself. -/
structure WellFormed (fs : FileSystem) : Prop where
  sound : fs.Sound
  numbers : fs.numbers.Nodup
  root : fs.parent? rootInode = some rootInode
  unlisted : ∀ {d : Inode} {name : Bytes}, ¬ fs.Holds d name rootInode
  entry : ∀ {d i : Inode} {name : Bytes}, fs.Holds d name i → fs.node? i ≠ none
  listed : ∀ {i : Inode}, fs.node? i ≠ none → i ≠ rootInode → ∃ d name, fs.Holds d name i
  listed_once : ∀ {d e i : Inode} {name other : Bytes}, fs.Holds d name i → fs.Holds e other i →
    d = e ∧ name = other
  above : ∀ {d i above : Inode} {name : Bytes}, fs.Holds d name i → fs.parent? i = some above →
    above = d
  acyclic : ∀ i, ¬ TransGen fs.Child i i

theorem wellFormed_empty : empty.WellFormed := by
  have hnone {d i : Inode} {name : Bytes} : ¬ empty.Holds d name i :=
    fun h => absurd h.mem_edges (by simp [edges, empty])
  constructor
  · exact sound_empty
  · decide
  · rfl
  · exact hnone
  · exact fun h => absurd h hnone
  · intro i hi hroot
    rw [Ne, node?_eq_none_iff, not_not] at hi
    exact absurd (List.mem_singleton.mp hi) hroot
  · exact fun h => absurd h hnone
  · exact fun h => absurd h hnone
  · intro i hi
    obtain ⟨d, ⟨⟨name, hname⟩, -⟩, -⟩ := TransGen.head'_iff.mp hi
    exact hnone hname

namespace WellFormed

section
variable (h : fs.WellFormed)
include h

theorem kind?_root : fs.kind? rootInode = some .directory := by
  obtain ⟨entries, hroot⟩ := parent?_eq_some_iff.mp h.root
  exact kind?_of_node? hroot

theorem ne_root {d i : Inode} {name : Bytes} (hholds : fs.Holds d name i) : i ≠ rootInode := by
  rintro rfl
  exact h.unlisted hholds

theorem tree : fs.Tree where
  listed_once _ hi hj := h.listed_once hi hj
  not_below_itself := h.acyclic

theorem whole (hhere : fs.kind? fs.here = some .directory) : fs.Whole where
  root := h.kind?_root
  here := hhere
  entry := h.entry
  listed_once := h.listed_once
  parent := by
    intro d above entries hd
    have hparent := parent?_eq_some_iff.mpr ⟨entries, hd⟩
    by_cases hroot : d = rootInode
    · subst hroot
      obtain rfl := Option.some.inj (h.root.symm.trans hparent)
      exact h.kind?_root
    · obtain ⟨e, name, hholds⟩ := h.listed (by simp [hd]) hroot
      obtain rfl := h.above hholds hparent
      exact hholds.kind

theorem placed
    (hhere : ∃ names, fs.herePath = realPath names ∧ fs.Descends rootInode names fs.here) :
    fs.Placed where
  top hroot := Option.some.inj ((parent?_eq_some_iff.mpr ⟨_, hroot⟩).symm.trans h.root)
  unlisted := h.unlisted
  above hholds hi := h.above hholds (parent?_eq_some_iff.mpr ⟨_, hi⟩)
  here := hhere

/-- Every node but the root lies below the root. -/
theorem exists_below {i : Inode} (hi : fs.node? i ≠ none) (hroot : i ≠ rootInode) :
    ∃ names, fs.Below rootInode names i := by
  obtain ⟨d, name, hholds⟩ := h.listed hi hroot
  -- the directories above have ever larger subtrees
  induction hroom : fs.directories.card - (fs.subtree d).card using Nat.strong_induction_on
    generalizing d i name with
  | _ room ih =>
    by_cases hd : d = rootInode
    · exact ⟨[name], hd ▸ .entry hholds⟩
    · have hused : fs.node? d ≠ none := by
        rw [Ne, ← kind?_eq_none_iff, hholds.kind]
        simp
      obtain ⟨e, other, hother⟩ := h.listed hused hd
      have hlt := h.tree.card_subtree_child_lt ⟨⟨other, hother⟩, hholds.kind⟩
      have hle := fs.card_subtree_le e
      obtain ⟨names, hbelow⟩ := ih _ (by omega) hused hd e other hother rfl
      exact ⟨names ++ [name], hbelow.append (.entry hholds)⟩

/-! ## Looking up and down the tree -/

theorem card_subtree_le_of_reflTransGen {d c : Inode} (hreach : ReflTransGen fs.Child d c) :
    (fs.subtree c).card ≤ (fs.subtree d).card := by
  induction hreach with
  | refl => exact Nat.le_refl _
  | tail _ hstep ih => exact (h.tree.card_subtree_child_lt hstep).le.trans ih

/-- Going up finds every directory that a directory lies below, if there are steps enough. -/
theorem encloses_of_reflTransGen {outer inner : Inode} {fuel : Nat}
    (hreach : ReflTransGen fs.Child outer inner)
    (hfuel : (fs.subtree outer).card ≤ fuel + (fs.subtree inner).card) :
    fs.encloses outer fuel inner = true := by
  induction fuel generalizing inner with
  | zero =>
    rw [encloses, beq_iff_eq]
    rcases ReflTransGen.cases_tail hreach with heq | ⟨d, hd, hstep⟩
    · exact heq
    · have hle := h.card_subtree_le_of_reflTransGen hd
      have hlt := h.tree.card_subtree_child_lt hstep
      omega
  | succ fuel ih =>
    rw [encloses, Bool.or_eq_true, beq_iff_eq]
    rcases ReflTransGen.cases_tail hreach with heq | ⟨d, hd, hstep⟩
    · exact Or.inl heq
    · have hlt := h.tree.card_subtree_child_lt hstep
      obtain ⟨⟨name, hholds⟩, hkind⟩ := hstep
      obtain ⟨above, entries, hnode⟩ := node?_of_kind? hkind
      -- the directory above is the one that the chain comes from
      obtain rfl := h.above hholds (parent?_eq_some_iff.mpr ⟨entries, hnode⟩)
      have hne : above ≠ inner := by
        rintro rfl
        exact Nat.lt_irrefl _ hlt
      rw [hnode]
      refine Or.inr ?_
      rw [Bool.and_eq_true, bne_iff_ne]
      exact ⟨hne, ih hd (by omega)⟩

/-- What going up finds is above. -/
theorem reflTransGen_of_encloses {outer inner : Inode} {fuel : Nat}
    (hencloses : fs.encloses outer fuel inner = true) : ReflTransGen fs.Child outer inner := by
  induction fuel generalizing inner with
  | zero =>
    rw [encloses, beq_iff_eq] at hencloses
    exact hencloses ▸ .refl
  | succ fuel ih =>
    rw [encloses, Bool.or_eq_true, beq_iff_eq] at hencloses
    rcases hencloses with rfl | hencloses
    · exact .refl
    split at hencloses
    · next above entries hnode =>
      rw [Bool.and_eq_true, bne_iff_ne] at hencloses
      obtain ⟨hne, hencloses⟩ := hencloses
      have hparent := parent?_eq_some_iff.mpr ⟨entries, hnode⟩
      -- only the root is above itself
      have hroot : inner ≠ rootInode := by
        rintro rfl
        exact hne (Option.some.inj (hparent.symm.trans h.root))
      obtain ⟨d, name, hholds⟩ := h.listed (by simp [hnode]) hroot
      obtain rfl := h.above hholds hparent
      exact (ih hencloses).tail ⟨⟨name, hholds⟩, kind?_of_node? hnode⟩
    · cases hencloses

/-- Going up as many steps as there are nodes decides whether a directory lies in or below another one. -/
theorem encloses_eq_true_iff {outer inner : Inode} :
    fs.encloses outer fs.nodes.length inner = true ↔ ReflTransGen fs.Child outer inner := by
  constructor
  · exact h.reflTransGen_of_encloses
  · intro hreach
    have hle := (fs.card_subtree_le outer).trans fs.card_directories_le
    exact h.encloses_of_reflTransGen hreach (by omega)

theorem length_le_card_subtree {d i : Inode} {names : List Bytes} (hbelow : fs.Below d names i) :
    names.length ≤ (fs.subtree d).card := by
  induction hbelow with
  | entry hholds => exact Finset.card_pos.mpr ⟨_, self_mem_subtree hholds.kind⟩
  | deeper hholds hbelow ih =>
    have hlt := h.tree.card_subtree_child_lt ⟨⟨_, hholds⟩, hbelow.kind⟩
    rw [List.length_cons]
    omega

/-- Going down as many steps as there are nodes finds all that is in or below a node. -/
theorem mem_below_iff {i j : Inode} :
    j ∈ fs.below fs.nodes.length [i] ↔ j = i ∨ ∃ names, fs.Below i names j := by
  constructor
  · intro hj
    rcases exists_below_of_mem hj with hmem | ⟨d, hmem, names, hbelow⟩
    · exact Or.inl (List.mem_singleton.mp hmem)
    · exact Or.inr ⟨names, List.mem_singleton.mp hmem ▸ hbelow⟩
  · rintro (rfl | ⟨names, hbelow⟩)
    · exact mem_below_of_mem List.mem_cons_self
    · refine mem_below_of_below hbelow List.mem_cons_self ?_
      exact (h.length_le_card_subtree hbelow).trans
        ((fs.card_subtree_le i).trans fs.card_directories_le)

/-! ## Small changes -/

/-- A directory gets a new name for a new node. -/
theorem addEntry {d : Inode} {name : Bytes} {node : Node} (hd : fs.kind? d = some .directory)
    (hname : LegalName name) (hfree : fs.Lacks d name) (hsound : node.Sound)
    (hnode : node = .directory d [] ∨ node.kind ≠ .directory) :
    (fs.addEntry d name node).WellFormed := by
  have hfresh : fs.kind? fs.fresh = none := kind?_eq_none_iff.mpr (node?_fresh fs)
  have hne {i : Inode} (hi : fs.kind? i ≠ none) : i ≠ fs.fresh := by
    rintro rfl
    exact hi hfresh
  have hunlisted {e : Inode} {other : Bytes} : ¬ fs.Holds e other fs.fresh :=
    fun hholds => h.entry hholds (node?_fresh fs)
  have hcases {e i : Inode} {other : Bytes} : (fs.addEntry d name node).Holds e other i ↔
      fs.Holds e other i ∨ e = d ∧ other = name ∧ i = fs.fresh := holds_addEntry_iff hd hnode
  constructor
  · exact sound_addEntry h.sound hname hfree hsound
  · rw [numbers_addEntry, ← List.concat_eq_append, List.nodup_concat]
    exact ⟨node?_eq_none_iff.mp (node?_fresh fs), h.numbers⟩
  · rw [parent?_addEntry, if_neg (hne (by simp [h.kind?_root]))]
    exact h.root
  · intro e other hholds
    rcases hcases.mp hholds with hholds | ⟨-, -, heq⟩
    · exact h.unlisted hholds
    · exact hne (by simp [h.kind?_root]) heq
  · intro e i other hholds
    rw [Ne, ← kind?_eq_none_iff, kind?_addEntry]
    rcases hcases.mp hholds with hholds | ⟨-, -, heq⟩
    · rw [if_neg (hne (mt kind?_eq_none_iff.mp (h.entry hholds))), kind?_eq_none_iff]
      exact h.entry hholds
    · simp [heq]
  · intro i hi hroot
    by_cases heq : i = fs.fresh
    · exact ⟨d, name, hcases.mpr (Or.inr ⟨rfl, rfl, heq⟩)⟩
    · rw [Ne, ← kind?_eq_none_iff, kind?_addEntry, if_neg heq, kind?_eq_none_iff] at hi
      obtain ⟨e, other, hholds⟩ := h.listed hi hroot
      exact ⟨e, other, hcases.mpr (Or.inl hholds)⟩
  · intro a b i other another hi hj
    rcases hcases.mp hi with hi | ⟨rfl, rfl, rfl⟩
    · rcases hcases.mp hj with hj | ⟨-, -, rfl⟩
      · exact h.listed_once hi hj
      · exact absurd hi hunlisted
    · rcases hcases.mp hj with hj | ⟨rfl, rfl, -⟩
      · exact absurd hj hunlisted
      · exact ⟨rfl, rfl⟩
  · intro e i above other hholds hi
    rw [parent?_addEntry] at hi
    rcases hcases.mp hholds with hholds | ⟨rfl, -, rfl⟩
    · rw [if_neg (hne (mt kind?_eq_none_iff.mp (h.entry hholds)))] at hi
      exact h.above hholds hi
    · rw [if_pos rfl] at hi
      rcases hnode with rfl | hkind
      · exact (Option.some.inj hi).symm
      · cases node <;> simp_all [Node.above?, Node.kind]
  · refine not_transGen_of_one_more h.acyclic (d := d) (c := fs.fresh) ?_ ?_
    · rintro a b ⟨⟨other, hholds⟩, hkind⟩
      rcases hcases.mp hholds with hholds | ⟨rfl, -, rfl⟩
      · rw [kind?_addEntry, if_neg (hne (mt kind?_eq_none_iff.mp (h.entry hholds)))] at hkind
        exact Or.inl ⟨⟨other, hholds⟩, hkind⟩
      · exact Or.inr ⟨rfl, rfl⟩
    · -- nothing lies below the new node
      intro hback
      rcases ReflTransGen.cases_head hback with heq | ⟨c, ⟨⟨other, hholds⟩, -⟩, -⟩
      · exact hne (by simp [hd]) heq.symm
      · exact hne (by simp [hholds.kind]) rfl

/-- An entry goes, with all the nodes that lie in and below what it stood for. -/
theorem prune {d i : Inode} {name : Bytes} {gone : List Inode} (hholds : fs.Holds d name i)
    (hi : i ∈ gone) (hlisted : ∀ j ∈ gone, j = i ∨ ∃ e ∈ gone, ∃ other, fs.Holds e other j)
    (hclosed : ∀ e ∈ gone, ∀ other j, fs.Holds e other j → j ∈ gone) :
    (fs.prune d name gone).WellFormed := by
  have hpart : (fs.prune d name gone).PartOf fs :=
    partOf_prune h.entry h.listed_once hholds hlisted
  have hroot : rootInode ∉ gone := by
    intro hmem
    rcases hlisted _ hmem with rfl | ⟨e, -, other, hroot⟩
    · exact h.unlisted hholds
    · exact h.unlisted hroot
  constructor
  · exact sound_prune h.sound d name gone
  · exact h.numbers.sublist (numbers_prune_sublist d name gone)
  · rw [parent?_prune, if_neg hroot]
    exact h.root
  · exact fun hleft => h.unlisted (hpart.holds hleft)
  · exact hpart.entry
  · intro j hj hne
    rw [Ne, ← kind?_eq_none_iff, kind?_prune] at hj
    split at hj
    · exact absurd rfl hj
    next hkept =>
    obtain ⟨e, other, hother⟩ := h.listed (mt kind?_eq_none_iff.mpr hj) hne
    refine ⟨e, other, holds_prune_iff.mpr ⟨hother, fun hmem => hkept (hclosed _ hmem _ _ hother), ?_⟩⟩
    -- the entry that goes stands for something that goes
    rintro ⟨rfl, rfl⟩
    exact hkept (hother.eq h.sound hholds ▸ hi)
  · exact fun hj hj' => h.listed_once (hpart.holds hj) (hpart.holds hj')
  · intro e j above other hother hj
    rw [parent?_prune] at hj
    split at hj
    · cases hj
    · exact h.above (hpart.holds hother) hj
  · exact fun j hj => h.acyclic j (TransGen.mono (fun _ _ => hpart.child) j j hj)

/-- A node gets another name, in a directory that does not lie in or below it. -/
theorem relink {i e d : Inode} {old name : Bytes} (hholds : fs.Holds e old i)
    (hd : fs.kind? d = some .directory) (hname : LegalName name) (hfree : fs.Lacks d name)
    (hback : ¬ ReflTransGen fs.Child i d) : (fs.relink i e old d name).WellFormed := by
  have hcases {a j : Inode} {other : Bytes} : (fs.relink i e old d name).Holds a other j ↔
      (fs.Holds a other j ∧ ¬(a = e ∧ other = old)) ∨ a = d ∧ other = name ∧ j = i :=
    holds_relink_iff hd
  -- the node has lost the one name that it had
  have hother {a j : Inode} {other : Bytes} (hj : fs.Holds a other j)
      (hkept : ¬(a = e ∧ other = old)) : j ≠ i := by
    rintro rfl
    exact hkept (h.listed_once hj hholds)
  constructor
  · exact sound_relink h.sound hname hfree
  · rw [numbers_relink]
    exact h.numbers
  · rw [parent?_relink, if_neg (h.ne_root hholds).symm]
    exact h.root
  · intro a other hroot
    rcases hcases.mp hroot with ⟨hroot, -⟩ | ⟨-, -, heq⟩
    · exact h.unlisted hroot
    · exact h.ne_root hholds heq.symm
  · intro a j other hj
    rw [Ne, ← kind?_eq_none_iff, kind?_relink, kind?_eq_none_iff]
    rcases hcases.mp hj with ⟨hj, -⟩ | ⟨-, -, rfl⟩
    · exact h.entry hj
    · exact h.entry hholds
  · intro j hj hroot
    by_cases heq : j = i
    · exact ⟨d, name, hcases.mpr (Or.inr ⟨rfl, rfl, heq⟩)⟩
    · rw [Ne, ← kind?_eq_none_iff, kind?_relink, kind?_eq_none_iff] at hj
      obtain ⟨a, other, hlisted⟩ := h.listed hj hroot
      refine ⟨a, other, hcases.mpr (Or.inl ⟨hlisted, ?_⟩)⟩
      rintro ⟨rfl, rfl⟩
      exact heq (hlisted.eq h.sound hholds)
  · intro a b j other another hj hj'
    rcases hcases.mp hj with ⟨hj, hkept⟩ | ⟨rfl, rfl, rfl⟩
    · rcases hcases.mp hj' with ⟨hj', -⟩ | ⟨-, -, heq⟩
      · exact h.listed_once hj hj'
      · exact absurd heq (hother hj hkept)
    · rcases hcases.mp hj' with ⟨hj', hkept⟩ | ⟨rfl, rfl, -⟩
      · exact absurd rfl (hother hj' hkept)
      · exact ⟨rfl, rfl⟩
  · intro a j above other hj habove
    rw [parent?_relink] at habove
    rcases hcases.mp hj with ⟨hj, hkept⟩ | ⟨rfl, -, rfl⟩
    · rw [if_neg (hother hj hkept)] at habove
      exact h.above hj habove
    · rw [if_pos rfl] at habove
      obtain ⟨_, -, heq⟩ := Option.map_eq_some_iff.mp habove
      exact heq.symm
  · refine not_transGen_of_one_more h.acyclic (d := d) (c := i) ?_ hback
    rintro a b ⟨⟨other, hlisted⟩, hkind⟩
    rw [kind?_relink] at hkind
    rcases hcases.mp hlisted with ⟨hlisted, -⟩ | ⟨rfl, -, rfl⟩
    · exact Or.inl ⟨⟨other, hlisted⟩, hkind⟩
    · exact Or.inr ⟨rfl, rfl⟩

/-- A file gets another content. -/
theorem setNode {i : Inode} (hi : fs.kind? i = some .regular) (content : Bytes) :
    (fs.setNode i (.regular content)).WellFormed := by
  obtain ⟨node, hnode, hkind⟩ := Option.map_eq_some_iff.mp hi
  obtain ⟨old, rfl⟩ : ∃ old, node = .regular old := by
    cases node <;> simp_all [Node.kind]
  -- what is known of the tree does not change
  have hsame (j : Inode) : (fs.setNode i (.regular content)).kind? j = fs.kind? j ∧
      (fs.setNode i (.regular content)).entries? j = fs.entries? j ∧
      (fs.setNode i (.regular content)).parent? j = fs.parent? j := by
    unfold FileSystem.kind? entries? parent?
    rw [node?_setNode_eq]
    by_cases hj : j = i
    · rw [if_pos hj, hj, hnode]
      exact ⟨rfl, rfl, rfl⟩
    · rw [if_neg hj]
      exact ⟨rfl, rfl, rfl⟩
  have hused (j : Inode) :
      (fs.setNode i (.regular content)).node? j ≠ none ↔ fs.node? j ≠ none := by
    rw [Ne, Ne, ← kind?_eq_none_iff, ← kind?_eq_none_iff, (hsame j).1]
  have hholds {d j : Inode} {name : Bytes} :
      (fs.setNode i (.regular content)).Holds d name j ↔ fs.Holds d name j := by
    unfold Holds
    rw [(hsame d).2.1]
  constructor
  · exact sound_setNode h.sound trivial
  · rw [numbers_setNode]
    exact h.numbers
  · rw [(hsame rootInode).2.2]
    exact h.root
  · exact fun hroot => h.unlisted (hholds.mp hroot)
  · exact fun hj => (hused _).mpr (h.entry (hholds.mp hj))
  · intro j hj hroot
    obtain ⟨d, name, hname⟩ := h.listed ((hused j).mp hj) hroot
    exact ⟨d, name, hholds.mpr hname⟩
  · exact fun hj hj' => h.listed_once (hholds.mp hj) (hholds.mp hj')
  · intro d j above name hj habove
    rw [(hsame j).2.2] at habove
    exact h.above (hholds.mp hj) habove
  · refine fun j hj => h.acyclic j (TransGen.mono ?_ j j hj)
    rintro a b ⟨⟨name, hname⟩, hkind⟩
    rw [(hsame b).1] at hkind
    exact ⟨⟨name, hholds.mp hname⟩, hkind⟩

/-! ## Operations -/

theorem make {path : Text} {node : Inode → Node} {made : FileSystem}
    (hsound : ∀ d, (node d).Sound)
    (hnode : ∀ d, node d = .directory d [] ∨ (node d).kind ≠ .directory)
    (hmade : fs.make path node = .ok made) : made.WellFormed := by
  obtain ⟨d, name, hvacancy, rfl⟩ := make_eq_ok_iff.mp hmade
  obtain ⟨hname, hfree, hd⟩ := locate_vacancy h.sound hvacancy
  exact h.addEntry hd hname hfree (hsound d) (hnode d)

theorem write {path : Text} {content : Bytes} {written : FileSystem}
    (hwritten : fs.write path content = .ok written) : written.WellFormed := by
  rcases cases_of_write hwritten with ⟨d, name, hvacancy, rfl⟩ | ⟨i, hi, rfl⟩ | rfl
  · obtain ⟨hname, hfree, hd⟩ := locate_vacancy h.sound hvacancy
    exact h.addEntry hd hname hfree trivial (Or.inr (by simp [Node.kind]))
  · exact h.setNode hi content
  · exact h

theorem remove {path : Text} {left : FileSystem} (hleft : fs.remove path = .ok left) :
    left.WellFormed := by
  obtain ⟨route, d, name, i, -, -, hholds, -, rfl⟩ := eq_prune_of_remove hleft
  refine h.prune hholds (h.mem_below_iff.mpr (Or.inl rfl)) (fun j hj => ?_)
    fun e he other j hj => h.mem_below_iff.mpr (Or.inr ?_)
  · simpa using exists_holds_of_mem_below hj
  · rcases h.mem_below_iff.mp he with rfl | ⟨names, hbelow⟩
    · exact ⟨[other], .entry hj⟩
    · exact ⟨names ++ [other], hbelow.append (.entry hj)⟩

theorem move {slashed : Bool} {e d : Inode} {old name : Bytes} {moved : FileSystem}
    (hd : fs.kind? d = some .directory)
    (hname : name.length ≤ Route.nameLimit → LegalName name)
    (hmove : fs.move slashed e old d name = .ok moved) : moved.WellFormed := by
  obtain ⟨i, hi, -, hencloses, hcases⟩ := cases_of_move hmove
  have hholds := holds_of_occupant hi
  have hback : ¬ ReflTransGen fs.Child i d := by
    rw [← h.encloses_eq_true_iff, hencloses]
    exact Bool.false_ne_true
  rcases hcases with ⟨hfree, rfl⟩ | ⟨-, rfl⟩ | ⟨j, hj, hji, hkinds, rfl⟩
  · exact h.relink hholds hd (hname (length_le_of_occupant hfree)) (occupant_none hfree) hback
  · exact h
  · -- what is replaced lists nothing, so it goes alone
    have hlists := holds_of_occupant hj
    have hbare {k : Inode} {other : Bytes} : ¬ fs.Holds j other k := by
      rintro ⟨entries, hentries, hmem⟩
      rcases hkinds with ⟨-, hnil⟩ | ⟨-, hnone⟩
      · cases hnil.symm.trans hentries
        cases hmem
      · cases hnone.symm.trans hentries
    have hlisted (k : Inode) (hk : k ∈ [j]) :
        k = j ∨ ∃ e ∈ [j], ∃ other, fs.Holds e other k := Or.inl (List.mem_singleton.mp hk)
    have hpart : (fs.prune d name [j]).PartOf fs :=
      partOf_prune h.entry h.listed_once hlists hlisted
    have hlacks : (fs.unlink d name j).Lacks d name :=
      lacks_dropNode (lacks_dropEntry_self fs d name)
    rw [unlink_eq_prune] at hlacks ⊢
    refine WellFormed.relink (h.prune hlists List.mem_cons_self hlisted ?_) ?_ ?_
      (hname (length_le_of_occupant hj)) hlacks fun hreach => hback ?_
    · intro a ha other k hk
      exact absurd (List.mem_singleton.mp ha ▸ hk) hbare
    · refine holds_prune_iff.mpr ⟨hholds, fun hmem => ?_, ?_⟩
      · exact hbare (List.mem_singleton.mp hmem ▸ hholds)
      · rintro ⟨rfl, rfl⟩
        exact hji (hlists.eq h.sound hholds)
    · rw [kind?_prune, if_neg fun hmem => hbare (List.mem_singleton.mp hmem ▸ hlists)]
      exact hd
    · exact ReflTransGen.mono (fun _ _ => hpart.child) _ _ hreach

theorem rename {source target : Text} {renamed : FileSystem}
    (hrename : fs.rename source target = .ok renamed) : renamed.WellFormed := by
  obtain ⟨_, targetRoute, _, _, d, name, -, htarget, -, hsite, hmove⟩ :=
    exists_move_of_rename hrename
  obtain ⟨-, -, hd, -⟩ := exists_of_site hsite
  exact h.move hd (legalName_of_site htarget hsite rfl) hmove

theorem attempt {change : Change} {changed : FileSystem}
    (hchanged : change.attempt fs = .ok changed) : changed.WellFormed := by
  cases change with
  | makeDirectory path =>
    have hdirectory (d : Inode) : (Node.directory d []).Sound := ⟨by simp, by simp⟩
    exact h.make hdirectory (fun _ => Or.inl rfl) hchanged
  | write path content => exact h.write hchanged
  | makeLink path target =>
    simp only [Change.attempt] at hchanged
    split at hchanged
    · cases hchanged
    next hzero =>
    have hlink (_ : Inode) : (Node.link target).Sound := hzero
    exact h.make hlink (fun _ => Or.inr (by simp [Node.kind])) hchanged
  | makePipe path =>
    have hpipe (_ : Inode) : Node.pipe.Sound := trivial
    exact h.make hpipe (fun _ => Or.inr (by simp [Node.kind])) hchanged
  | remove path => exact h.remove hchanged
  | rename source target => exact h.rename hchanged

theorem apply (change : Change) : (change.apply fs).WellFormed := by
  unfold Change.apply
  split
  · next changed hchanged => exact h.attempt hchanged
  · exact h

theorem applyAll (changes : List Change) : (fs.applyAll changes).WellFormed := by
  unfold FileSystem.applyAll
  induction changes generalizing fs with
  | nil => exact h
  | cons change changes ih => exact ih (h.apply change)

end

end WellFormed

/-! ## What changes make of the empty file system -/

/-- No change leads to another working directory. -/
theorem here_attempt {change : Change} {changed : FileSystem}
    (h : change.attempt fs = .ok changed) :
    changed.here = fs.here ∧ changed.herePath = fs.herePath := by
  have hmake {path : Text} {node : Inode → Node} (h : fs.make path node = .ok changed) :
      changed.here = fs.here ∧ changed.herePath = fs.herePath := by
    obtain ⟨d, name, -, rfl⟩ := make_eq_ok_iff.mp h
    exact ⟨here_mapEntries .., herePath_mapEntries ..⟩
  cases change with
  | makeDirectory path => exact hmake h
  | write path content =>
    rcases cases_of_write h with ⟨d, name, -, rfl⟩ | ⟨i, -, rfl⟩ | rfl
    · exact ⟨here_mapEntries .., herePath_mapEntries ..⟩
    · exact ⟨rfl, rfl⟩
    · exact ⟨rfl, rfl⟩
  | makeLink path target =>
    simp only [Change.attempt] at h
    split at h
    · cases h
    · exact hmake h
  | makePipe path => exact hmake h
  | remove path =>
    obtain ⟨route, d, name, i, -, -, -, -, rfl⟩ := eq_prune_of_remove h
    exact ⟨here_mapEntries .., herePath_mapEntries ..⟩
  | rename source target =>
    obtain ⟨_, _, e, old, d, name, -, -, -, -, hmove⟩ := exists_move_of_rename h
    obtain ⟨i, -, -, -, hcases⟩ := cases_of_move hmove
    rcases hcases with ⟨-, rfl⟩ | ⟨-, rfl⟩ | ⟨j, -, -, -, rfl⟩
    · exact ⟨here_relink .., herePath_relink ..⟩
    · exact ⟨rfl, rfl⟩
    · exact ⟨(here_relink ..).trans (here_mapEntries ..),
        (herePath_relink ..).trans (herePath_mapEntries ..)⟩

theorem here_applyAll (fs : FileSystem) (changes : List Change) :
    (fs.applyAll changes).here = fs.here ∧ (fs.applyAll changes).herePath = fs.herePath := by
  unfold applyAll
  induction changes generalizing fs with
  | nil => exact ⟨rfl, rfl⟩
  | cons change changes ih =>
    have hstep : (change.apply fs).here = fs.here ∧ (change.apply fs).herePath = fs.herePath := by
      unfold Change.apply
      split
      · next changed hchanged => exact here_attempt hchanged
      · exact ⟨rfl, rfl⟩
    obtain ⟨hhere, hpath⟩ := ih (change.apply fs)
    exact ⟨hhere.trans hstep.1, hpath.trans hstep.2⟩

section
variable (changes : List Change)

theorem wellFormed_made : (empty.applyAll changes).WellFormed := wellFormed_empty.applyAll changes

theorem tree_made : (empty.applyAll changes).Tree := (wellFormed_made changes).tree

theorem whole_made : (empty.applyAll changes).Whole := by
  refine (wellFormed_made changes).whole ?_
  rw [(here_applyAll empty changes).1]
  exact (wellFormed_made changes).kind?_root

theorem placed_made : (empty.applyAll changes).Placed := by
  refine (wellFormed_made changes).placed ⟨[], (here_applyAll empty changes).2, ?_⟩
  rw [(here_applyAll empty changes).1]
  exact Descends.refl _ _

/-- Whatever has been made has one place below the root. -/
theorem existsUnique_below_made {i : Inode} (hi : (empty.applyAll changes).node? i ≠ none)
    (hroot : i ≠ rootInode) : ∃! names, (empty.applyAll changes).Below rootInode names i := by
  obtain ⟨names, hbelow⟩ := (wellFormed_made changes).exists_below hi hroot
  exact ⟨names, hbelow, fun _ hother =>
    hother.unique (whole_made changes) (tree_made changes) hbelow⟩

end

end BundleManifest.FileSystem
