/-
# BundleManifest.Proofs.Walk.Links — what following links costs

Nothing changes during the walk. A walk remembers the directories that it has entered and follows a
link only to a new one: `LinksOnce` says so for a part of a walk, and parts put one after the other
keep it. Real directories are entered again below every link, so the directories that are listed are
counted against the subtrees: without links a directory costs as many listings as its subtree has
directories, and every link adds at most all directories once more (`scans_enter`).
-/
import BundleManifest.Proofs.FileSystem.Tree
import BundleManifest.Proofs.Walk.Sorted

namespace BundleManifest.Walk

/-! ## Counting -/

/-- Whether an event stands for an attempt to list a directory. -/
def Event.isScan : Event → Bool
  | .entered .. => true
  | .note (.walkDirectoryUnreadable ..) => true
  | _ => false

/-- The directory that an event says to be entered through a link. -/
def Event.linked? : Event → Option Inode
  | .entered _ i true => some i
  | _ => none

namespace Run

/-- How often a run lists a directory, or tries to. -/
def scans (r : Run) : Nat := r.trace.countP Event.isScan

/-- The directories that a run enters through links, in the order in which it does. -/
def linked (r : Run) : List Inode := r.trace.filterMap Event.linked?

theorem scans_andThen {first : Run} (h : first.halt = none) (next : State → Run) :
    (first.andThen next).scans = first.scans + (next first.state).scans := by
  rw [scans, trace_andThen h, List.countP_append]
  rfl

theorem linked_andThen {first : Run} (h : first.halt = none) (next : State → Run) :
    (first.andThen next).linked = first.linked ++ (next first.state).linked := by
  rw [linked, trace_andThen h, List.filterMap_append]
  rfl

end Run

/-- Notices about entries are no listings. -/
theorem sight_eq_notice {fs : FileSystem} {followLinks : Bool} {directory : Text}
    {entry : DirectoryEntry} {n : Notice} (h : sight fs followLinks directory entry = .notice n) :
    ∃ path reason, n = .walkEntrySkipped path reason := by
  obtain ⟨name, kind⟩ := entry
  cases kind with
  | directory => cases h
  | regular => cases h
  | special => cases h
  | link =>
    simp only [sight] at h
    split at h
    · cases h
    split at h
    · split at h <;> cases h
    · cases h
    · cases h
      exact ⟨_, _, rfl⟩
    · cases h

section
variable (followLinks : Bool) (path : Text) (d : Inode) (via : Bool) (listed : List DirectoryEntry)
  (s : State)

theorem scans_opening : (opening followLinks path d via listed s).scans = 1 := by
  have hnone : (reported (listed.map (sight s.world.files followLinks path))).countP Event.isScan
      = 0 := by
    rw [List.countP_eq_zero]
    intro e he
    obtain ⟨n, rfl, hn⟩ := mem_reported he
    obtain ⟨entry, -, hsight⟩ := List.mem_map.mp hn
    obtain ⟨_, _, rfl⟩ := sight_eq_notice hsight
    simp [Event.isScan]
  rw [Run.scans, opening, List.countP_cons_of_pos rfl, hnone]

theorem linked_opening : (opening followLinks path d via listed s).linked
    = if via then [d] else [] := by
  rw [Run.linked, opening, List.filterMap_cons, filterMap_reported fun _ => rfl]
  cases via <;> rfl

end

/-! ## New directories -/

/-- The directories that a run enters through links are entered once each, and none of them is among
those that were known before. Whatever was known or is entered is known afterwards. -/
structure LinksOnce (fs : FileSystem) (known : List Inode) (r : Run) : Prop where
  nodup : r.linked.Nodup
  fresh : ∀ i ∈ r.linked, i ∉ known
  directory : ∀ i ∈ r.linked, fs.kind? i = some .directory
  remembered : ∀ i ∈ r.linked, i ∈ r.state.visited
  kept : known ⊆ r.state.visited

namespace LinksOnce

theorem of_linked_eq_nil {fs : FileSystem} {known : List Inode} {r : Run} (h : r.linked = [])
    (hkept : known ⊆ r.state.visited) : LinksOnce fs known r where
  nodup := by simp [h]
  fresh := by simp [h]
  directory := by simp [h]
  remembered := by simp [h]
  kept := hkept

theorem of_linked_eq_singleton {fs : FileSystem} {known : List Inode} {r : Run} {d : Inode}
    (h : r.linked = [d]) (hnew : d ∉ known) (hd : fs.kind? d = some .directory)
    (hmem : d ∈ r.state.visited) (hkept : known ⊆ r.state.visited) : LinksOnce fs known r := by
  constructor
  · rw [h]
    exact List.nodup_singleton d
  · intro i hi
    rw [h, List.mem_singleton] at hi
    exact hi ▸ hnew
  · intro i hi
    rw [h, List.mem_singleton] at hi
    exact hi ▸ hd
  · intro i hi
    rw [h, List.mem_singleton] at hi
    exact hi ▸ hmem
  · exact hkept

theorem andThen {fs : FileSystem} {known : List Inode} {first : Run} {next : State → Run}
    (hhalt : first.halt = none) (hfirst : LinksOnce fs known first)
    (hnext : LinksOnce fs first.state.visited (next first.state)) :
    LinksOnce fs known (first.andThen next) := by
  have hlinked := Run.linked_andThen hhalt next
  have hstate := Run.state_andThen hhalt next
  constructor
  · rw [hlinked, List.nodup_append]
    refine ⟨hfirst.nodup, hnext.nodup, ?_⟩
    -- what the first run enters it remembers, so it is not new to the second
    rintro i hi j hj rfl
    exact hnext.fresh i hj (hfirst.remembered i hi)
  · intro i hi
    rw [hlinked, List.mem_append] at hi
    rcases hi with hi | hi
    · exact hfirst.fresh i hi
    · exact fun hk => hnext.fresh i hi (hfirst.kept hk)
  · intro i hi
    rw [hlinked, List.mem_append] at hi
    rcases hi with hi | hi
    · exact hfirst.directory i hi
    · exact hnext.directory i hi
  · intro i hi
    rw [hstate]
    rw [hlinked, List.mem_append] at hi
    rcases hi with hi | hi
    · exact hnext.kept (hfirst.remembered i hi)
    · exact hnext.remembered i hi
  · rw [hstate]
    exact List.Subset.trans hfirst.kept hnext.kept

theorem each {α : Type} {fs : FileSystem} {P : State → Prop} {f : α → State → Run} {as : List α}
    (hf : ∀ a ∈ as, ∀ s, P s → (f a s).GoesOn P)
    (honce : ∀ a ∈ as, ∀ s, P s → LinksOnce fs s.visited (f a s)) {s : State} (hs : P s) :
    LinksOnce fs s.visited (Run.each f as s) := by
  induction as generalizing s with
  | nil => exact of_linked_eq_nil rfl (List.Subset.refl _)
  | cons a as ih =>
    have hgo := hf a List.mem_cons_self s hs
    exact (honce a List.mem_cons_self s hs).andThen hgo.halt
      (ih (fun b hb => hf b (List.mem_cons_of_mem a hb))
        (fun b hb => honce b (List.mem_cons_of_mem a hb)) hgo.state)

end LinksOnce

/-! ## Walks through files that nobody changes -/

section
variable {fs : FileSystem} (hfs : fs.Sound)
include hfs

/-- What is entered as an item of a directory is a directory, and one that the directory holds
unless the item is a link. -/
theorem entered_item {followLinks : Bool} {path : Text} {d i : Inode}
    {entries : List (Bytes × Inode)} (hstat : fs.stat path = .ok d)
    (hentries : fs.entries? d = some entries) {item : Item}
    (hitem : item ∈ itemsOf fs followLinks path (fs.listing entries))
    (hd : item.isDirectory = true) (hi : fs.stat (entryPath path item.name) = .ok i) :
    fs.kind? i = some .directory ∧
      (item.isLink = false → ∃ name, fs.Holds d name i ∧ item.name = Utf8.decode name) := by
  obtain ⟨entry, hentry, hsight⟩ := mem_itemsOf.mp hitem
  obtain ⟨name, c, hmem, hname, hkind⟩ := mem_listing.mp hentry
  obtain ⟨heq, hcases⟩ := sight_eq_item hsight
  rcases hcases with ⟨hk, -, -⟩ | ⟨-, hfile, -⟩ | ⟨-, -, hlink, j, hj, hdir⟩
  · -- an entry that is a directory is where its path leads
    have hholds : fs.Holds d name c := ⟨entries, hentries, hmem⟩
    rw [hk] at hkind
    rw [heq, hname] at hi
    have hic : i = c := hholds.eq_of_stat hfs hstat hkind hi
    subst hic
    exact ⟨hkind, fun _ => ⟨name, hholds, heq.trans hname⟩⟩
  · rw [hd] at hfile
    cases hfile
  · rw [heq] at hi
    have hij : i = j := Except.ok.inj (hi.symm.trans hj)
    subst hij
    refine ⟨hdir hd, fun hreal => ?_⟩
    rw [hlink] at hreal
    cases hreal

omit hfs in
/-- Visiting an item enters only new directories through links, if entering does. -/
theorem linksOnce_visit_of {enter : Text → Text → Inode → Bool → State → Run} {path : Text}
    (leading : Text) {item : Item} (hask : (entryPath path item.name).Askable)
    {token : CancellationToken} {t : State} (ht : t.world = ⟨fs, token⟩)
    (henter : ∀ i, fs.stat (entryPath path item.name) = .ok i →
      (item.isLink = true → i ∉ t.visited) →
      LinksOnce fs t.visited (enter (entryPath path item.name) (leading ++ item.name ++ "/") i
        item.isLink { t with visited := i :: t.visited })) :
    LinksOnce fs t.visited (visit Receiver.passive enter path leading item t) := by
  cases hd : item.isDirectory with
  | false =>
    rw [visit_of_file _ _ leading hd]
    exact LinksOnce.of_linked_eq_nil rfl (List.Subset.refl _)
  | true =>
    rcases visit_of_directory Receiver.passive enter leading hd hask t with
      ⟨_, -, heq⟩ | ⟨_, -, -, -, heq⟩ | ⟨i, hi, hnew, heq⟩
    · rw [heq]
      exact LinksOnce.of_linked_eq_nil rfl (List.Subset.refl _)
    · rw [heq]
      exact LinksOnce.of_linked_eq_nil rfl (List.Subset.refl _)
    · rw [ht] at hi
      rw [heq]
      exact henter i hi hnew

/-- A part of a walk enters through links only directories that the walk did not know. -/
theorem linksOnce_enter {token : CancellationToken} (htoken : token.isCancelled = false)
    (options : Options) {depth : Nat} {path leading : Text} {d : Inode} {via : Bool} {s : State}
    (hs : s.world = ⟨fs, token⟩) (hstat : fs.stat path = .ok d)
    {known : List Inode} (hknown : known ⊆ s.visited)
    (hvia : via = true → d ∈ s.visited ∧ d ∉ known) :
    LinksOnce fs known (enter options Receiver.passive depth path leading d via s) := by
  induction depth generalizing path leading d via s known with
  | zero => exact LinksOnce.of_linked_eq_nil rfl hknown
  | succ depth ih =>
    cases hentries : fs.entries? d with
    | none =>
      rw [enter_of_entries_none hfs htoken options depth hs hstat hentries]
      exact LinksOnce.of_linked_eq_nil rfl hknown
    | some entries =>
      have hopening : LinksOnce fs known
          (opening options.followLinks path d via (fs.listing entries) s) := by
        have hlinked := linked_opening options.followLinks path d via (fs.listing entries) s
        cases via with
        | false => exact LinksOnce.of_linked_eq_nil hlinked hknown
        | true =>
          obtain ⟨hmem, hnew⟩ := hvia rfl
          have hd := FileSystem.kind?_of_entries? hentries
          rw [if_pos rfl] at hlinked
          exact LinksOnce.of_linked_eq_singleton hlinked hnew hd hmem hknown
      have hask {item : Item}
          (hitem : item ∈ itemsOf fs options.followLinks path (fs.listing entries)) :
          (entryPath path item.name).Askable :=
        askable_of_mem_itemsOf hfs (FileSystem.askable_of_stat hstat) hentries hitem
      have hvisit : ∀ item ∈ itemsOf fs options.followLinks path (fs.listing entries), ∀ t,
          t.world = ⟨fs, token⟩ → LinksOnce fs t.visited
            (visit Receiver.passive (enter options Receiver.passive depth) path leading item t) := by
        intro item hitem t ht
        refine linksOnce_visit_of leading (hask hitem) ht fun i hi hnew => ?_
        -- the directory that is entered next is remembered before it is entered
        exact ih (s := { t with visited := i :: t.visited }) ht hi (List.subset_cons_self i _)
          fun hlink => ⟨List.mem_cons_self, hnew hlink⟩
      rw [enter_of_entries hfs htoken options depth hs hstat hentries]
      exact hopening.andThen (halt_opening ..) (LinksOnce.each
        (fun item hitem => goesOn_visit_still hfs htoken options depth leading (hask hitem)) hvisit hs)

theorem linksOnce_visit {token : CancellationToken} (htoken : token.isCancelled = false)
    (options : Options) (depth : Nat) {path : Text} (leading : Text) {item : Item}
    (hask : (entryPath path item.name).Askable) {t : State} (ht : t.world = ⟨fs, token⟩) :
    LinksOnce fs t.visited
      (visit Receiver.passive (enter options Receiver.passive depth) path leading item t) :=
  linksOnce_visit_of leading hask ht fun i hi hnew =>
    linksOnce_enter hfs htoken options (s := { t with visited := i :: t.visited }) ht hi
      (List.subset_cons_self i _) fun hlink => ⟨List.mem_cons_self, hnew hlink⟩

end

/-! ## Listings -/

/-- The directory that an item stands for when it is no link. -/
def realDirectory? (fs : FileSystem) (path : Text) (item : Item) : Option Inode :=
  if item.isDirectory && !item.isLink then (fs.stat (entryPath path item.name)).toOption else none

theorem realDirectory?_eq_some_iff {fs : FileSystem} {path : Text} {item : Item} {i : Inode} :
    realDirectory? fs path item = some i ↔
      item.isDirectory = true ∧ item.isLink = false ∧
        fs.stat (entryPath path item.name) = .ok i := by
  unfold realDirectory?
  cases item.isDirectory <;> cases item.isLink <;>
    cases fs.stat (entryPath path item.name) <;> simp [Except.toOption]

/-- How many listings an item costs as long as no link is followed. -/
noncomputable def weight (fs : FileSystem) (path : Text) (item : Item) : Nat :=
  match realDirectory? fs path item with
  | some i => (fs.subtree i).card
  | none => 0

theorem sum_weights (fs : FileSystem) (path : Text) (items : List Item) :
    (items.map (weight fs path)).sum
      = ((items.filterMap (realDirectory? fs path)).map fun i => (fs.subtree i).card).sum := by
  induction items with
  | nil => rfl
  | cons item items ih =>
    rw [List.map_cons, List.sum_cons, ih, List.filterMap_cons, weight]
    cases realDirectory? fs path item with
    | none => exact Nat.zero_add _
    | some i => rfl

/-- Runs for several things list directories as often as each of them alone does. -/
theorem Run.scans_each {α : Type} {P : State → Prop} {f : α → State → Run} {as : List α}
    {cost : α → Nat} {D : Nat} (hf : ∀ a ∈ as, ∀ s, P s → (f a s).GoesOn P)
    (hcost : ∀ a ∈ as, ∀ s, P s → (f a s).scans ≤ cost a + D * (f a s).linked.length)
    {s : State} (hs : P s) :
    (each f as s).scans ≤ (as.map cost).sum + D * (each f as s).linked.length := by
  induction as generalizing s with
  | nil => exact Nat.zero_le _
  | cons a as ih =>
    have hgo := hf a List.mem_cons_self s hs
    have hfirst := hcost a List.mem_cons_self s hs
    have hrest := ih (fun b hb => hf b (List.mem_cons_of_mem a hb))
      (fun b hb => hcost b (List.mem_cons_of_mem a hb)) hgo.state
    rw [each, scans_andThen hgo.halt, linked_andThen hgo.halt, List.length_append, Nat.mul_add,
      List.map_cons, List.sum_cons]
    omega

section
variable {fs : FileSystem} (hfs : fs.Sound) (htree : fs.Tree)
include hfs htree

/-- The directories in a directory cost less, taken together, than its subtree has directories. -/
theorem sum_weights_lt (followLinks : Bool) {path : Text} {d : Inode}
    {entries : List (Bytes × Inode)} (hstat : fs.stat path = .ok d)
    (hentries : fs.entries? d = some entries) :
    ((itemsOf fs followLinks path (fs.listing entries)).map (weight fs path)).sum
      < (fs.subtree d).card := by
  have hchild {item : Item} (hitem : item ∈ itemsOf fs followLinks path (fs.listing entries))
      {i : Inode} (hi : realDirectory? fs path item = some i) :
      fs.kind? i = some .directory ∧
        ∃ name, fs.Holds d name i ∧ item.name = Utf8.decode name := by
    obtain ⟨hd, hlink, hi⟩ := realDirectory?_eq_some_iff.mp hi
    obtain ⟨hkind, hreal⟩ := entered_item hfs hstat hentries hitem hd hi
    exact ⟨hkind, hreal hlink⟩
  rw [sum_weights]
  refine htree.sum_card_subtree_lt (FileSystem.kind?_of_entries? hentries) ?_ ?_
  · -- different names stand for different directories, since a directory is listed once
    have hnames : (itemsOf fs followLinks path (fs.listing entries)).Pairwise
        fun a b => a.name ≠ b.name := itemsOf_names_ne (listing_names_ne (hfs.entries hentries).2)
    refine (hnames.imp_of_mem (S := fun a b => ∀ i j, realDirectory? fs path a = some i →
      realDirectory? fs path b = some j → i ≠ j) ?_).filterMap _ ?_
    · rintro a b ha hb hne i j hi hj rfl
      obtain ⟨hkind, name, hname, haName⟩ := hchild ha hi
      obtain ⟨-, other, hother, hbName⟩ := hchild hb hj
      exact hne (haName.trans ((htree.listed_once hkind hname hother).2 ▸ hbName.symm))
    · exact fun a b hab i hi j hj => hab i j hi hj
  · intro c hc
    obtain ⟨item, hitem, hi⟩ := List.mem_filterMap.mp hc
    obtain ⟨hkind, name, hholds, -⟩ := hchild hitem hi
    exact ⟨⟨name, hholds⟩, hkind⟩

omit htree in
/-- Visiting an item lists directories as often as entering it does. -/
theorem scans_visit_le {enter : Text → Text → Inode → Bool → State → Run} {followLinks : Bool}
    {path : Text} (leading : Text) {d : Inode} {entries : List (Bytes × Inode)}
    (hstat : fs.stat path = .ok d) (hentries : fs.entries? d = some entries) {item : Item}
    (hitem : item ∈ itemsOf fs followLinks path (fs.listing entries))
    (hask : (entryPath path item.name).Askable) {t : State} (ht : t.world = ⟨fs, {}⟩)
    (henter : ∀ i s, s.world = ⟨fs, {}⟩ → fs.stat (entryPath path item.name) = .ok i →
      fs.kind? i = some .directory →
      (enter (entryPath path item.name) (leading ++ item.name ++ "/") i item.isLink s).scans
        ≤ (if item.isLink then 0 else (fs.subtree i).card) + fs.directories.card
          * (enter (entryPath path item.name) (leading ++ item.name ++ "/") i item.isLink
              s).linked.length) :
    (visit Receiver.passive enter path leading item t).scans
      ≤ weight fs path item + fs.directories.card
        * (visit Receiver.passive enter path leading item t).linked.length := by
  cases hdir : item.isDirectory with
  | false =>
    rw [visit_of_file _ _ leading hdir]
    exact Nat.zero_le _
  | true =>
    rcases visit_of_directory Receiver.passive enter leading hdir hask t with
      ⟨_, -, heq⟩ | ⟨_, -, -, -, heq⟩ | ⟨i, hi, -, heq⟩
    · -- the item is gone
      rw [heq]
      exact Nat.zero_le _
    · -- the item is a link to a directory that is known
      rw [heq]
      exact Nat.zero_le _
    · rw [ht] at hi
      have hkind := (entered_item hfs hstat hentries hitem hdir hi).1
      have hbelow := henter i { t with visited := i :: t.visited } ht hi hkind
      rw [heq]
      refine Nat.le_trans hbelow (Nat.add_le_add_right ?_ _)
      cases hlink : item.isLink with
      | true => exact Nat.zero_le _
      | false =>
        rw [weight, realDirectory?_eq_some_iff.mpr ⟨hdir, hlink, hi⟩]
        rfl

/-- A directory costs at most one listing for each directory in its subtree, and every link that is
followed adds at most one for each directory. -/
theorem scans_enter (options : Options) {depth : Nat} {path leading : Text} {d : Inode}
    {via : Bool} {s : State} (hs : s.world = ⟨fs, {}⟩) (hstat : fs.stat path = .ok d)
    (hd : fs.kind? d = some .directory) :
    (enter options Receiver.passive depth path leading d via s).scans
      ≤ (if via then 0 else (fs.subtree d).card) + fs.directories.card
        * (enter options Receiver.passive depth path leading d via s).linked.length := by
  induction depth generalizing path leading d via s with
  | zero => exact Nat.zero_le _
  | succ depth ih =>
    obtain ⟨entries, hentries⟩ := FileSystem.entries?_of_kind? hd
    have hask {item : Item}
        (hitem : item ∈ itemsOf fs options.followLinks path (fs.listing entries)) :
        (entryPath path item.name).Askable :=
      askable_of_mem_itemsOf hfs (FileSystem.askable_of_stat hstat) hentries hitem
    have hvisit : ∀ item ∈ itemsOf fs options.followLinks path (fs.listing entries), ∀ t,
        t.world = ⟨fs, {}⟩ →
        (visit Receiver.passive (enter options Receiver.passive depth) path leading item t).scans
          ≤ weight fs path item + fs.directories.card * (visit Receiver.passive
            (enter options Receiver.passive depth) path leading item t).linked.length := by
      intro item hitem t ht
      exact scans_visit_le hfs leading hstat hentries hitem (hask hitem) ht
        fun i s hs hi hkind => ih hs hi hkind
    have heach := Run.scans_each
      (f := visit Receiver.passive (enter options Receiver.passive depth) path leading)
      (fun item hitem => goesOn_visit_still hfs rfl options depth leading (hask hitem)) hvisit hs
    have hsum := sum_weights_lt hfs htree options.followLinks hstat hentries
    have hcard := fs.card_subtree_le d
    rw [enter_of_entries hfs rfl options depth hs hstat hentries, Run.scans_andThen (halt_opening ..),
      Run.linked_andThen (halt_opening ..), scans_opening, linked_opening, state_opening,
      List.length_append, Nat.mul_add]
    cases via with
    | true =>
      -- the subtree is paid for by the link
      rw [if_pos rfl, if_pos rfl, List.length_singleton, Nat.mul_one]
      omega
    | false =>
      rw [if_neg (by simp), if_neg (by simp), List.length_nil, Nat.mul_zero]
      omega

end

end BundleManifest.Walk
