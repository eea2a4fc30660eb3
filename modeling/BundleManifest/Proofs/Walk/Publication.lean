/-
# BundleManifest.Proofs.Walk.Publication — walks before and after a file has come into its place

A file is published, and the same directory is walked again. Both walks go through the same
directories in the same order: `Grows` relates their runs, and `grows_enter` is the induction over the
depth. The second walk hands out everything that the first one has handed out. What it hands out in
addition leads to the new file, and there is nothing of that kind if the new file has replaced a
regular one (`files_traverse_published`).
-/
import BundleManifest.Proofs.FileSystem.Leads
import BundleManifest.Proofs.FileSystem.Renaming
import BundleManifest.Proofs.Walk.Coverage
import BundleManifest.Proofs.Walk.Links

namespace BundleManifest.Walk

/-! ## Items -/

theorem Item.isDirectory_of_kind {item : Item} (h : item.kind = .regular) :
    item.isDirectory = false := by
  unfold Item.kind at h
  split at h
  · cases h
  · next hd => simpa using hd

/-- What a file has replaced and is an item is a regular file. -/
theorem kind_of_replaced {fs gs : FileSystem} {d j k : Inode} {name content : Bytes}
    (h : fs.Published gs d name k content) (hj : fs.Holds d name j) {item : Item}
    (hkind : fs.kind? j = some item.kind) : item.kind = .regular := by
  unfold Item.kind at hkind ⊢
  split at hkind
  · exact absurd hkind (h.replaced j hj).1
  · next hd => rw [if_neg hd]

section
variable {fs gs : FileSystem} {d k : Inode} {name content : Bytes} (hfs : fs.Sound)
  (hgs : gs.Sound) (hwhole : fs.Whole) (h : fs.Published gs d name k content)
  (hlink : ∀ j, fs.Holds d name j → fs.kind? j ≠ some .link)
  {followLinks : Bool} {path : Text} {e : Inode} {entries listed : List (Bytes × Inode)}
  (hentries : fs.entries? e = some entries) (hlisted : gs.entries? e = some listed)
  {item : Item}
include hwhole h hlink hentries hlisted

/-- What has been an item before is one afterwards. -/
theorem mem_itemsOf_after (hmem : item ∈ itemsOf fs followLinks path (fs.listing entries)) :
    item ∈ itemsOf gs followLinks path (gs.listing listed) := by
  obtain ⟨other, c, hholds, hname, hcases⟩ := (mem_itemsOf_iff_holds hentries).mp hmem
  by_cases hhere : e = d ∧ other = name
  · obtain ⟨rfl, rfl⟩ := hhere
    refine (mem_itemsOf_iff_holds hlisted).mpr ⟨other, k, h.holds, hname, ?_⟩
    rcases hcases with ⟨hreal, hkind⟩ | ⟨-, -, hkind, -⟩
    · rw [h.kind?_file, kind_of_replaced h hholds hkind]
      exact Or.inl ⟨hreal, rfl⟩
    · exact absurd hkind (hlink c hholds)
  · have hafter : gs.Holds e other c := h.holds_iff.mpr (Or.inr ⟨hhere, hholds⟩)
    have hkept : ¬ fs.Holds d name c := fun hother => hhere (hwhole.listed_once hholds hother)
    refine (mem_itemsOf_iff_holds hlisted).mpr ⟨other, c, hafter, hname, ?_⟩
    rcases hcases with ⟨hreal, hkind⟩ | ⟨hlinked, hfollow, hkind, i, hi, hitem⟩
    · exact Or.inl ⟨hreal, h.kind?_kept hkind hkept⟩
    · refine Or.inr ⟨hlinked, hfollow, h.kind?_kept hkind hkept, ?_⟩
      rcases h.stat_of_before hwhole hlink hi with ⟨hi', hstat⟩ | ⟨hreplaced, hstat⟩
      · exact ⟨i, hstat, h.kind?_kept hitem hi'.elsewhere⟩
      · exact ⟨k, hstat, by rw [h.kind?_file, kind_of_replaced h hreplaced hitem]⟩

include hfs hgs

/-- What is an item afterwards has been one before, unless it is a file and leads to the new one, and
that has replaced no regular file. -/
theorem mem_itemsOf_before (hstat : gs.stat path = .ok e)
    (hmem : item ∈ itemsOf gs followLinks path (gs.listing listed)) :
    item ∈ itemsOf fs followLinks path (fs.listing entries) ∨
      item.isDirectory = false ∧
        (∃ other, item.name = Utf8.decode other ∧ gs.Leads e other k) ∧
        ∀ j, fs.Holds d name j → fs.kind? j ≠ some .regular := by
  obtain ⟨other, c, hholds, hname, hcases⟩ := (mem_itemsOf_iff_holds hlisted).mp hmem
  have hfile : gs.kind? k = some item.kind → item.kind = .regular := by
    rw [h.kind?_file]
    exact fun heq => (Option.some.inj heq).symm
  rcases h.holds_iff.mp hholds with ⟨rfl, rfl, rfl⟩ | ⟨hhere, hbefore⟩
  · -- the entry of the new file
    have hne : gs.kind? c ≠ some .link := by simp [h.kind?_file]
    rcases hcases with ⟨hreal, hkind⟩ | ⟨-, -, hkind, -⟩
    · by_cases hregular : ∃ j, fs.Holds e other j ∧ fs.kind? j = some .regular
      · obtain ⟨j, hj, hkind'⟩ := hregular
        refine Or.inl ((mem_itemsOf_iff_holds hentries).mpr ⟨other, j, hj, hname, ?_⟩)
        exact Or.inl ⟨hreal, by rw [hkind', hfile hkind]⟩
      · refine Or.inr ⟨Item.isDirectory_of_kind (hfile hkind), ⟨other, hname, ?_⟩, ?_⟩
        · exact hholds.leads hgs hne
        · exact fun j hj hkind' => hregular ⟨j, hj, hkind'⟩
    · exact absurd hkind hne
  · -- an entry that was there
    have hkept : fs.Kept d name c :=
      ⟨hwhole.entry hbefore, fun hother => hhere (hwhole.listed_once hbefore hother)⟩
    rw [h.kind?_eq hkept] at hcases
    have hitem (hcase : item.isLink = false ∧ fs.kind? c = some item.kind ∨
        item.isLink = true ∧ followLinks = true ∧ fs.kind? c = some .link ∧
          ∃ i, fs.stat (entryPath path item.name) = .ok i ∧ fs.kind? i = some item.kind) :
        item ∈ itemsOf fs followLinks path (fs.listing entries) :=
      (mem_itemsOf_iff_holds hentries).mpr ⟨other, c, hbefore, hname, hcase⟩
    rcases hcases with hreal | ⟨hlinked, hfollow, hkind, i, hi, hkind'⟩
    · exact Or.inl (hitem (Or.inl hreal))
    rcases h.stat_of_after hwhole hlink hi with ⟨hi', hstat'⟩ | ⟨rfl, hreplaced⟩
    · rw [h.kind?_eq hi'] at hkind'
      exact Or.inl (hitem (Or.inr ⟨hlinked, hfollow, hkind, i, hstat', hkind'⟩))
    · by_cases hregular : ∃ j, fs.Holds d name j ∧ fs.kind? j = some .regular
      · obtain ⟨j, hj, hregular⟩ := hregular
        rcases hreplaced with ⟨j', hj', hstat'⟩ | hfree
        · obtain rfl := hj'.eq hfs hj
          refine Or.inl (hitem (Or.inr ⟨hlinked, hfollow, hkind, j', hstat', ?_⟩))
          rw [hregular, hfile hkind']
        · exact absurd hj (hfree j)
      · refine Or.inr ⟨Item.isDirectory_of_kind (hfile hkind'), ⟨other, hname, ?_⟩, ?_⟩
        · rw [hname] at hi
          exact FileSystem.leads_of_stat hstat (hholds.legal hgs) hholds hi
        · exact fun j hj hkind' => hregular ⟨j, hj, hkind'⟩

end

/-- Items that are among others in their order are what is left of them when the rest is dropped. -/
theorem itemsOf_eq_filter {fs gs : FileSystem} (hgs : gs.Sound) {followLinks : Bool} {path : Text}
    {e : Inode} {entries listed : List (Bytes × Inode)} (hlisted : gs.entries? e = some listed)
    (hnames : (entries.map Prod.fst).Nodup)
    (hsubset : ∀ item ∈ itemsOf fs followLinks path (fs.listing entries),
      item ∈ itemsOf gs followLinks path (gs.listing listed)) :
    itemsOf fs followLinks path (fs.listing entries)
      = (itemsOf gs followLinks path (gs.listing listed)).filter
          (· ∈ itemsOf fs followLinks path (fs.listing entries)) := by
  have hfew : (itemsOf fs followLinks path (fs.listing entries)).Pairwise
      fun a b => a.name ≠ b.name := itemsOf_names_ne (listing_names_ne hnames)
  have hmany : (itemsOf gs followLinks path (gs.listing listed)).Pairwise
      fun a b => a.name ≠ b.name :=
    itemsOf_names_ne (listing_names_ne (hgs.entries hlisted).2)
  -- both lists are ordered by key, and no two items have the same key
  refine List.Perm.eq_of_pairwise ?_ (itemsOf_keys_le fs followLinks path _)
    ((itemsOf_keys_le gs followLinks path _).filter _) ?_
  · intro a b ha hb hab hba
    exact eq_of_keys_le hgs hlisted (hsubset a ha) (List.mem_filter.mp hb).1 hab hba
  · refine (List.perm_ext_iff_of_nodup ?_ ?_).mpr fun item => ?_
    · exact hfew.imp fun hne heq => hne (congrArg Item.name heq)
    · exact (hmany.imp fun hne heq => hne (congrArg Item.name heq)).filter _
    · rw [List.mem_filter, decide_eq_true_eq]
      exact ⟨fun hitem => ⟨hsubset item hitem, hitem⟩, fun hitem => hitem.2⟩

/-! ## Runs side by side -/

/-- Two runs, one through some files and one through others, go on, get to know the same directories
and hand out the same paths, apart from new ones that only the second one hands out. -/
structure Grows (world other : World) (new : Text → Prop) (r q : Run) : Prop where
  before : r.GoesOn (·.world = world)
  after : q.GoesOn (·.world = other)
  visited : q.state.visited = r.state.visited
  kept : r.files ⊆ q.files
  added : ∀ x ∈ q.files, x ∈ r.files ∨ new x

/-- Two states, in one world and in the other, with the same directories known. -/
structure Alongside (world other : World) (s t : State) : Prop where
  before : s.world = world
  after : t.world = other
  visited : t.visited = s.visited

namespace Grows

variable {world other : World} {new : Text → Prop}

theorem note (n m : Notice) {s t : State} (h : Alongside world other s t) :
    Grows world other new (Run.note n s) (Run.note m t) where
  before := Run.goesOn_note n h.before
  after := Run.goesOn_note m h.after
  visited := h.visited
  kept := List.Subset.refl _
  added := fun _ hx => Or.inl hx

theorem alongside {r q : Run} (h : Grows world other new r q) :
    Alongside world other r.state q.state :=
  ⟨h.before.state, h.after.state, h.visited⟩

theorem andThen {r q : Run} {next following : State → Run} (hfirst : Grows world other new r q)
    (hnext : Grows world other new (next r.state) (following q.state)) :
    Grows world other new (r.andThen next) (q.andThen following) where
  before := hfirst.before.andThen hnext.before
  after := hfirst.after.andThen hnext.after
  visited := by
    rw [Run.state_andThen hfirst.before.halt, Run.state_andThen hfirst.after.halt]
    exact hnext.visited
  kept := by
    rw [Run.files_andThen, Run.files_andThen, hfirst.before.halt, hfirst.after.halt]
    intro x hx
    rcases List.mem_append.mp hx with hx | hx
    · exact List.mem_append_left _ (hfirst.kept hx)
    · exact List.mem_append_right _ (hnext.kept hx)
  added := by
    rw [Run.files_andThen, Run.files_andThen, hfirst.before.halt, hfirst.after.halt]
    intro x hx
    rcases List.mem_append.mp hx with hx | hx
    · exact (hfirst.added x hx).imp_left fun hx => List.mem_append_left _ hx
    · exact (hnext.added x hx).imp_left fun hx => List.mem_append_right _ hx

theorem mono {r q : Run} {newer : Text → Prop} (h : Grows world other new r q)
    (hnew : ∀ x, new x → newer x) : Grows world other newer r q where
  before := h.before
  after := h.after
  visited := h.visited
  kept := h.kept
  added := fun x hx => (h.added x hx).imp_right (hnew x)

/-- A run for each of several things beside a run for some of them, when all others give new paths
only. -/
theorem each {α : Type} {f g : α → State → Run} {p : α → Bool} {as : List α}
    (hboth : ∀ a ∈ as, p a = true → ∀ s t, Alongside world other s t →
      Grows world other new (f a s) (g a t))
    (hadded : ∀ a ∈ as, p a = false → ∀ s t, Alongside world other s t →
      Grows world other new (Run.skip s) (g a t)) {s t : State} (hs : Alongside world other s t) :
    Grows world other new (Run.each f (as.filter p) s) (Run.each g as t) := by
  induction as generalizing s t with
  | nil =>
    exact ⟨Run.goesOn_skip hs.before, Run.goesOn_skip hs.after, hs.visited, List.Subset.refl _,
      fun _ hx => Or.inl hx⟩
  | cons a as ih =>
    have hrest {s t : State} (hs : Alongside world other s t) :=
      ih (fun b hb => hboth b (List.mem_cons_of_mem a hb))
        (fun b hb => hadded b (List.mem_cons_of_mem a hb)) hs
    cases hp : p a with
    | true =>
      have hfirst := hboth a List.mem_cons_self hp s t hs
      rw [List.filter_cons_of_pos hp]
      exact hfirst.andThen (hrest hfirst.alongside)
    | false =>
      have hfirst := hadded a List.mem_cons_self hp s t hs
      rw [List.filter_cons_of_neg (by simp [hp]), ← Run.skip_andThen s (Run.each f _)]
      exact hfirst.andThen (hrest hfirst.alongside)

end Grows

/-! ## Paths that lead to a node -/

/-- A path below a directory ends in an entry that leads to a node. -/
def LeadsTo (fs : FileSystem) (path x : Text) (i : Inode) : Prop :=
  ∃ above e name, entryPath path x = entryPath above (Utf8.decode name) ∧
    fs.stat above = .ok e ∧ fs.Leads e name i

/-- The path of something in a directory may be taken as starting one level up. -/
theorem entryPath_entryPath (path : Text) {name : Text} (hne : name ≠ [])
    (hslash : CodePoint.ofChar '/' ∉ name) (rest : Text) :
    entryPath (entryPath path name) rest = entryPath path (name ++ "/" ++ rest) := by
  have hlast : (entryPath path name).getLast? ≠ some (CodePoint.ofChar '/') := by
    obtain ⟨start, -, -, heq⟩ := entryPath_eq_append path name
    rw [heq, List.getLast?_append]
    cases hname : name.getLast? with
    | none => exact absurd (List.getLast?_eq_none_iff.mp hname) hne
    | some c =>
      intro hc
      exact hslash (Option.some.inj hc ▸ List.mem_of_getLast? hname)
  rw [show entryPath (entryPath path name) rest = entryPath path name ++ "/" ++ rest from
    if_neg hlast]
  unfold entryPath
  split <;> simp only [List.append_assoc]

/-! ## Walks before and after -/

section
variable {fs gs : FileSystem} {d k : Inode} {name content : Bytes} (hfs : fs.Sound)
  (hgs : gs.Sound) (hwhole : fs.Whole) (h : fs.Published gs d name k content)
  (hlink : ∀ j, fs.Holds d name j → fs.kind? j ≠ some .link)
  {token : CancellationToken} (htoken : token.isCancelled = false)

/-- What a walk hands out only after the file has been published: paths that lead to it, if it has
replaced no regular file. -/
def New (fs gs : FileSystem) (d : Inode) (name : Bytes) (k : Inode) (path leading x : Text) : Prop :=
  (∃ rest, x = leading ++ rest ∧ LeadsTo gs path rest k) ∧
    ∀ j, fs.Holds d name j → fs.kind? j ≠ some .regular

/-- What is new below a directory is new below the one above. -/
theorem New.above {path leading x : Text} {item : Text} (hne : item ≠ [])
    (hslash : CodePoint.ofChar '/' ∉ item)
    (hx : New fs gs d name k (entryPath path item) (leading ++ item ++ "/") x) :
    New fs gs d name k path leading x := by
  obtain ⟨⟨rest, rfl, above, e, last, hpath, hleads⟩, hreplaced⟩ := hx
  refine ⟨⟨item ++ "/" ++ rest, by simp only [List.append_assoc], above, e, last, ?_, hleads⟩,
    hreplaced⟩
  rw [← entryPath_entryPath path hne hslash, hpath]

include hfs

omit hfs in
/-- Visiting a directory, by what its path leads to. -/
theorem visit_of_stat {receive : Receiver} {enter : Text → Text → Inode → Bool → State → Run}
    {path leading : Text} {item : Item} (hd : item.isDirectory = true) {s : State} {i : Inode}
    (hi : s.world.files.stat (entryPath path item.name) = .ok i) :
    visit receive enter path leading item s
      = if s.visited.contains i && item.isLink then
          Run.note (.walkLinkRevisit (entryPath path item.name)) s
        else enter (entryPath path item.name) (leading ++ item.name ++ "/") i item.isLink
          { s with visited := i :: s.visited } := by
  unfold visit
  simp only [hd, hi, Bool.not_true, Bool.false_eq_true, if_false]

omit hfs in
theorem visit_of_stat_error {receive : Receiver}
    {enter : Text → Text → Inode → Bool → State → Run} {path leading : Text} {item : Item}
    (hd : item.isDirectory = true) {s : State} {fault : FileFault}
    (hi : s.world.files.stat (entryPath path item.name) = .error (.fault fault)) :
    visit receive enter path leading item s
      = Run.note (.walkEntrySkipped (entryPath path item.name) vanished) s := by
  unfold visit
  simp only [hd, hi, Bool.not_true, Bool.false_eq_true, if_false]

/-- The path of an item that is a directory leads somewhere, unless it is too long. -/
theorem exists_stat_of_item {path : Text} {e : Inode} (hstat : fs.stat path = .ok e)
    {entries : List (Bytes × Inode)} (hentries : fs.entries? e = some entries)
    {followLinks : Bool} {item : Item}
    (hitem : item ∈ itemsOf fs followLinks path (fs.listing entries))
    (hd : item.isDirectory = true) (hfits : (entryPath path item.name).Fits) :
    ∃ i, fs.stat (entryPath path item.name) = .ok i := by
  obtain ⟨name, c, hholds, hname, hcases⟩ := (mem_itemsOf_iff_holds hentries).mp hitem
  rcases hcases with ⟨-, hkind⟩ | ⟨-, -, -, i, hi, -⟩
  · rw [Item.kind, if_pos hd] at hkind
    rw [hname] at hfits ⊢
    exact ⟨c, hholds.stat hfs hstat hkind hfits⟩
  · exact ⟨i, hi⟩

include hwhole h hlink

/-- An item that is visited before and after gives the same, if entering it does. -/
theorem grows_visit {path : Text} (leading : Text) {e : Inode} (hstat : fs.stat path = .ok e)
    {entries : List (Bytes × Inode)} (hentries : fs.entries? e = some entries)
    {followLinks : Bool} {item : Item}
    (hitem : item ∈ itemsOf fs followLinks path (fs.listing entries))
    {enter : Text → Text → Inode → Bool → State → Run} {new : Text → Prop}
    (henter : ∀ i s t, fs.stat (entryPath path item.name) = .ok i →
      gs.stat (entryPath path item.name) = .ok i → fs.kind? i = some .directory →
      Alongside ⟨fs, token⟩ ⟨gs, token⟩ s t →
      Grows ⟨fs, token⟩ ⟨gs, token⟩ new
        (enter (entryPath path item.name) (leading ++ item.name ++ "/") i item.isLink s)
        (enter (entryPath path item.name) (leading ++ item.name ++ "/") i item.isLink t))
    {s t : State} (hs : Alongside ⟨fs, token⟩ ⟨gs, token⟩ s t) :
    Grows ⟨fs, token⟩ ⟨gs, token⟩ new (visit Receiver.passive enter path leading item s)
      (visit Receiver.passive enter path leading item t) := by
  cases hd : item.isDirectory with
  | false =>
    rw [visit_of_file _ _ _ hd, visit_of_file _ _ _ hd]
    exact ⟨⟨rfl, hs.before⟩, ⟨rfl, hs.after⟩, hs.visited, List.Subset.refl _,
      fun _ hx => Or.inl hx⟩
  | true =>
    have hask := askable_of_mem_itemsOf hfs (FileSystem.askable_of_stat hstat) hentries hitem
    cases hi : fs.stat (entryPath path item.name) with
    | ok i =>
      have hkind := (entered_item hfs hstat hentries hitem hd hi).1
      have hi' : gs.stat (entryPath path item.name) = .ok i := by
        rcases h.stat_of_before hwhole hlink hi with ⟨-, hi'⟩ | ⟨hholds, -⟩
        · exact hi'
        · exact absurd hkind (h.replaced i hholds).1
      rw [visit_of_stat hd (by rw [hs.before]; exact hi),
        visit_of_stat hd (by rw [hs.after]; exact hi'), hs.visited]
      split
      · exact Grows.note _ _ hs
      · exact henter i _ _ hi hi' hkind ⟨hs.before, hs.after, rfl⟩
    | error fault =>
      obtain ⟨fault, rfl⟩ := (FileSystem.stat_error_iff_askable hi).mpr hask
      -- where a path is too long before, it is too long afterwards
      obtain ⟨later, hi'⟩ :
          ∃ later, gs.stat (entryPath path item.name) = .error (.fault later) := by
        cases hafter : gs.stat (entryPath path item.name) with
        | error fault' =>
          obtain ⟨later, rfl⟩ := (FileSystem.stat_error_iff_askable hafter).mpr hask
          exact ⟨later, rfl⟩
        | ok i =>
          obtain ⟨j, hj⟩ :=
            exists_stat_of_item hfs hstat hentries hitem hd (FileSystem.fits_of_stat hafter)
          cases hi.symm.trans hj
      rw [visit_of_stat_error hd (by rw [hs.before]; exact hi),
        visit_of_stat_error hd (by rw [hs.after]; exact hi')]
      exact Grows.note _ _ hs

include hgs htoken

/-- A directory that is entered before and after gives the same, and new paths. -/
theorem grows_enter (options : Options) (depth : Nat) {path leading : Text} {e : Inode}
    {via : Bool} (hstat : fs.stat path = .ok e) (hstat' : gs.stat path = .ok e)
    (he : fs.kind? e = some .directory) {s t : State}
    (hs : Alongside ⟨fs, token⟩ ⟨gs, token⟩ s t) :
    Grows ⟨fs, token⟩ ⟨gs, token⟩ (New fs gs d name k path leading)
      (enter options Receiver.passive depth path leading e via s)
      (enter options Receiver.passive depth path leading e via t) := by
  induction depth generalizing path leading e via s t with
  | zero =>
    exact ⟨Run.goesOn_skip hs.before, Run.goesOn_skip hs.after, hs.visited, List.Subset.refl _,
      fun _ hx => Or.inl hx⟩
  | succ depth ih =>
    have hW : Steady (· = ⟨fs, token⟩) Receiver.passive := steady_passive hfs htoken
    have hV : Steady (· = ⟨gs, token⟩) Receiver.passive := steady_passive hgs htoken
    have hask := FileSystem.askable_of_stat hstat
    obtain ⟨entries, hentries⟩ := FileSystem.entries?_of_kind? he
    obtain ⟨listed, hlisted⟩ : ∃ listed, gs.entries? e = some listed :=
      FileSystem.entries?_of_kind? (h.kind?_kept he fun hholds => (h.replaced e hholds).1 he)
    have hscan : s.world.files.scan path = .ok (fs.listing entries) := by
      rw [hs.before]
      exact FileSystem.scan_eq_ok_iff.mpr ⟨e, entries, hstat, hentries, rfl⟩
    have hscan' : t.world.files.scan path = .ok (gs.listing listed) := by
      rw [hs.after]
      exact FileSystem.scan_eq_ok_iff.mpr ⟨e, listed, hstat', hlisted, rfl⟩
    rw [hW.enter_of_scan options depth hs.before hask hscan,
      hV.enter_of_scan options depth hs.after hask hscan']
    refine Grows.andThen ?_ ?_
    · exact ⟨⟨rfl, hs.before⟩, ⟨rfl, hs.after⟩, hs.visited, by simp [files_opening],
        by simp [files_opening]⟩
    rw [state_opening, state_opening, hs.before, hs.after]
    have hkept (item : Item)
        (hitem : item ∈ itemsOf fs options.followLinks path (fs.listing entries)) :
        item ∈ itemsOf gs options.followLinks path (gs.listing listed) :=
      mem_itemsOf_after hwhole h hlink hentries hlisted hitem
    rw [itemsOf_eq_filter hgs hlisted (hfs.entries hentries).2 hkept]
    refine Grows.each ?_ ?_ hs
    · intro item _ hitem s t hs
      have hitem := of_decide_eq_true hitem
      obtain ⟨last, hlegal, hname⟩ := legal_of_mem_itemsOf hfs hentries hitem
      refine grows_visit hfs hwhole h hlink leading hstat hentries hitem ?_ hs
      intro i s t hi hi' hkind hs
      refine (ih hi hi' hkind hs).mono fun x hx => hx.above ?_ ?_
      · rw [hname, ne_eq, Utf8.decode_eq_nil_iff]
        exact hlegal.ne_nil
      · rw [hname]
        exact hlegal.slash_not_mem_decode
    · intro item hafter hitem s t hs
      have hitem := of_decide_eq_false hitem
      obtain ⟨hfile, ⟨other, hname, hleads⟩, hreplaced⟩ :=
        (mem_itemsOf_before hfs hgs hwhole h hlink hentries hlisted hstat' hafter).resolve_left
          hitem
      rw [visit_of_file _ _ _ hfile]
      refine ⟨Run.goesOn_skip hs.before, ⟨rfl, hs.after⟩, hs.visited, List.nil_subset _,
        fun x hx => Or.inr ?_⟩
      rw [files_handOut, List.mem_singleton] at hx
      subst hx
      exact ⟨⟨item.name, rfl, path, e, other, by rw [hname], hstat', hleads⟩, hreplaced⟩

/-- The files of a walk are handed out after a file has been published as well. What is handed out in
addition leads to this file, and only if it has not replaced a regular one. -/
theorem files_traverse_published (options : Options) {root : Path} {e : Inode}
    (hroot : fs.stat root.text = .ok e) (he : fs.kind? e = some .directory) :
    (traverse options Receiver.passive root ⟨fs, token⟩).files
        ⊆ (traverse options Receiver.passive root ⟨gs, token⟩).files ∧
      ∀ x ∈ (traverse options Receiver.passive root ⟨gs, token⟩).files,
        x ∈ (traverse options Receiver.passive root ⟨fs, token⟩).files ∨
          LeadsTo gs root.text x k ∧ ∀ j, fs.Holds d name j → fs.kind? j ≠ some .regular := by
  have hroot' : gs.stat root.text = .ok e := by
    rcases h.stat_of_before hwhole hlink hroot with ⟨-, hstat⟩ | ⟨hholds, -⟩
    · exact hstat
    · exact absurd he (h.replaced e hholds).1
  have hgrows : Grows ⟨fs, token⟩ ⟨gs, token⟩ (New fs gs d name k root.text [])
      (enter options Receiver.passive depthLimit root.text [] e false ⟨⟨fs, token⟩, [e], 0⟩)
      (enter options Receiver.passive depthLimit root.text [] e false ⟨⟨gs, token⟩, [e], 0⟩) :=
    grows_enter hfs hgs hwhole h hlink htoken options depthLimit hroot hroot' he ⟨rfl, rfl, rfl⟩
  unfold traverse
  simp only [hroot, hroot']
  refine ⟨hgrows.kept, fun x hx => (hgrows.added x hx).imp_right ?_⟩
  rintro ⟨⟨rest, rfl, hleads⟩, hreplaced⟩
  exact ⟨hleads, hreplaced⟩

end

end BundleManifest.Walk
