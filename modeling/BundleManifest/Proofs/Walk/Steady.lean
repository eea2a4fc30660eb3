/-
# BundleManifest.Proofs.Walk.Steady — walks that nothing ends

`Steady W receive` describes worlds in which nothing can end a walk: names are as the operating
system allows them, the token is not cancelled, and receiving a file leads from such a world to
another. There a walk from a path that can be asked for goes on to its end (`goesOn_enter`), the
batches do not matter, and a directory that is entered is listed and its items are visited one after
the other (`enter_of_scan`).
-/
import BundleManifest.Proofs.FileSystem.Resolution
import BundleManifest.Walk.Traversal

namespace BundleManifest.Walk

/-! ## One run after another -/

namespace Run

/-- A run for each of several things. -/
def each {α : Type} (f : α → State → Run) : List α → State → Run
  | [], s => skip s
  | a :: as, s => (f a s).andThen (each f as)

/-- A run that does not end the walk and leaves a certain state. -/
structure GoesOn (P : State → Prop) (r : Run) : Prop where
  halt : r.halt = none
  state : P r.state

theorem goesOn_skip {P : State → Prop} {s : State} (h : P s) : (skip s).GoesOn P :=
  ⟨rfl, h⟩

theorem goesOn_note {P : State → Prop} {s : State} (n : Notice) (h : P s) :
    (note n s).GoesOn P :=
  ⟨rfl, h⟩

theorem GoesOn.andThen {P : State → Prop} {first : Run} {next : State → Run}
    (hfirst : first.GoesOn P) (hnext : (next first.state).GoesOn P) :
    (first.andThen next).GoesOn P := by
  rw [andThen_of_not_halt hfirst.halt]
  exact ⟨hnext.halt, hnext.state⟩

theorem trace_andThen {first : Run} (h : first.halt = none) (next : State → Run) :
    (first.andThen next).trace = first.trace ++ (next first.state).trace := by
  rw [andThen_of_not_halt h]

theorem state_andThen {first : Run} (h : first.halt = none) (next : State → Run) :
    (first.andThen next).state = (next first.state).state := by
  rw [andThen_of_not_halt h]

/-- What every run leaves to the next, all of them together leave. -/
theorem goesOn_each {α : Type} {P : State → Prop} {f : α → State → Run} {as : List α}
    (hf : ∀ a ∈ as, ∀ s, P s → (f a s).GoesOn P) {s : State} (hs : P s) :
    (each f as s).GoesOn P := by
  induction as generalizing s with
  | nil => exact goesOn_skip hs
  | cons a as ih =>
    have hfirst := hf a List.mem_cons_self s hs
    exact hfirst.andThen (ih (fun b hb => hf b (List.mem_cons_of_mem a hb)) hfirst.state)

/-- Things that are done alike are done alike one after the other. -/
theorem each_congr {α : Type} {P : State → Prop} {f g : α → State → Run} {as : List α}
    (hf : ∀ a ∈ as, ∀ s, P s → (f a s).GoesOn P)
    (h : ∀ a ∈ as, ∀ s, P s → f a s = g a s) {s : State} (hs : P s) :
    each f as s = each g as s := by
  induction as generalizing s with
  | nil => rfl
  | cons a as ih =>
    have hgo := hf a List.mem_cons_self s hs
    have hrest := ih (fun b hb => hf b (List.mem_cons_of_mem a hb))
      (fun b hb => h b (List.mem_cons_of_mem a hb)) hgo.state
    rw [each, each, ← h a List.mem_cons_self s hs, andThen_of_not_halt hgo.halt,
      andThen_of_not_halt hgo.halt, hrest]

end Run

/-! ## What a walk makes of an entry -/

/-- An item is a directory, a file, or a link that leads to one of these. -/
theorem sight_eq_item {fs : FileSystem} {followLinks : Bool} {directory : Text}
    {entry : DirectoryEntry} {item : Item}
    (h : sight fs followLinks directory entry = .item item) :
    item.name = entry.name ∧
      (entry.kind = .directory ∧ item.isDirectory = true ∧ item.isLink = false ∨
       entry.kind = .regular ∧ item.isDirectory = false ∧ item.isLink = false ∨
       followLinks = true ∧ entry.kind = .link ∧ item.isLink = true ∧
         ∃ i, fs.stat (entryPath directory entry.name) = .ok i ∧
           (item.isDirectory = true → fs.kind? i = some .directory)) := by
  obtain ⟨name, kind⟩ := entry
  cases kind with
  | directory =>
    cases h
    exact ⟨rfl, Or.inl ⟨rfl, rfl, rfl⟩⟩
  | regular =>
    cases h
    exact ⟨rfl, Or.inr (Or.inl ⟨rfl, rfl, rfl⟩)⟩
  | special => cases h
  | link =>
    simp only [sight] at h
    split at h
    · cases h
    next hfollow =>
    have hfollow : followLinks = true := by simpa using hfollow
    split at h
    · next i hstat =>
      split at h
      · next hkind =>
        cases h
        exact ⟨rfl, Or.inr (Or.inr ⟨hfollow, rfl, rfl, i, hstat, fun _ => hkind⟩)⟩
      · -- a link to a file is an item, but no directory
        cases h
        exact ⟨rfl, Or.inr (Or.inr ⟨hfollow, rfl, rfl, i, hstat, fun hd => by cases hd⟩)⟩
      · cases h
    · cases h
    · cases h
    · cases h

/-- What an item is when links are followed. -/
def Item.kind (item : Item) : NodeKind := if item.isDirectory then .directory else .regular

/-- An item is what an entry is, or what the link that it is leads to. -/
theorem sight_eq_item_iff {fs : FileSystem} {followLinks : Bool} {directory : Text}
    {entry : DirectoryEntry} {item : Item} :
    sight fs followLinks directory entry = .item item ↔
      item.name = entry.name ∧
        (item.isLink = false ∧ entry.kind = item.kind ∨
         item.isLink = true ∧ followLinks = true ∧ entry.kind = .link ∧
          ∃ i, fs.stat (entryPath directory entry.name) = .ok i ∧ fs.kind? i = some item.kind) := by
  constructor
  · intro h
    obtain ⟨hname, hcases⟩ := sight_eq_item h
    refine ⟨hname, ?_⟩
    unfold Item.kind
    rcases hcases with ⟨hkind, hd, hlink⟩ | ⟨hkind, hd, hlink⟩ | ⟨hfollow, hkind, hlink, i, hi, -⟩
    · exact Or.inl ⟨hlink, by rw [hkind, hd]; rfl⟩
    · exact Or.inl ⟨hlink, by rw [hkind, hd]; rfl⟩
    · refine Or.inr ⟨hlink, hfollow, hkind, i, hi, ?_⟩
      simp only [sight, hkind, hfollow, Bool.not_true, Bool.false_eq_true, if_false, hi] at h
      split at h
      · next hdirectory =>
        cases h
        exact hdirectory
      · next hregular =>
        cases h
        exact hregular
      · cases h
  · rintro ⟨hname, hcases⟩
    obtain ⟨name, isDirectory, isLink⟩ := item
    obtain ⟨entryName, kind⟩ := entry
    simp only at hname hcases
    subst hname
    rcases hcases with ⟨rfl, rfl⟩ | ⟨rfl, rfl, rfl, i, hi, hkind⟩
    · cases isDirectory <;> rfl
    · simp only [sight, Bool.not_true, Bool.false_eq_true, if_false, hi, hkind]
      cases isDirectory <;> rfl

theorem sight_ne_refusal {fs : FileSystem} {followLinks : Bool} {directory : Text}
    {entry : DirectoryEntry} (h : (entryPath directory entry.name).Askable) (f : Failure) :
    sight fs followLinks directory entry ≠ .refusal f := by
  obtain ⟨name, kind⟩ := entry
  intro hrefusal
  cases kind with
  | directory => cases hrefusal
  | regular => cases hrefusal
  | special => cases hrefusal
  | link =>
    simp only [sight] at hrefusal
    split at hrefusal
    · cases hrefusal
    split at hrefusal
    · split at hrefusal <;> cases hrefusal
    · cases hrefusal
    · cases hrefusal
    · next e hother hmissing hstat =>
      obtain ⟨fault, rfl⟩ := (FileSystem.stat_error_iff_askable hstat).mpr h
      exact hmissing fault rfl

/-- The items of a directory in the order in which they are visited. -/
def itemsOf (fs : FileSystem) (followLinks : Bool) (directory : Text)
    (listed : List DirectoryEntry) : List Item :=
  sorted (visitable (listed.map (sight fs followLinks directory)))

theorem mem_itemsOf {fs : FileSystem} {followLinks : Bool} {directory : Text}
    {listed : List DirectoryEntry} {item : Item} :
    item ∈ itemsOf fs followLinks directory listed ↔
      ∃ entry ∈ listed, sight fs followLinks directory entry = .item item := by
  unfold itemsOf sorted visitable
  rw [List.mem_mergeSort, List.mem_filterMap]
  constructor
  · rintro ⟨sighting, hmem, hitem⟩
    obtain ⟨entry, hentry, rfl⟩ := List.mem_map.mp hmem
    refine ⟨entry, hentry, ?_⟩
    split at hitem
    · next i hsight => rw [hsight, Option.some.inj hitem]
    · cases hitem
  · rintro ⟨entry, hentry, hsight⟩
    exact ⟨_, List.mem_map_of_mem hentry, by rw [hsight]⟩

/-- A listed entry is one of the directory. -/
theorem mem_listing {fs : FileSystem} {entries : List (Bytes × Inode)} {entry : DirectoryEntry} :
    entry ∈ fs.listing entries ↔
      ∃ name i, (name, i) ∈ entries ∧ entry.name = Utf8.decode name ∧
        fs.kind? i = some entry.kind := by
  unfold FileSystem.listing
  rw [List.mem_filterMap]
  constructor
  · rintro ⟨⟨name, i⟩, hmem, hentry⟩
    obtain ⟨kind, hkind, rfl⟩ := Option.map_eq_some_iff.mp hentry
    exact ⟨name, i, hmem, rfl, hkind⟩
  · rintro ⟨name, i, hmem, hname, hkind⟩
    obtain ⟨text, kind⟩ := entry
    cases hname
    exact ⟨(name, i), hmem, Option.map_eq_some_iff.mpr ⟨kind, hkind, rfl⟩⟩

/-- The name of an item is one that its directory lists. -/
theorem name_of_mem_itemsOf {fs : FileSystem} {followLinks : Bool} {directory : Text}
    {entries : List (Bytes × Inode)} {item : Item}
    (h : item ∈ itemsOf fs followLinks directory (fs.listing entries)) :
    ∃ name i, (name, i) ∈ entries ∧ item.name = Utf8.decode name := by
  obtain ⟨entry, hentry, hsight⟩ := mem_itemsOf.mp h
  obtain ⟨name, i, hmem, hname, -⟩ := mem_listing.mp hentry
  exact ⟨name, i, hmem, (sight_eq_item hsight).1.trans hname⟩

/-- Items have names that a file system allows. -/
theorem legal_of_mem_itemsOf {fs : FileSystem} (hfs : fs.Sound) {d : Inode}
    {entries : List (Bytes × Inode)} (hentries : fs.entries? d = some entries)
    {followLinks : Bool} {directory : Text} {item : Item}
    (h : item ∈ itemsOf fs followLinks directory (fs.listing entries)) :
    ∃ name, LegalName name ∧ item.name = Utf8.decode name := by
  obtain ⟨name, i, hmem, hname⟩ := name_of_mem_itemsOf h
  exact ⟨name, (hfs.entries hentries).1 _ hmem, hname⟩

/-- The path of an item is longer than that of its directory. -/
theorem length_lt_of_mem_itemsOf {fs : FileSystem} (hfs : fs.Sound) {d : Inode}
    {entries : List (Bytes × Inode)} (hentries : fs.entries? d = some entries)
    {followLinks : Bool} {directory : Text} {item : Item}
    (h : item ∈ itemsOf fs followLinks directory (fs.listing entries)) :
    directory.length < (entryPath directory item.name).length := by
  obtain ⟨name, hlegal, hname⟩ := legal_of_mem_itemsOf hfs hentries h
  refine length_lt_entryPath ?_
  rw [hname, ne_eq, Utf8.decode_eq_nil_iff]
  exact hlegal.ne_nil

/-- The items of a directory that can be asked for can be asked for. -/
theorem askable_of_mem_itemsOf {fs : FileSystem} (hfs : fs.Sound) {path : Text} (hpath : path.Askable)
    {d : Inode} {entries : List (Bytes × Inode)} (hentries : fs.entries? d = some entries)
    {followLinks : Bool} {item : Item} (h : item ∈ itemsOf fs followLinks path (fs.listing entries)) :
    (entryPath path item.name).Askable := by
  obtain ⟨name, hlegal, hname⟩ := legal_of_mem_itemsOf hfs hentries h
  rw [hname]
  exact askable_entryPath hpath hlegal

theorem refused?_eq_none {sightings : List Sighting} (h : ∀ f, .refusal f ∉ sightings) :
    refused? sightings = none := by
  unfold refused?
  rw [List.findSome?_eq_none_iff]
  intro sighting hmem
  cases sighting with
  | refusal f => exact absurd hmem (h f)
  | item i => rfl
  | notice n => rfl
  | nothing => rfl

/-- Where a directory can be listed, the path of every entry can be asked for, and none is refused. -/
theorem refused?_of_scan {fs : FileSystem} (hfs : fs.Sound) (followLinks : Bool) {path : Text}
    {scanned : List DirectoryEntry} (hscan : fs.scan path = .ok scanned)
    {listed : List DirectoryEntry} (h : listed ⊆ scanned) :
    refused? (listed.map (sight fs followLinks path)) = none := by
  obtain ⟨d, entries, hstat, hentries, rfl⟩ := FileSystem.scan_eq_ok_iff.mp hscan
  apply refused?_eq_none
  intro f hmem
  obtain ⟨entry, hentry, hsight⟩ := List.mem_map.mp hmem
  obtain ⟨name, i, hname, heq, -⟩ := mem_listing.mp (h hentry)
  have hask := askable_entryPath (FileSystem.askable_of_stat hstat) ((hfs.entries hentries).1 _ hname)
  rw [← heq] at hask
  exact sight_ne_refusal hask f hsight

/-- Only notices are reported about entries. -/
theorem mem_reported {sightings : List Sighting} {e : Event} (h : e ∈ reported sightings) :
    ∃ n, e = .note n ∧ .notice n ∈ sightings := by
  fun_induction reported sightings with
  | case1 => cases h
  | case2 n sightings ih =>
    rcases List.mem_cons.mp h with rfl | h
    · exact ⟨n, rfl, List.mem_cons_self⟩
    · obtain ⟨m, hm, hmem⟩ := ih h
      exact ⟨m, hm, List.mem_cons_of_mem _ hmem⟩
  | case3 => cases h
  | case4 sighting sightings _ _ ih =>
    obtain ⟨m, hm, hmem⟩ := ih h
    exact ⟨m, hm, List.mem_cons_of_mem _ hmem⟩

theorem filterMap_reported {β : Type} {f : Event → Option β} (hf : ∀ n, f (.note n) = none)
    (sightings : List Sighting) : (reported sightings).filterMap f = [] := by
  rw [List.filterMap_eq_nil_iff]
  intro e he
  obtain ⟨n, rfl, -⟩ := mem_reported he
  exact hf n

/-! ## What a walk does with an item -/

section
variable (receive : Receiver) (enter : Text → Text → Inode → Bool → State → Run) (leading : Text)
  {directory : Text} {item : Item}

theorem visit_of_file (h : item.isDirectory = false) (s : State) :
    visit receive enter directory leading item s = handOut receive (leading ++ item.name) s := by
  unfold visit
  rw [h]
  rfl

/-- A directory may be gone, may be a link to one that has been entered, or is entered. -/
theorem visit_of_directory (h : item.isDirectory = true)
    (hpath : (entryPath directory item.name).Askable) (s : State) :
    (∃ fault, s.world.files.stat (entryPath directory item.name) = .error (.fault fault) ∧
      visit receive enter directory leading item s
        = Run.note (.walkEntrySkipped (entryPath directory item.name) vanished) s) ∨
    (∃ i, s.world.files.stat (entryPath directory item.name) = .ok i ∧ item.isLink = true ∧
      i ∈ s.visited ∧ visit receive enter directory leading item s
        = Run.note (.walkLinkRevisit (entryPath directory item.name)) s) ∨
    ∃ i, s.world.files.stat (entryPath directory item.name) = .ok i ∧
      (item.isLink = true → i ∉ s.visited) ∧
      visit receive enter directory leading item s
        = enter (entryPath directory item.name) (leading ++ item.name ++ "/") i item.isLink
            { s with visited := i :: s.visited } := by
  unfold visit
  rw [h]
  simp only [Bool.not_true, Bool.false_eq_true, if_false]
  cases hstat : s.world.files.stat (entryPath directory item.name) with
  | error e =>
    obtain ⟨fault, rfl⟩ := (FileSystem.stat_error_iff_askable hstat).mpr hpath
    exact Or.inl ⟨fault, rfl, rfl⟩
  | ok i =>
    refine Or.inr ?_
    by_cases hvisited : i ∈ s.visited ∧ item.isLink = true
    · refine Or.inl ⟨i, rfl, hvisited.2, hvisited.1, if_pos ?_⟩
      simpa using hvisited
    · refine Or.inr ⟨i, rfl, fun hlink hmem => hvisited ⟨hmem, hlink⟩, if_neg ?_⟩
      simpa using hvisited

/-- Visiting depends on entering only where an item is entered. -/
theorem visit_congr {other : Text → Text → Inode → Bool → State → Run} {s : State}
    (h : ∀ i, s.world.files.stat (entryPath directory item.name) = .ok i →
      item.isDirectory = true → (item.isLink = true → i ∉ s.visited) →
      enter (entryPath directory item.name) (leading ++ item.name ++ "/") i item.isLink
          { s with visited := i :: s.visited }
        = other (entryPath directory item.name) (leading ++ item.name ++ "/") i item.isLink
          { s with visited := i :: s.visited }) :
    visit receive enter directory leading item s = visit receive other directory leading item s := by
  unfold visit
  extract_lets below path
  split
  · rfl
  next hd =>
  split
  · rfl
  · rfl
  · next i hstat =>
    split
    · rfl
    next hrevisit =>
    refine h i hstat (by simpa using hd) fun hlink hmem => hrevisit ?_
    simp [hlink, hmem]

end

/-! ## Steady worlds -/

/-- Worlds in which nothing ends a walk. -/
structure Steady (W : World → Prop) (receive : Receiver) : Prop where
  sound : ∀ {world}, W world → world.files.Sound
  token : ∀ {world}, W world → world.token.isCancelled = false
  received : ∀ {world} n, W world → W (receive n world).world
  wanted : ∀ {world} n, W world → (receive n world).halt = none

/-- A world that nobody changes. -/
theorem steady_passive {fs : FileSystem} (hfs : fs.Sound) {token : CancellationToken}
    (htoken : token.isCancelled = false) : Steady (· = ⟨fs, token⟩) Receiver.passive where
  sound h := h ▸ hfs
  token h := h ▸ htoken
  received _ h := h
  wanted _ _ := rfl

/-- What the states of a walk through such worlds have in common, as far as handing out a file keeps
it, and whatever directories have been entered. -/
structure Lasting (W : World → Prop) (receive : Receiver) (P : State → Prop) : Prop where
  world : ∀ {s}, P s → W s.world
  handOut : ∀ {s} path, P s → P (handOut receive path s).state
  visited : ∀ {s} visited, P s → P { s with visited }

section
variable {W : World → Prop} {receive : Receiver} (hW : Steady W receive)
include hW

theorem Steady.lasting : Lasting W receive (W ·.world) where
  world h := h
  handOut _ h := hW.received _ h
  visited _ h := h

theorem Steady.checkpoint_eq {s : State} (hs : W s.world) : checkpoint s = Run.skip s := by
  unfold checkpoint
  rw [CancellationToken.check_eq_none_iff.mpr (hW.token hs)]

section
variable {P : State → Prop} (hP : Lasting W receive P)
include hP

/-- Visiting goes on if entering does. -/
theorem Steady.goesOn_visit_of {enter : Text → Text → Inode → Bool → State → Run}
    (henter : ∀ path leading i via s, path.Askable → P s → (enter path leading i via s).GoesOn P)
    {directory leading : Text} {item : Item} (hpath : (entryPath directory item.name).Askable)
    {s : State} (hs : P s) : (visit receive enter directory leading item s).GoesOn P := by
  cases hd : item.isDirectory with
  | false =>
    rw [visit_of_file receive enter leading hd]
    exact ⟨hW.wanted _ (hP.world hs), hP.handOut _ hs⟩
  | true =>
    rcases visit_of_directory receive enter leading hd hpath s with
      ⟨_, -, heq⟩ | ⟨_, -, -, -, heq⟩ | ⟨i, -, -, heq⟩
    · rw [heq]
      exact Run.goesOn_note _ hs
    · rw [heq]
      exact Run.goesOn_note _ hs
    · rw [heq]
      exact henter _ _ _ _ _ hpath (hP.visited _ hs)

/-- The batches do not matter while the token is not cancelled. -/
theorem Steady.visitAll_eq_each (options : Options) {enter : Text → Text → Inode → Bool → State → Run}
    {directory leading : Text} {items : List Item}
    (hvisit : ∀ item ∈ items, ∀ s, P s →
      (visit receive enter directory leading item s).GoesOn P)
    (index : Nat) {s : State} (hs : P s) :
    visitAll options receive enter directory leading index items s
      = Run.each (visit receive enter directory leading) items s := by
  induction items generalizing index s with
  | nil => rfl
  | cons item items ih =>
    have hitem := hvisit item List.mem_cons_self s hs
    have hrest := ih (fun i hi => hvisit i (List.mem_cons_of_mem item hi)) (index + 1)
      hitem.state
    rw [visitAll, hW.checkpoint_eq (hP.world hs)]
    simp only [ite_self, Run.skip_andThen]
    rw [Run.each, Run.andThen_of_not_halt hitem.halt, Run.andThen_of_not_halt hitem.halt, hrest]

end

theorem Steady.askable_item {s : State} (hs : W s.world) {followLinks : Bool} {path : Text}
    (hpath : path.Askable) {listed : List DirectoryEntry}
    (hscan : s.world.files.scan path = .ok listed) {item : Item}
    (hitem : item ∈ itemsOf s.world.files followLinks path listed) :
    (entryPath path item.name).Askable := by
  obtain ⟨d, entries, -, hentries, rfl⟩ := FileSystem.scan_eq_ok_iff.mp hscan
  exact askable_of_mem_itemsOf (hW.sound hs) hpath hentries hitem

end

/-- The run with which a directory is entered. -/
def opening (followLinks : Bool) (path : Text) (directory : Inode) (throughLink : Bool)
    (listed : List DirectoryEntry) (s : State) : Run :=
  ⟨.entered path directory throughLink ::
    reported (listed.map (sight s.world.files followLinks path)), s, none⟩

@[simp] theorem halt_opening (followLinks : Bool) (path : Text) (d : Inode) (via : Bool)
    (listed : List DirectoryEntry) (s : State) :
    (opening followLinks path d via listed s).halt = none := rfl

@[simp] theorem state_opening (followLinks : Bool) (path : Text) (d : Inode) (via : Bool)
    (listed : List DirectoryEntry) (s : State) :
    (opening followLinks path d via listed s).state = s := rfl

/-- What follows the opening of a directory matters only for the state that it starts in. -/
theorem opening_andThen_congr (followLinks : Bool) (path : Text) (d : Inode) (via : Bool)
    (listed : List DirectoryEntry) {s : State} {next other : State → Run} (h : next s = other s) :
    (opening followLinks path d via listed s).andThen next
      = (opening followLinks path d via listed s).andThen other := by
  rw [Run.andThen_of_not_halt (halt_opening ..), Run.andThen_of_not_halt (halt_opening ..),
    state_opening, h]

section
variable {W : World → Prop} {receive : Receiver} (hW : Steady W receive)
include hW

/-- A directory that can be listed is opened, and its items are visited. -/
theorem Steady.enter_succ (options : Options) (depth : Nat) {path leading : Text} {d : Inode}
    {via : Bool} {s : State} (hs : W s.world)
    {listed : List DirectoryEntry} (hscan : s.world.files.scan path = .ok listed) :
    enter options receive (depth + 1) path leading d via s
      = (opening options.followLinks path d via listed s).andThen
          (visitAll options receive (enter options receive depth) path leading 0
            (itemsOf s.world.files options.followLinks path listed)) := by
  have hrefused : refused? (listed.map (sight s.world.files options.followLinks path)) = none :=
    refused?_of_scan (hW.sound hs) options.followLinks hscan (List.Subset.refl _)
  rw [enter, hW.checkpoint_eq hs, Run.skip_andThen, hscan]
  simp only [hrefused]
  rfl

theorem Steady.enter_of_scan_error (options : Options) (depth : Nat) {path leading : Text}
    {d : Inode} {via : Bool} {s : State} (hs : W s.world) {fault : FileFault}
    (hscan : s.world.files.scan path = .error (.fault fault)) :
    enter options receive (depth + 1) path leading d via s
      = Run.note (.walkDirectoryUnreadable path (fault.report [path])) s := by
  rw [enter, hW.checkpoint_eq hs, Run.skip_andThen, hscan]

section
variable {P : State → Prop} (hP : Lasting W receive P) (options : Options) (depth : Nat)
include hP

/-- A walk from a path that can be asked for comes to its end. -/
theorem Steady.goesOn_enter_of (path leading : Text) (d : Inode) (via : Bool) (s : State)
    (hpath : path.Askable) (hs : P s) :
    (enter options receive depth path leading d via s).GoesOn P := by
  induction depth generalizing path leading d via s with
  | zero => exact Run.goesOn_skip hs
  | succ depth ih =>
    have hworld := hP.world hs
    cases hscan : s.world.files.scan path with
    | error e =>
      obtain ⟨fault, rfl⟩ := FileSystem.scan_error_of_askable hpath hscan
      rw [hW.enter_of_scan_error options depth hworld hscan]
      exact Run.goesOn_note _ hs
    | ok listed =>
      have hvisit : ∀ item ∈ itemsOf s.world.files options.followLinks path listed, ∀ t,
          P t → (visit receive (enter options receive depth) path leading item t).GoesOn P :=
        fun item hitem t ht =>
          hW.goesOn_visit_of hP ih (hW.askable_item hworld hpath hscan hitem) ht
      rw [hW.enter_succ options depth hworld hscan]
      refine Run.GoesOn.andThen ⟨rfl, hs⟩ ?_
      show (visitAll options receive (enter options receive depth) path leading 0
        (itemsOf s.world.files options.followLinks path listed) s).GoesOn P
      rw [hW.visitAll_eq_each hP options hvisit 0 hs]
      exact Run.goesOn_each hvisit hs

theorem Steady.goesOn_visit_lasting {path leading : Text} {item : Item}
    (hpath : (entryPath path item.name).Askable) (s : State) (hs : P s) :
    (visit receive (enter options receive depth) path leading item s).GoesOn P :=
  hW.goesOn_visit_of hP (hW.goesOn_enter_of hP options depth) hpath hs

end

theorem Steady.goesOn_enter (options : Options) (depth : Nat) (path leading : Text) (d : Inode)
    (via : Bool) (s : State) (hpath : path.Askable) (hs : W s.world) :
    (enter options receive depth path leading d via s).GoesOn (W ·.world) :=
  hW.goesOn_enter_of hW.lasting options depth path leading d via s hpath hs

theorem Steady.goesOn_visit (options : Options) (depth : Nat) {path leading : Text} {item : Item}
    (hpath : (entryPath path item.name).Askable) (s : State) (hs : W s.world) :
    (visit receive (enter options receive depth) path leading item s).GoesOn (W ·.world) :=
  hW.goesOn_visit_lasting hW.lasting options depth hpath s hs

/-- The items of a directory that is entered are visited one after the other. -/
theorem Steady.enter_of_scan (options : Options) (depth : Nat) {path leading : Text} {d : Inode}
    {via : Bool} {s : State} (hs : W s.world) (hpath : path.Askable)
    {listed : List DirectoryEntry} (hscan : s.world.files.scan path = .ok listed) :
    enter options receive (depth + 1) path leading d via s
      = (opening options.followLinks path d via listed s).andThen
          (Run.each (visit receive (enter options receive depth) path leading)
            (itemsOf s.world.files options.followLinks path listed)) := by
  rw [hW.enter_succ options depth hs hscan]
  have hvisit : ∀ item ∈ itemsOf s.world.files options.followLinks path listed, ∀ t,
      W t.world → (visit receive (enter options receive depth) path leading item t).GoesOn (W ·.world) :=
    fun item hitem => hW.goesOn_visit options depth (hW.askable_item hs hpath hscan hitem)
  exact opening_andThen_congr _ _ _ _ _ (hW.visitAll_eq_each hW.lasting options hvisit 0 hs)

/-- Walks that treat links alike are alike: the batches make no difference. -/
theorem Steady.enter_batchSize {o p : Options} (hop : o.followLinks = p.followLinks) (depth : Nat)
    {path leading : Text} {d : Inode} {via : Bool} {s : State} (hpath : path.Askable)
    (hs : W s.world) :
    enter o receive depth path leading d via s = enter p receive depth path leading d via s := by
  induction depth generalizing path leading d via s with
  | zero => rfl
  | succ depth ih =>
    cases hscan : s.world.files.scan path with
    | error e =>
      obtain ⟨fault, rfl⟩ := FileSystem.scan_error_of_askable hpath hscan
      rw [hW.enter_of_scan_error o depth hs hscan, hW.enter_of_scan_error p depth hs hscan]
    | ok listed =>
      rw [hW.enter_of_scan o depth hs hpath hscan, hW.enter_of_scan p depth hs hpath hscan, hop]
      have hask {item : Item} (h : item ∈ itemsOf s.world.files p.followLinks path listed) :
          (entryPath path item.name).Askable := hW.askable_item hs hpath hscan h
      refine opening_andThen_congr _ _ _ _ _
        (Run.each_congr (fun item h => hW.goesOn_visit o depth (hask h)) ?_ hs)
      intro item h t ht
      exact visit_congr receive _ leading fun i _ _ _ => ih (hask h) ht

theorem Steady.traverse_batchSize {o p : Options} (hop : o.followLinks = p.followLinks)
    (root : Path) {world : World} (hworld : W world) :
    traverse o receive root world = traverse p receive root world := by
  unfold traverse
  extract_lets start
  split
  · rfl
  · rfl
  · next i hstat =>
    exact hW.enter_batchSize hop depthLimit (FileSystem.askable_of_stat hstat) hworld

end

/-- No path is as long as the walk is deep. -/
theorem length_lt_depthLimit (path : Text) : Route.lengthLimit < depthLimit + path.length := by
  unfold depthLimit
  omega

/-- A walk enters its root. -/
theorem traverse_of_stat {fs : FileSystem} {token : CancellationToken} (options : Options)
    {receive : Receiver} {root : Path} {d : Inode} (hstat : fs.stat root.text = .ok d) :
    traverse options receive root ⟨fs, token⟩
      = enter options receive depthLimit root.text [] d false ⟨⟨fs, token⟩, [d], 0⟩ := by
  unfold traverse
  simp only [hstat]

/-! ## Files that nobody changes -/

section
variable {fs : FileSystem} (hfs : fs.Sound) {token : CancellationToken}
  (htoken : token.isCancelled = false) (options : Options) (depth : Nat) {path leading : Text}
  {d : Inode} {via : Bool} {s : State}
include hfs htoken

/-- What is entered and is no directory is reported. -/
theorem enter_of_entries_none (hs : s.world = ⟨fs, token⟩) (hstat : fs.stat path = .ok d)
    (hentries : fs.entries? d = none) :
    enter options Receiver.passive (depth + 1) path leading d via s
      = Run.note (.walkDirectoryUnreadable path (FileFault.notDirectory.report [path])) s := by
  have hW : Steady (· = ⟨fs, token⟩) Receiver.passive := steady_passive hfs htoken
  refine hW.enter_of_scan_error options depth hs ?_
  rw [hs]
  exact FileSystem.scan_of_not_directory hstat hentries

/-- A directory that is entered is listed, and its items are visited one after the other. -/
theorem enter_of_entries (hs : s.world = ⟨fs, token⟩) (hstat : fs.stat path = .ok d)
    {entries : List (Bytes × Inode)} (hentries : fs.entries? d = some entries) :
    enter options Receiver.passive (depth + 1) path leading d via s
      = (opening options.followLinks path d via (fs.listing entries) s).andThen
          (Run.each (visit Receiver.passive (enter options Receiver.passive depth) path leading)
            (itemsOf fs options.followLinks path (fs.listing entries))) := by
  have hW : Steady (· = ⟨fs, token⟩) Receiver.passive := steady_passive hfs htoken
  have hscan : s.world.files.scan path = .ok (fs.listing entries) := by
    rw [hs]
    exact FileSystem.scan_eq_ok_iff.mpr ⟨d, entries, hstat, hentries, rfl⟩
  have henter : enter options Receiver.passive (depth + 1) path leading d via s = _ :=
    hW.enter_of_scan options depth hs (FileSystem.askable_of_stat hstat) hscan
  rwa [hs] at henter

theorem goesOn_visit_still (leading : Text) {item : Item} (hask : (entryPath path item.name).Askable) (t : State)
    (ht : t.world = ⟨fs, token⟩) :
    (visit Receiver.passive (enter options Receiver.passive depth) path leading item t).GoesOn
      (·.world = ⟨fs, token⟩) :=
  (steady_passive hfs htoken).goesOn_visit options depth hask t ht

end

end BundleManifest.Walk
