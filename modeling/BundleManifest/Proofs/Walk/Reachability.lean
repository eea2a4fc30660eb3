/-
# BundleManifest.Proofs.Walk.Reachability — following links loses no file

Nothing changes during the walk, and links are followed. A walk passes over a link to a directory
that it knows, so what has to be shown is that everything it knows has been listed, or is just about
to be: `Thorough` says so for a part of a walk, and parts put one after the other keep it. In the end
nothing but the root was known from the start, the directories that were listed are closed under
entries and links, and so all that can be reached is among them
(`reachable_directories_are_listed`).

The limits of the operating system can cut a walk short. `Unhindered` sets them aside: no question
that the walk asks about an existing node is refused.
-/
import BundleManifest.Proofs.FileSystem.Leads
import BundleManifest.Proofs.Walk.Coverage
import BundleManifest.Proofs.Walk.Termination

namespace BundleManifest

namespace FileSystem

/-- One directory leads to another by an entry that is it or links to it. -/
def Opens (fs : FileSystem) (d e : Inode) : Prop :=
  (∃ name, fs.Leads d name e) ∧ fs.kind? e = some .directory

/-- A directory can be reached from another one by entries and links. -/
def Reaches (fs : FileSystem) : Inode → Inode → Prop := Relation.ReflTransGen fs.Opens

end FileSystem

namespace Walk

/-! ## Directories that are listed -/

/-- The directory that an event says to be listed. -/
def Event.listed? : Event → Option Inode
  | .entered _ i _ => some i
  | _ => none

namespace Run

/-- The directories that a run lists, in the order in which it does. -/
def listed (r : Run) : List Inode := r.trace.filterMap Event.listed?

theorem mem_listed_iff {r : Run} {i : Inode} :
    i ∈ r.listed ↔ ∃ path via, .entered path i via ∈ r.trace := by
  unfold listed
  rw [List.mem_filterMap]
  constructor
  · intro h
    obtain ⟨e, he, hi⟩ := h
    cases e with
    | file c => cases hi
    | note n => cases hi
    | entered path j via =>
      cases hi
      exact ⟨path, via, he⟩
  · intro h
    obtain ⟨path, via, he⟩ := h
    exact ⟨_, he, rfl⟩

theorem listed_andThen {first : Run} (h : first.halt = none) (next : State → Run) :
    (first.andThen next).listed = first.listed ++ (next first.state).listed := by
  rw [listed, trace_andThen h, List.filterMap_append]
  rfl

theorem files_andThen_of_not_halt {first : Run} (h : first.halt = none) (next : State → Run) :
    (first.andThen next).files = first.files ++ (next first.state).files := by
  rw [files_andThen, h]
  rfl

end Run

/-- Where a directory is opened, no other one is listed. -/
theorem eq_of_mem_opening {followLinks : Bool} {path asked : Text} {d e : Inode} {via through : Bool}
    {entries : List DirectoryEntry} {s : State}
    (h : .entered asked e through ∈ (opening followLinks path d via entries s).trace) :
    asked = path ∧ e = d := by
  rcases List.mem_cons.mp h with heq | h
  · cases heq
    exact ⟨rfl, rfl⟩
  · obtain ⟨n, hn, -⟩ := mem_reported h
    cases hn

/-- No question of a walk about an existing node is refused: where an entry of a directory that the
walk lists leads somewhere, the operating system takes the path of the entry. -/
def Unhindered (fs : FileSystem) (r : Run) : Prop :=
  ∀ path d via, .entered path d via ∈ r.trace → ∀ name i, fs.Leads d name i →
    ∃ j, fs.stat (entryPath path (Utf8.decode name)) = .ok j

theorem Unhindered.first {fs : FileSystem} {first : Run} {next : State → Run}
    (hhalt : first.halt = none) (h : Unhindered fs (first.andThen next)) : Unhindered fs first := by
  intro path d via hmem
  refine h path d via ?_
  rw [Run.trace_andThen hhalt]
  exact List.mem_append_left _ hmem

theorem Unhindered.second {fs : FileSystem} {first : Run} {next : State → Run}
    (hhalt : first.halt = none) (h : Unhindered fs (first.andThen next)) :
    Unhindered fs (next first.state) := by
  intro path d via hmem
  refine h path d via ?_
  rw [Run.trace_andThen hhalt]
  exact List.mem_append_right _ hmem

/-! ## Runs that leave nothing out -/

/-- What becomes of an item of a directory: a file is handed out, and a directory was known or is
listed. -/
structure Attended (fs : FileSystem) (path leading : Text) (known : List Inode) (r : Run)
    (item : Item) : Prop where
  file : item.isDirectory = false → leading ++ item.name ∈ r.files
  directory : item.isDirectory = true → ∀ i, fs.stat (entryPath path item.name) = .ok i →
    i ∈ known ∨ i ∈ r.listed

/-- What becomes of the entries of a directory that is listed, `names` below the start. -/
structure Exhausted (fs : FileSystem) (leading : Text) (known : List Inode) (r : Run)
    (names : List Bytes) (d : Inode) : Prop where
  file : ∀ name i, fs.Leads d name i → fs.kind? i = some .regular →
    leading ++ relativePath (names ++ [name]) ∈ r.files
  directory : ∀ name i, fs.Leads d name i → fs.kind? i = some .directory →
    i ∈ known ∨ i ∈ r.listed

/-- A run attends to some items, all that it knows in the end was known before or is listed, and so
is all that the directories that it lists lead to. -/
structure Thorough (fs : FileSystem) (path leading : Text) (known : List Inode) (items : List Item)
    (r : Run) : Prop where
  scanned : ∀ i ∈ r.state.visited, i ∈ known ∨ i ∈ r.listed
  attended : ∀ item ∈ items, Attended fs path leading known r item
  exhausted : ∀ asked d via, .entered asked d via ∈ r.trace → fs.stat asked = .ok d ∧
    ∃ names, asked = pathAlong path names ∧ Exhausted fs leading known r names d

namespace Thorough

variable {fs : FileSystem} {path leading : Text} {known : List Inode}

theorem of_listed_eq_nil {items : List Item} {r : Run} (hvisited : r.state.visited ⊆ known)
    (hlisted : r.listed = []) (hattended : ∀ item ∈ items, Attended fs path leading known r item) :
    Thorough fs path leading known items r where
  scanned i hi := Or.inl (hvisited hi)
  attended := hattended
  exhausted asked d via hmem := by
    have hd : d ∈ r.listed := Run.mem_listed_iff.mpr ⟨asked, via, hmem⟩
    rw [hlisted] at hd
    cases hd

theorem andThen {items others : List Item} {first : Run} {next : State → Run}
    (hhalt : first.halt = none) (hfirst : Thorough fs path leading known items first)
    (hnext : Thorough fs path leading first.state.visited others (next first.state)) :
    Thorough fs path leading known (items ++ others) (first.andThen next) := by
  have hlisted := Run.listed_andThen hhalt next
  have hfiles := Run.files_andThen_of_not_halt hhalt next
  -- what the second run knew from the start the first one knew or listed
  have hlater {i : Inode} (h : i ∈ first.state.visited ∨ i ∈ (next first.state).listed) :
      i ∈ known ∨ i ∈ (first.andThen next).listed := by
    rw [hlisted, List.mem_append]
    rcases h with h | h
    · rcases hfirst.scanned i h with h | h
      · exact Or.inl h
      · exact Or.inr (Or.inl h)
    · exact Or.inr (Or.inr h)
  have hearlier {i : Inode} (h : i ∈ known ∨ i ∈ first.listed) :
      i ∈ known ∨ i ∈ (first.andThen next).listed := by
    rw [hlisted, List.mem_append]
    rcases h with h | h
    · exact Or.inl h
    · exact Or.inr (Or.inl h)
  constructor
  · intro i hi
    rw [Run.state_andThen hhalt] at hi
    exact hlater (hnext.scanned i hi)
  · intro item hitem
    rcases List.mem_append.mp hitem with hitem | hitem
    · have h := hfirst.attended item hitem
      refine ⟨fun hfile => ?_, fun hd i hi => hearlier (h.directory hd i hi)⟩
      rw [hfiles]
      exact List.mem_append_left _ (h.file hfile)
    · have h := hnext.attended item hitem
      refine ⟨fun hfile => ?_, fun hd i hi => hlater (h.directory hd i hi)⟩
      rw [hfiles]
      exact List.mem_append_right _ (h.file hfile)
  · intro asked d via hmem
    rw [Run.trace_andThen hhalt, List.mem_append] at hmem
    rcases hmem with hmem | hmem
    · obtain ⟨hstat, names, hnames, h⟩ := hfirst.exhausted asked d via hmem
      refine ⟨hstat, names, hnames, fun name i hi hkind => ?_,
        fun name i hi hkind => hearlier (h.directory name i hi hkind)⟩
      rw [hfiles]
      exact List.mem_append_left _ (h.file name i hi hkind)
    · obtain ⟨hstat, names, hnames, h⟩ := hnext.exhausted asked d via hmem
      refine ⟨hstat, names, hnames, fun name i hi hkind => ?_,
        fun name i hi hkind => hlater (h.directory name i hi hkind)⟩
      rw [hfiles]
      exact List.mem_append_right _ (h.file name i hi hkind)

theorem each {P : State → Prop} {f : Item → State → Run} {items : List Item}
    (hf : ∀ item ∈ items, ∀ s, P s → (f item s).GoesOn P)
    (hthorough : ∀ item ∈ items, ∀ s, P s → Unhindered fs (f item s) →
      Thorough fs path leading s.visited [item] (f item s)) {s : State} (hs : P s)
    (hopen : Unhindered fs (Run.each f items s)) :
    Thorough fs path leading s.visited items (Run.each f items s) := by
  induction items generalizing s with
  | nil =>
    refine of_listed_eq_nil (List.Subset.refl _) rfl ?_
    intro item hitem
    cases hitem
  | cons item items ih =>
    have hgo := hf item List.mem_cons_self s hs
    have hfirst := hthorough item List.mem_cons_self s hs (hopen.first hgo.halt)
    have hrest := ih (fun b hb => hf b (List.mem_cons_of_mem item hb))
      (fun b hb => hthorough b (List.mem_cons_of_mem item hb)) hgo.state (hopen.second hgo.halt)
    exact hfirst.andThen hgo.halt hrest

/-- A directory is opened, and then its items are attended to. -/
theorem opened {items : List Item} {first : Run} {next : State → Run} (hhalt : first.halt = none)
    {d : Inode} {via : Bool} (hstat : fs.stat path = .ok d) (hfiles : first.files = [])
    (hfirst : ∀ asked e through, .entered asked e through ∈ first.trace →
      asked = path ∧ e = d)
    (hself : .entered path d via ∈ first.trace)
    (hitems : Thorough fs path leading known items (next first.state))
    (hexhausted : Exhausted fs leading known (next first.state) [] d) :
    Thorough fs path leading known [] (first.andThen next) ∧ d ∈ (first.andThen next).listed := by
  have hlisted := Run.listed_andThen hhalt next
  have hlater {i : Inode} (h : i ∈ known ∨ i ∈ (next first.state).listed) :
      i ∈ known ∨ i ∈ (first.andThen next).listed := by
    rw [hlisted, List.mem_append]
    rcases h with h | h
    · exact Or.inl h
    · exact Or.inr (Or.inr h)
  have hsame : (first.andThen next).files = (next first.state).files := by
    rw [Run.files_andThen_of_not_halt hhalt, hfiles, List.nil_append]
  have hlift {names : List Bytes} {e : Inode}
      (h : Exhausted fs leading known (next first.state) names e) :
      Exhausted fs leading known (first.andThen next) names e :=
    ⟨fun name i hi hkind => hsame ▸ h.file name i hi hkind,
      fun name i hi hkind => hlater (h.directory name i hi hkind)⟩
  refine ⟨⟨?_, ?_, ?_⟩, ?_⟩
  · intro i hi
    rw [Run.state_andThen hhalt] at hi
    exact hlater (hitems.scanned i hi)
  · intro item hitem
    cases hitem
  · intro asked e through hmem
    rw [Run.trace_andThen hhalt, List.mem_append] at hmem
    rcases hmem with hmem | hmem
    · obtain ⟨rfl, rfl⟩ := hfirst asked e through hmem
      exact ⟨hstat, [], rfl, hlift hexhausted⟩
    · obtain ⟨hasked, names, hnames, h⟩ := hitems.exhausted asked e through hmem
      exact ⟨hasked, names, hnames, hlift h⟩
  · rw [hlisted, List.mem_append]
    exact Or.inl (Run.mem_listed_iff.mpr ⟨path, via, hself⟩)

/-- What is left out below an item is left out nowhere. -/
theorem below {name : Bytes} {r : Run} {i : Inode} {s : State}
    (h : Thorough fs (entryPath path (Utf8.decode name)) (leading ++ Utf8.decode name ++ "/")
      (i :: s.visited) [] r) (hi : i ∈ r.listed) {item : Item}
    (hattended : Attended fs path leading s.visited r item) :
    Thorough fs path leading s.visited [item] r := by
  -- the directory that is entered is known beforehand, but it is listed as well
  have hknown {j : Inode} (hj : j ∈ i :: s.visited ∨ j ∈ r.listed) :
      j ∈ s.visited ∨ j ∈ r.listed := by
    rcases hj with hj | hj
    · rcases List.mem_cons.mp hj with rfl | hj
      · exact Or.inr hi
      · exact Or.inl hj
    · exact Or.inr hj
  constructor
  · intro j hj
    exact hknown (h.scanned j hj)
  · intro other hother
    rw [List.mem_singleton] at hother
    exact hother ▸ hattended
  · intro asked d via hmem
    obtain ⟨hstat, names, hnames, hexhausted⟩ := h.exhausted asked d via hmem
    refine ⟨hstat, name :: names, hnames, fun other j hj hkind => ?_,
      fun other j hj hkind => hknown (hexhausted.directory other j hj hkind)⟩
    have hmem := hexhausted.file other j hj hkind
    rw [List.append_assoc, List.append_assoc] at hmem
    rw [List.cons_append, relativePath_cons name (by simp), List.append_assoc]
    exact hmem

end Thorough

/-! ## Walks through links -/

section
variable {fs : FileSystem} (hfs : fs.Sound) {options : Options}
  (hfollow : options.followLinks = true)
include hfs

include hfollow in
/-- An entry that leads to a file or a directory is an item. -/
theorem exists_item_of_leads {path : Text} {d i : Inode} {entries : List (Bytes × Inode)}
    (hentries : fs.entries? d = some entries) {name : Bytes} (hi : fs.Leads d name i)
    (hstat : fs.stat (entryPath path (Utf8.decode name)) = .ok i) (isDirectory : Bool)
    (hkind : fs.kind? i = some (if isDirectory then .directory else .regular)) :
    ∃ item ∈ itemsOf fs options.followLinks path (fs.listing entries),
      item.name = Utf8.decode name ∧ item.isDirectory = isDirectory := by
  obtain ⟨c, hc⟩ := hi.1
  obtain ⟨entries', hentries', hmem⟩ := hc
  rw [hentries] at hentries'
  cases hentries'
  have hholds : fs.Holds d name c := ⟨entries, hentries, hmem⟩
  by_cases hlink : fs.kind? c = some .link
  · -- the link is followed, and what it leads to says what the item is
    refine ⟨⟨Utf8.decode name, isDirectory, true⟩, mem_itemsOf.mpr
      ⟨⟨Utf8.decode name, .link⟩, mem_listing.mpr ⟨name, c, hmem, rfl, hlink⟩, ?_⟩, rfl, rfl⟩
    simp only [sight, hfollow, hstat, hkind]
    cases isDirectory <;> rfl
  · have hic : i = c := hholds.eq_of_leads hfs hlink hi
    subst hic
    refine ⟨⟨Utf8.decode name, isDirectory, false⟩, mem_itemsOf.mpr
      ⟨⟨Utf8.decode name, if isDirectory then .directory else .regular⟩,
        mem_listing.mpr ⟨name, i, hmem, rfl, hkind⟩, ?_⟩, rfl, rfl⟩
    cases isDirectory <;> rfl

/-- Visiting an item leaves nothing out, if entering does not. -/
theorem thorough_visit {enter : Text → Text → Inode → Bool → State → Run} {path leading : Text}
    {d : Inode} {entries : List (Bytes × Inode)} (hstat : fs.stat path = .ok d)
    (hentries : fs.entries? d = some entries) {item : Item}
    (hitem : item ∈ itemsOf fs options.followLinks path (fs.listing entries)) {t : State}
    (ht : t.world = ⟨fs, {}⟩)
    (henter : ∀ i s, s.world = ⟨fs, {}⟩ → fs.stat (entryPath path item.name) = .ok i →
      fs.kind? i = some .directory →
      Unhindered fs (enter (entryPath path item.name) (leading ++ item.name ++ "/") i item.isLink s) →
      Thorough fs (entryPath path item.name) (leading ++ item.name ++ "/") s.visited []
          (enter (entryPath path item.name) (leading ++ item.name ++ "/") i item.isLink s) ∧
        i ∈ (enter (entryPath path item.name) (leading ++ item.name ++ "/") i item.isLink s).listed)
    (hopen : Unhindered fs (visit Receiver.passive enter path leading item t)) :
    Thorough fs path leading t.visited [item]
      (visit Receiver.passive enter path leading item t) := by
  have hask := askable_of_mem_itemsOf hfs (FileSystem.askable_of_stat hstat) hentries hitem
  cases hdir : item.isDirectory with
  | false =>
    rw [visit_of_file _ _ leading hdir]
    refine Thorough.of_listed_eq_nil (List.Subset.refl _) rfl ?_
    intro other hother
    rw [List.mem_singleton] at hother
    subst hother
    refine ⟨fun _ => ?_, fun hd => absurd hd (by simp [hdir])⟩
    rw [files_handOut]
    exact List.mem_singleton_self _
  | true =>
    -- whatever becomes of a directory, it is no file
    have hattended {r : Run} (hr : ∀ i, fs.stat (entryPath path item.name) = .ok i →
        i ∈ t.visited ∨ i ∈ r.listed) : Attended fs path leading t.visited r item :=
      ⟨fun hfile => absurd hfile (by simp [hdir]), fun _ => hr⟩
    rcases visit_of_directory Receiver.passive enter leading hdir hask t with
      ⟨fault, hi, heq⟩ | ⟨i, hi, -, hmem, heq⟩ | ⟨i, hi, -, heq⟩
    · rw [ht] at hi
      rw [heq]
      refine Thorough.of_listed_eq_nil (List.Subset.refl _) rfl ?_
      intro other hother
      rw [List.mem_singleton] at hother
      subst hother
      refine hattended fun j hj => ?_
      rw [hi] at hj
      cases hj
    · rw [ht] at hi
      rw [heq]
      refine Thorough.of_listed_eq_nil (List.Subset.refl _) rfl ?_
      intro other hother
      rw [List.mem_singleton] at hother
      subst hother
      refine hattended fun j hj => ?_
      rw [hi] at hj
      cases hj
      exact Or.inl hmem
    · rw [ht] at hi
      rw [heq] at hopen ⊢
      have hkind := (entered_item hfs hstat hentries hitem hdir hi).1
      obtain ⟨name, i', hname, heqName⟩ := name_of_mem_itemsOf hitem
      obtain ⟨hthorough, hlisted⟩ := henter i { t with visited := i :: t.visited } ht hi hkind hopen
      have hatt := hattended fun j hj => by
        rw [hi] at hj
        cases hj
        exact Or.inr hlisted
      rw [heqName] at hthorough hlisted hatt ⊢
      exact hthorough.below hlisted hatt

include hfollow in
/-- Once all items of a directory have been attended to, its entries are exhausted. -/
theorem exhausted_of_attended {path leading : Text} {d : Inode} {entries : List (Bytes × Inode)}
    (hstat : fs.stat path = .ok d) (hentries : fs.entries? d = some entries) {known : List Inode}
    {r : Run} (hattended : ∀ item ∈ itemsOf fs options.followLinks path (fs.listing entries),
      Attended fs path leading known r item)
    (hopen : ∀ name i, fs.Leads d name i → ∃ j, fs.stat (entryPath path (Utf8.decode name)) = .ok j) :
    Exhausted fs leading known r [] d := by
  have hasked {name : Bytes} {i : Inode} (hi : fs.Leads d name i) :
      fs.stat (entryPath path (Utf8.decode name)) = .ok i := by
    obtain ⟨j, hj⟩ := hopen name i hi
    obtain ⟨c, hc⟩ := hi.1
    have hleads := FileSystem.leads_of_stat hstat (hi.legal hfs) hc hj
    rw [hj, hleads.eq hi]
  constructor
  · intro name i hi hkind
    obtain ⟨item, hitem, hname, hfile⟩ := exists_item_of_leads hfs hfollow hentries hi (hasked hi)
      false hkind
    have hmem := (hattended item hitem).file hfile
    rw [hname] at hmem
    exact hmem
  · intro name i hi hkind
    obtain ⟨item, hitem, hname, hdir⟩ := exists_item_of_leads hfs hfollow hentries hi (hasked hi)
      true hkind
    exact (hattended item hitem).directory hdir i (hname ▸ hasked hi)

include hfollow in
/-- Entering a directory leaves nothing out. -/
theorem thorough_enter {depth : Nat} {path leading : Text} {d : Inode} {via : Bool} {s : State}
    (hs : s.world = ⟨fs, {}⟩) (hstat : fs.stat path = .ok d) (hd : fs.kind? d = some .directory)
    (hdepth : Route.lengthLimit < depth + path.length)
    (hopen : Unhindered fs (enter options Receiver.passive depth path leading d via s)) :
    Thorough fs path leading s.visited []
        (enter options Receiver.passive depth path leading d via s) ∧
      d ∈ (enter options Receiver.passive depth path leading d via s).listed := by
  induction depth generalizing path leading d via s with
  | zero =>
    have hlength := Text.length_le_of_fits (FileSystem.fits_of_stat hstat)
    omega
  | succ depth ih =>
    obtain ⟨entries, hentries⟩ := FileSystem.entries?_of_kind? hd
    rw [enter_of_entries hfs rfl options depth hs hstat hentries] at hopen ⊢
    have hhalt := halt_opening options.followLinks path d via (fs.listing entries) s
    have hself : .entered path d via ∈
        (opening options.followLinks path d via (fs.listing entries) s).trace :=
      List.mem_cons_self
    have hask {item : Item}
        (hitem : item ∈ itemsOf fs options.followLinks path (fs.listing entries)) :
        (entryPath path item.name).Askable :=
      askable_of_mem_itemsOf hfs (FileSystem.askable_of_stat hstat) hentries hitem
    have hitems : Thorough fs path leading s.visited
        (itemsOf fs options.followLinks path (fs.listing entries))
        (Run.each (visit Receiver.passive (enter options Receiver.passive depth) path leading)
          (itemsOf fs options.followLinks path (fs.listing entries)) s) := by
      refine Thorough.each (P := (·.world = ⟨fs, {}⟩))
        (fun item hitem => goesOn_visit_still hfs rfl options depth leading (hask hitem))
        (fun item hitem t ht hopen' => ?_) hs (hopen.second hhalt)
      refine thorough_visit hfs hstat hentries hitem ht (fun i s' hs' hi hkind hopen'' => ?_) hopen'
      have hlonger := length_lt_of_mem_itemsOf hfs hentries hitem
      exact ih hs' hi hkind (by omega) hopen''
    exact hitems.opened hhalt hstat (files_opening ..) (fun _ _ _ => eq_of_mem_opening) hself
      (exhausted_of_attended hfs hfollow hstat hentries hitems.attended
        (hopen path d via (List.mem_append_left _ hself)))

end

/-- When nothing hinders the walk, every directory that can be reached from its root by entries and
links is listed, and every entry of such a directory that is a regular file or links to one is handed
out, under a path whose directory part leads to that directory. -/
theorem reachable_directories_are_listed {fs : FileSystem} (hfs : fs.Sound) {options : Options}
    (hfollow : options.followLinks = true) {root : Path} {d : Inode}
    (hstat : fs.stat root.text = .ok d)
    (hopen : Unhindered fs (traverse options Receiver.passive root ⟨fs, {}⟩)) :
    let run := traverse options Receiver.passive root ⟨fs, {}⟩
    ∀ e, fs.Reaches d e → fs.kind? e = some .directory →
      e ∈ run.listed ∧
        ∀ name i, fs.Leads e name i → fs.kind? i = some .regular →
          ∃ names, fs.stat (pathAlong root.text names) = .ok e ∧
            relativePath (names ++ [name]) ∈ run.files := by
  intro run e hreach hkind
  have hroot : fs.kind? d = some .directory := by
    rcases Relation.ReflTransGen.cases_head hreach with rfl | ⟨c, ⟨⟨name, hleads⟩, -⟩, -⟩
    · exact hkind
    · obtain ⟨⟨c, hc⟩, -⟩ := hleads
      exact hc.kind
  have hlimit : Route.lengthLimit < depthLimit + root.text.length := by
    unfold depthLimit
    omega
  have hrun : run = enter options Receiver.passive depthLimit root.text [] d false
      ⟨⟨fs, {}⟩, [d], 0⟩ := traverse_of_stat options hstat
  rw [traverse_of_stat options hstat] at hopen
  obtain ⟨hthorough, hself⟩ := thorough_enter hfs hfollow (s := ⟨⟨fs, {}⟩, [d], 0⟩) rfl hstat hroot
    hlimit hopen
  rw [← hrun] at hthorough hself
  -- nothing but the root was known from the start, so what is listed is closed
  have hlisted : e ∈ run.listed := by
    induction hreach with
    | refl => exact hself
    | tail hearlier hstep ih =>
      obtain ⟨⟨name, hleads⟩, hkind'⟩ := hstep
      obtain ⟨⟨c, hc⟩, -⟩ := id hleads
      obtain ⟨asked, via, hmem⟩ := Run.mem_listed_iff.mp (ih hc.kind)
      obtain ⟨-, names, -, hexhausted⟩ := hthorough.exhausted asked _ via hmem
      rcases hexhausted.directory name _ hleads hkind' with hknown | hlisted
      · rw [List.mem_singleton] at hknown
        exact hknown ▸ hself
      · exact hlisted
  refine ⟨hlisted, fun name i hleads hregular => ?_⟩
  obtain ⟨asked, via, hmem⟩ := Run.mem_listed_iff.mp hlisted
  obtain ⟨hasked, names, rfl, hexhausted⟩ := hthorough.exhausted asked e via hmem
  exact ⟨names, hasked, hexhausted.file name i hleads hregular⟩

/-- The operating system answers for every entry of a directory that an event says to be listed. -/
def Event.isAnswered (fs : FileSystem) : Event → Bool
  | .entered path d _ => ((fs.entries? d).getD []).all fun entry =>
      (fs.stat (entryPath path (Utf8.decode entry.1))).toBool
  | _ => true

theorem unhindered_of_isAnswered {fs : FileSystem} {r : Run}
    (h : r.trace.all (Event.isAnswered fs) = true) : Unhindered fs r := by
  intro path d via hmem name i hleads
  obtain ⟨⟨c, entries, hentries, hname⟩, -⟩ := hleads
  have hanswered := List.all_eq_true.mp h _ hmem
  unfold Event.isAnswered at hanswered
  simp only [hentries, Option.getD_some] at hanswered
  have hanswer := List.all_eq_true.mp hanswered _ hname
  cases hstat : fs.stat (entryPath path (Utf8.decode name)) with
  | ok j => exact ⟨j, rfl⟩
  | error e =>
    simp only [hstat] at hanswer
    cases hanswer

set_option maxRecDepth 4000 in
theorem isAnswered_labyrinth :
    (traverse {} Receiver.passive ⟨.here, []⟩ ⟨labyrinth, {}⟩).trace.all
      (Event.isAnswered labyrinth) = true := by
  cbv

theorem labyrinth_directories_are_listed :
    labyrinth.Sound ∧ labyrinth.stat (Path.text ⟨.here, []⟩) = .ok 0 ∧
      Unhindered labyrinth (traverse {} Receiver.passive ⟨.here, []⟩ ⟨labyrinth, {}⟩) ∧
      let run := traverse {} Receiver.passive ⟨.here, []⟩ ⟨labyrinth, {}⟩
      ∀ e, labyrinth.Reaches 0 e → labyrinth.kind? e = some .directory →
        e ∈ run.listed ∧
          ∀ name i, labyrinth.Leads e name i → labyrinth.kind? i = some .regular →
            ∃ names, labyrinth.stat (pathAlong (Path.text ⟨.here, []⟩) names) = .ok e ∧
              relativePath (names ++ [name]) ∈ run.files := by
  have hfs : labyrinth.Sound := by decide
  have hstat : labyrinth.stat (Path.text ⟨.here, []⟩) = .ok 0 := by decide
  have hopen : Unhindered labyrinth
      (traverse {} Receiver.passive ⟨.here, []⟩ ⟨labyrinth, {}⟩) :=
    unhindered_of_isAnswered isAnswered_labyrinth
  exact ⟨hfs, hstat, hopen, reachable_directories_are_listed hfs rfl hstat hopen⟩

end Walk

end BundleManifest
