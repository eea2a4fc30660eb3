/-
# BundleManifest.Proofs.FileSystem.Descent — the real path of a directory

A node `Descends` from a directory by names when they lead down to it, through directories only. In a
file system that is `Placed`, every directory knows the one that lists it, and so every node that
descends from the root does so by one list of names (`Descends.unique`): its real path. Wherever segments
lead without meeting a link, taking out `..` leaves the real path (`exists_absolute`).
-/
import BundleManifest.FileSystem.Canonical
import BundleManifest.Proofs.FileSystem.Passage
import BundleManifest.Proofs.FileSystem.Places
import BundleManifest.Proofs.Text.Pieces

namespace BundleManifest

/-- The path that names lead to from the root. -/
def realPath (names : List Bytes) : Path := ⟨.root, names.map Utf8.decode⟩

/-- The path that a route is written as. -/
def Route.path (route : Route) : Path :=
  ⟨if route.absolute then .root else .here, route.segments.map Utf8.decode⟩

theorem Utf8.decode_up : Utf8.decode Route.up = Text.dotdot :=
  Utf8.decode_of_ascii (by simp [Route.up])

theorem Utf8.decode_self : Utf8.decode Route.self = Text.dot :=
  Utf8.decode_of_ascii (by simp [Route.self])

theorem Utf8.decode_eq_dotdot_iff {segment : Bytes} :
    Utf8.decode segment = Text.dotdot ↔ segment = Route.up := by
  rw [← Utf8.decode_up]
  exact Utf8.decode_inj

theorem Utf8.decode_eq_dot_iff {segment : Bytes} :
    Utf8.decode segment = Text.dot ↔ segment = Route.self := by
  rw [← Utf8.decode_self]
  exact Utf8.decode_inj

namespace FileSystem

/-! ## Names that lead down -/

/-- Names lead down from a directory to a node, and none of them stands for a link. -/
def Descends (fs : FileSystem) (d : Inode) (names : List Bytes) (e : Inode) : Prop :=
  (∀ name ∈ names, name ≠ Route.self ∧ name ≠ Route.up) ∧ fs.advance true d names = .ok (.node e)

instance (fs : FileSystem) (d : Inode) (names : List Bytes) (e : Inode) :
    Decidable (fs.Descends d names e) :=
  inferInstanceAs (Decidable (_ ∧ _))

/-- A passage without links is what `advance` finds. -/
theorem exists_passage_iff_advance {fs : FileSystem} (hfs : fs.Sound) {d e : Inode}
    {segments : List Bytes} :
    (∃ added, Passage fs d segments 0 added e) ↔ fs.advance true d segments = .ok (.node e) := by
  constructor
  · rintro ⟨added, h⟩
    generalize hlinks : 0 = links at h
    induction h with
    | done => rfl
    | self hd h ih =>
      obtain ⟨above, entries, hnode⟩ := node?_of_kind? hd
      simpa [advance, hnode] using ih hlinks
    | up hd h ih => simpa [advance, hd, Route.up, Route.self] using ih hlinks
    | entry hholds hkind h ih =>
      rw [hholds.advance hfs hkind]
      exact ih hlinks
    | link => exact absurd hlinks (by omega)
  · intro h
    obtain ⟨fewer, added, hle, hpassage⟩ := exists_passage hfs (locateFrom_of_node h 0)
    obtain rfl := Nat.le_zero.mp hle
    exact ⟨added, hpassage⟩

/-- Segments that end at a node without a link may be followed by others. -/
theorem advance_append_of_node {fs : FileSystem} {d e : Inode} {xs : List Bytes}
    (h : fs.advance true d xs = .ok (.node e)) (ys : List Bytes) :
    fs.advance true d (xs ++ ys) = fs.advance true e ys := by
  by_cases hys : ys = []
  · subst hys
    rw [List.append_nil, h]
    rfl
  · rw [advance_append fs true d xs hys, h]

/-- Where segments end with a name, the name is one of the directory before it. -/
theorem exists_holds_of_advance {fs : FileSystem} (hfs : fs.Sound) {d i : Inode} {xs : List Bytes}
    {name : Bytes} (hself : name ≠ Route.self) (hup : name ≠ Route.up)
    (h : fs.advance true d (xs ++ [name]) = .ok (.node i)) :
    ∃ e, fs.advance true d xs = .ok (.node e) ∧ fs.Holds e name i ∧ fs.kind? i ≠ some .link := by
  obtain ⟨added, hpassage⟩ := (exists_passage_iff_advance hfs).mpr h
  obtain ⟨e, l₁, l₂, a₁, a₂, hfirst, hlast, hlinks, -⟩ := hpassage.split
  obtain ⟨rfl, rfl⟩ : l₁ = 0 ∧ l₂ = 0 := by omega
  cases hlast with
  | self => exact absurd rfl hself
  | up => exact absurd rfl hup
  | entry hholds hkind hdone =>
    cases hdone
    exact ⟨e, (exists_passage_iff_advance hfs).mp ⟨a₁, hfirst⟩, hholds, hkind⟩

namespace Descends

variable {fs : FileSystem} {d e i : Inode} {names others : List Bytes} {name : Bytes}

theorem refl (fs : FileSystem) (d : Inode) : fs.Descends d [] d :=
  ⟨fun _ hname => absurd hname List.not_mem_nil, rfl⟩

theorem append (h : fs.Descends d names e) (h' : fs.Descends e others i) :
    fs.Descends d (names ++ others) i := by
  refine ⟨fun name hname => ?_, ?_⟩
  · rcases List.mem_append.mp hname with hname | hname
    · exact h.1 name hname
    · exact h'.1 name hname
  · rw [advance_append_of_node h.2]
    exact h'.2

theorem eq_of_nil (h : fs.Descends d [] e) : e = d := by
  cases h.2
  rfl

section
variable (hfs : fs.Sound)
include hfs

theorem of_holds (h : fs.Holds d name i) (hkind : fs.kind? i ≠ some .link) :
    fs.Descends d [name] i := by
  have hname := h.legal hfs
  refine ⟨fun other hother => ?_, ?_⟩
  · obtain rfl := List.mem_singleton.mp hother
    exact ⟨hname.ne_self, hname.ne_up⟩
  · rw [h.advance hfs hkind]
    rfl

/-- The last name is one of the directory before it. -/
theorem exists_holds (h : fs.Descends d (names ++ [name]) i) :
    ∃ e, fs.Descends d names e ∧ fs.Holds e name i ∧ fs.kind? i ≠ some .link := by
  obtain ⟨hnames, hadvance⟩ := h
  obtain ⟨hself, hup⟩ := hnames name (by simp)
  obtain ⟨e, hfirst, hholds, hkind⟩ := exists_holds_of_advance hfs hself hup hadvance
  exact ⟨e, ⟨fun other hother => hnames other (by simp [hother]), hfirst⟩, hholds, hkind⟩

/-- Names that lead down are names of directories. -/
theorem legal (h : fs.Descends d names i) : ∀ name ∈ names, LegalName name := by
  induction names using List.reverseRecOn generalizing i with
  | nil => exact fun name hname => absurd hname List.not_mem_nil
  | append_singleton names last ih =>
    obtain ⟨e, hnames, hholds, -⟩ := h.exists_holds hfs
    intro name hname
    rcases List.mem_append.mp hname with hname | hname
    · exact ih hnames name hname
    · exact List.mem_singleton.mp hname ▸ hholds.legal hfs

end

end Descends

/-! ## One place for every directory -/

/-- The directory above every directory is the one that lists it, and the root is above itself. The
working directory is known by its real path. -/
structure Placed (fs : FileSystem) : Prop where
  top : ∀ {above : Inode} {entries : List (Bytes × Inode)},
    fs.node? rootInode = some (.directory above entries) → above = rootInode
  unlisted : ∀ {d : Inode} {name : Bytes}, ¬ fs.Holds d name rootInode
  above : ∀ {d i above : Inode} {name : Bytes} {entries : List (Bytes × Inode)},
    fs.Holds d name i → fs.node? i = some (.directory above entries) → above = d
  here : ∃ names, fs.herePath = realPath names ∧ fs.Descends rootInode names fs.here

section
variable {fs : FileSystem} (hfs : fs.Sound) (hwhole : fs.Whole) (hplaced : fs.Placed)
include hfs hplaced

namespace Descends

include hwhole in
/-- What descends from the root does so by one list of names. -/
theorem unique {i : Inode} {names others : List Bytes} (h : fs.Descends rootInode names i)
    (h' : fs.Descends rootInode others i) : names = others := by
  induction names using List.reverseRecOn generalizing others i with
  | nil =>
    obtain rfl := h.eq_of_nil
    rcases List.eq_nil_or_concat' others with rfl | ⟨front, last, rfl⟩
    · rfl
    · obtain ⟨e, -, hholds, -⟩ := h'.exists_holds hfs
      exact absurd hholds hplaced.unlisted
  | append_singleton names name ih =>
    obtain ⟨e, hnames, hholds, -⟩ := h.exists_holds hfs
    rcases List.eq_nil_or_concat' others with rfl | ⟨front, last, rfl⟩
    · obtain rfl := h'.eq_of_nil
      exact absurd hholds hplaced.unlisted
    · obtain ⟨e', hfront, hholds', -⟩ := h'.exists_holds hfs
      obtain ⟨rfl, rfl⟩ := hwhole.listed_once hholds hholds'
      rw [ih hnames hfront]

/-- The directory above is found by one name less. -/
theorem above {d above : Inode} {entries : List (Bytes × Inode)} {names : List Bytes}
    (h : fs.Descends rootInode names d) (hd : fs.node? d = some (.directory above entries)) :
    fs.Descends rootInode names.dropLast above := by
  rcases List.eq_nil_or_concat' names with rfl | ⟨front, last, rfl⟩
  · obtain rfl := h.eq_of_nil
    obtain rfl := hplaced.top hd
    exact h
  · obtain ⟨e, hfront, hholds, -⟩ := h.exists_holds hfs
    obtain rfl := hplaced.above hholds hd
    rw [List.dropLast_concat]
    exact hfront

end Descends

end

/-! ## Taking out what leads up -/

/-- `..` takes back the last name. -/
theorem collapseStep_dotdot {names : List Bytes} (h : ∀ name ∈ names, name ≠ Route.up) :
    Path.collapseStep true (names.map Utf8.decode) Text.dotdot
      = names.dropLast.map Utf8.decode := by
  unfold Path.collapseStep
  rw [if_pos rfl, List.getLast?_map]
  rcases List.eq_nil_or_concat' names with rfl | ⟨front, last, rfl⟩
  · rfl
  · have hlast : Utf8.decode last ≠ Text.dotdot :=
      fun heq => h last (by simp) (Utf8.decode_eq_dotdot_iff.mp heq)
    simp [hlast]

theorem collapseStep_of_ne {absolute : Bool} {parts : List Text} {part : Text}
    (h : part ≠ Text.dotdot) : Path.collapseStep absolute parts part = parts ++ [part] :=
  if_neg h

section
variable {fs : FileSystem} (hfs : fs.Sound) (hplaced : fs.Placed)
include hfs hplaced

/-- Where no link is met, taking out `..` keeps to the names that lead down. -/
theorem exists_collapse {d e : Inode} {segments : List Bytes}
    (h : fs.advance true d segments = .ok (.node e)) (hself : Route.self ∉ segments)
    {names : List Bytes} (hnames : fs.Descends rootInode names d) :
    ∃ more, (segments.map Utf8.decode).foldl (Path.collapseStep true) (names.map Utf8.decode)
        = more.map Utf8.decode ∧ fs.Descends rootInode more e := by
  obtain ⟨added, hpassage⟩ := (exists_passage_iff_advance hfs).mpr h
  clear h
  generalize hlinks : 0 = links at hpassage
  induction hpassage generalizing names with
  | done => exact ⟨names, rfl, hnames⟩
  | self hd h ih => exact absurd List.mem_cons_self hself
  | up hd h ih =>
    rw [List.map_cons, List.foldl_cons, Utf8.decode_up,
      collapseStep_dotdot fun name hname => (hnames.1 name hname).2]
    exact ih (fun hmem => hself (List.mem_cons_of_mem _ hmem)) (hnames.above hfs hplaced hd) hlinks
  | @entry d i e name rest links added hholds hkind h ih =>
    have hname : Utf8.decode name ≠ Text.dotdot :=
      fun heq => (hholds.legal hfs).ne_up (Utf8.decode_eq_dotdot_iff.mp heq)
    have hmore : names.map Utf8.decode ++ [Utf8.decode name] = (names ++ [name]).map Utf8.decode := by
      simp
    rw [List.map_cons, List.foldl_cons, collapseStep_of_ne hname, hmore]
    exact ih (fun hmem => hself (List.mem_cons_of_mem _ hmem))
      (hnames.append (.of_holds hfs hholds hkind)) hlinks
  | link => exact absurd hlinks (by omega)

/-- A route on which no link is met leads to a node by its real path. -/
theorem exists_absolute {route : Route} {e : Inode} (hself : Route.self ∉ route.segments)
    (h : fs.advance true (fs.start route) route.segments = .ok (.node e)) :
    ∃ names, fs.absolute route.path = realPath names ∧ fs.Descends rootInode names e := by
  obtain ⟨absolute, segments, slashed⟩ := route
  cases absolute with
  | true =>
    obtain ⟨names, hnames, hdescends⟩ :=
      exists_collapse hfs hplaced h hself (Descends.refl fs rootInode)
    refine ⟨names, ?_, hdescends⟩
    show Path.mk .root _ = Path.mk .root _
    rw [← hnames]
    rfl
  | false =>
    obtain ⟨front, hpath, hfront⟩ := hplaced.here
    have hwhole : fs.advance true rootInode (front ++ segments) = .ok (.node e) := by
      rw [advance_append_of_node hfront.2]
      exact h
    have hfrontSelf : Route.self ∉ front := fun hmem => (hfront.1 _ hmem).1 rfl
    obtain ⟨names, hnames, hdescends⟩ := exists_collapse hfs hplaced hwhole
      (by simpa [hfrontSelf] using hself) (Descends.refl fs rootInode)
    refine ⟨names, ?_, hdescends⟩
    unfold FileSystem.absolute
    rw [hpath]
    show Path.mk .root _ = Path.mk .root _
    rw [← hnames, List.map_append]
    rfl

end

/-- A last part that does not lead up is kept. -/
theorem absolute_child (fs : FileSystem) (p : Path) {part : Text} (h : part ≠ Text.dotdot) :
    fs.absolute (p.child part) = (fs.absolute p).child part := by
  have hjoin : fs.herePath.join (p.child part) = (fs.herePath.join p).child part := by
    unfold Path.join Path.child Path.isAbsolute
    split
    · rfl
    · simp
  unfold FileSystem.absolute
  rw [hjoin]
  unfold Path.collapse Path.child Path.isAbsolute
  simp only [List.foldl_append, List.foldl_cons, List.foldl_nil, collapseStep_of_ne h]

end FileSystem

end BundleManifest
