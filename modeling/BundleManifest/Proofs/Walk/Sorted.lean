/-
# BundleManifest.Proofs.Walk.Sorted — files come in code point order

A directory sorts as its name with a slash. Names hold no slash, so two items of one directory never
give paths in the wrong order (`Item.Owns.lt`), and a walk hands out its files in strictly increasing
order. Nothing is asked of the worlds in between except that they are steady: whatever is made,
renamed or removed between two files, the order stays (`files_increasing_amid_changes`).
-/
import BundleManifest.Proofs.FileSystem.Changes
import BundleManifest.Proofs.Text.Order
import BundleManifest.Proofs.Walk.Steady

namespace BundleManifest.Walk

/-! ## Keys -/

namespace Item

theorem key_of_directory {item : Item} (h : item.isDirectory = true) :
    item.key = item.name ++ "/" := by
  rw [key, if_pos h]

theorem key_of_file {item : Item} (h : item.isDirectory = false) : item.key = item.name := by
  rw [key, h]
  rfl

/-- The key of a directory starts no key of another name. -/
theorem name_eq_of_prefix_key {a b : Item} (ha : a.isDirectory = true)
    (hb : CodePoint.ofChar '/' ∉ b.name) (h : a.key <+: b.key) : a.name = b.name := by
  rw [key_of_directory ha] at h
  obtain ⟨rest, hrest⟩ := h
  have hkey : b.key = b.name ∨ b.key = b.name ++ "/" := by
    cases hd : b.isDirectory with
    | true => exact Or.inr (key_of_directory hd)
    | false => exact Or.inl (key_of_file hd)
  rcases hkey with hkey | hkey
  · rw [hkey] at hrest
    exact absurd (hrest ▸ by simp [Text.ofString]) hb
  · rw [hkey] at hrest
    rcases List.eq_nil_or_concat' rest with rfl | ⟨front, last, rfl⟩
    · rw [List.append_nil] at hrest
      exact List.append_cancel_right hrest
    · -- the last code point is the slash of `b`, so the slash of `a` lies inside the name of `b`
      have hcat : (a.name ++ "/" ++ front) ++ [last] = b.name ++ [CodePoint.ofChar '/'] := by
        rw [← List.append_assoc] at hrest
        exact hrest
      have hname := List.append_inj_left' hcat rfl
      exact absurd (hname ▸ by simp [Text.ofString]) hb

theorem name_eq_of_key_eq {a b : Item} (ha : CodePoint.ofChar '/' ∉ a.name)
    (hb : CodePoint.ofChar '/' ∉ b.name) (h : a.key = b.key) : a.name = b.name := by
  cases hda : a.isDirectory with
  | true => exact name_eq_of_prefix_key hda hb (h ▸ List.prefix_rfl)
  | false =>
    cases hdb : b.isDirectory with
    | true => exact (name_eq_of_prefix_key hdb ha (h ▸ List.prefix_rfl)).symm
    | false => rw [← key_of_file hda, h, key_of_file hdb]

/-- A path that an item of a directory can give: below a directory, or the file itself. -/
def Owns (leading : Text) (item : Item) (path : Text) : Prop :=
  ∃ rest, path = leading ++ (item.key ++ rest) ∧ (item.isDirectory = false → rest = [])

/-- The paths that two items give are ordered like their keys. -/
theorem Owns.lt {leading x y : Text} {a b : Item} (hslash : CodePoint.ofChar '/' ∉ b.name)
    (hname : a.name ≠ b.name) (hkey : a.key < b.key) (ha : a.Owns leading x)
    (hb : b.Owns leading y) : x < y := by
  obtain ⟨restA, rfl, hfile⟩ := ha
  obtain ⟨restB, rfl, -⟩ := hb
  refine List.append_left_lt ?_
  by_cases hpre : a.key <+: b.key
  · have hd : a.isDirectory = false := by
      rw [Bool.eq_false_iff]
      exact fun hd => hname (name_eq_of_prefix_key hd hslash hpre)
    rw [hfile hd, List.append_nil]
    exact Text.lt_append_right hkey restB
  · exact Text.append_lt_append hkey hpre restA restB

end Item

/-! ## The items of a directory -/

/-- A directory lists each name once. -/
theorem listing_names_ne {fs : FileSystem} {entries : List (Bytes × Inode)}
    (h : (entries.map Prod.fst).Nodup) :
    (fs.listing entries).Pairwise fun a b => a.name ≠ b.name := by
  have hne : entries.Pairwise fun e f => e.1 ≠ f.1 := List.pairwise_map.mp h
  refine hne.filterMap _ ?_
  rintro ⟨name, i⟩ ⟨other, j⟩ hdiff a ha b hb
  obtain ⟨-, -, rfl⟩ := Option.map_eq_some_iff.mp ha
  obtain ⟨-, -, rfl⟩ := Option.map_eq_some_iff.mp hb
  exact fun heq => hdiff (Utf8.decode_injective heq)

theorem itemsOf_names_ne {fs : FileSystem} {followLinks : Bool} {directory : Text}
    {listed : List DirectoryEntry} (h : listed.Pairwise fun a b => a.name ≠ b.name) :
    (itemsOf fs followLinks directory listed).Pairwise fun a b => a.name ≠ b.name := by
  have hperm : (itemsOf fs followLinks directory listed).Perm
      (visitable (listed.map (sight fs followLinks directory))) := List.mergeSort_perm _ _
  rw [hperm.pairwise_iff fun hab => Ne.symm hab]
  unfold visitable
  rw [List.filterMap_map]
  refine h.filterMap _ ?_
  intro entry other hdiff a ha b hb
  simp only [Function.comp_apply] at ha hb
  split at ha
  · next i hi =>
    split at hb
    · next j hj =>
      rw [← Option.some.inj ha, ← Option.some.inj hb, (sight_eq_item hi).1, (sight_eq_item hj).1]
      exact hdiff
    · cases hb
  · cases ha

theorem itemsOf_keys_le (fs : FileSystem) (followLinks : Bool) (directory : Text)
    (listed : List DirectoryEntry) :
    (itemsOf fs followLinks directory listed).Pairwise fun a b => Text.le a.key b.key = true := by
  refine List.pairwise_mergeSort ?_ ?_ _
  · exact fun a b c => Text.le_trans
  · intro a b
    rw [Bool.or_eq_true]
    exact Text.le_total a.key b.key

theorem slash_not_mem_of_mem_itemsOf {fs : FileSystem} (hfs : fs.Sound) {d : Inode}
    {entries : List (Bytes × Inode)} (hentries : fs.entries? d = some entries)
    {followLinks : Bool} {directory : Text} {item : Item}
    (h : item ∈ itemsOf fs followLinks directory (fs.listing entries)) :
    CodePoint.ofChar '/' ∉ item.name := by
  obtain ⟨name, hlegal, hname⟩ := legal_of_mem_itemsOf hfs hentries h
  rw [hname]
  exact hlegal.slash_not_mem_decode

/-- No two items of a directory have the same key. -/
theorem eq_of_keys_le {fs : FileSystem} (hfs : fs.Sound) {d : Inode}
    {entries : List (Bytes × Inode)} (hentries : fs.entries? d = some entries)
    {followLinks : Bool} {directory : Text} {a b : Item}
    (ha : a ∈ itemsOf fs followLinks directory (fs.listing entries))
    (hb : b ∈ itemsOf fs followLinks directory (fs.listing entries))
    (hab : Text.le a.key b.key = true) (hba : Text.le b.key a.key = true) : a = b := by
  have hnames : (itemsOf fs followLinks directory (fs.listing entries)).Pairwise
      fun a b => a.name ≠ b.name :=
    itemsOf_names_ne (listing_names_ne (hfs.entries hentries).2)
  apply List.inj_on_of_nodup_map (List.pairwise_map.mpr hnames) ha hb
  apply Item.name_eq_of_key_eq
  · exact slash_not_mem_of_mem_itemsOf hfs hentries ha
  · exact slash_not_mem_of_mem_itemsOf hfs hentries hb
  · exact Text.le_antisymm hab hba

/-- Items come in the order of the paths that they give. -/
theorem itemsOf_ordered {fs : FileSystem} (hfs : fs.Sound) (followLinks : Bool) {path : Text}
    {listed : List DirectoryEntry} (hscan : fs.scan path = .ok listed) (leading : Text) :
    (itemsOf fs followLinks path listed).Pairwise fun a b =>
      ∀ x y, a.Owns leading x → b.Owns leading y → x < y := by
  obtain ⟨d, entries, -, hentries, rfl⟩ := FileSystem.scan_eq_ok_iff.mp hscan
  have hslash (item : Item) (hitem : item ∈ itemsOf fs followLinks path (fs.listing entries)) :
      CodePoint.ofChar '/' ∉ item.name := slash_not_mem_of_mem_itemsOf hfs hentries hitem
  have hboth := (itemsOf_keys_le fs followLinks path (fs.listing entries)).and
    (itemsOf_names_ne (listing_names_ne (hfs.entries hentries).2))
  refine hboth.imp_of_mem ?_
  intro a b hma hmb hab x y hx hy
  have hkey : a.key < b.key := Text.lt_of_le_of_ne hab.1 fun heq =>
    hab.2 (Item.name_eq_of_key_eq (hslash a hma) (hslash b hmb) heq)
  exact hx.lt (hslash b hmb) hab.2 hkey hy

/-! ## The files of a run -/

theorem files_handOut (receive : Receiver) (path : Text) (s : State) :
    (handOut receive path s).files = [path] := rfl

theorem files_opening (followLinks : Bool) (path : Text) (d : Inode) (via : Bool)
    (listed : List DirectoryEntry) (s : State) :
    (opening followLinks path d via listed s).files = [] := by
  rw [opening, Run.files, List.filterMap_cons]
  exact filterMap_reported (fun _ => rfl) _

/-- Where things come in the order of the files that they give, so do the files. -/
theorem Run.files_each {α : Type} {P : State → Prop} {f : α → State → Run}
    {owns : α → Text → Prop} {as : List α}
    (hf : ∀ a ∈ as, ∀ s, P s → (f a s).GoesOn P)
    (hsorted : ∀ a ∈ as, ∀ s, P s →
      (f a s).files.Pairwise (· < ·) ∧ ∀ x ∈ (f a s).files, owns a x)
    (horder : as.Pairwise fun a b => ∀ x y, owns a x → owns b y → x < y) {s : State}
    (hs : P s) :
    (each f as s).files.Pairwise (· < ·) ∧ ∀ x ∈ (each f as s).files, ∃ a ∈ as, owns a x := by
  induction as generalizing s with
  | nil => simp [each]
  | cons a as ih =>
    have hgo := hf a List.mem_cons_self s hs
    obtain ⟨hfirst, howns⟩ := hsorted a List.mem_cons_self s hs
    rw [List.pairwise_cons] at horder
    obtain ⟨hrest, howned⟩ := ih (fun b hb => hf b (List.mem_cons_of_mem a hb))
      (fun b hb => hsorted b (List.mem_cons_of_mem a hb)) horder.2 hgo.state
    rw [each, files_andThen, hgo.halt]
    simp only [Option.isNone_none, if_true]
    constructor
    · -- what comes later is owned by later things
      rw [List.pairwise_append]
      refine ⟨hfirst, hrest, ?_⟩
      intro x hx y hy
      obtain ⟨b, hb, hby⟩ := howned y hy
      exact horder.1 b hb x y (howns x hx) hby
    · intro x hx
      rcases List.mem_append.mp hx with hx | hx
      · exact ⟨a, List.mem_cons_self, howns x hx⟩
      · obtain ⟨b, hb, hbx⟩ := howned x hx
        exact ⟨b, List.mem_cons_of_mem a hb, hbx⟩

/-! ## Walks -/

section
variable {W : World → Prop} {receive : Receiver} (hW : Steady W receive)
include hW

omit hW in
/-- Visiting an item hands out files in order, all of them under the path of the item, if entering
does. -/
theorem files_visit {enter : Text → Text → Inode → Bool → State → Run} {path : Text} (leading : Text)
    {item : Item} (hask : (entryPath path item.name).Askable)
    (henter : ∀ i s, W s.world →
      (enter (entryPath path item.name) (leading ++ item.name ++ "/") i item.isLink
        s).files.Pairwise (· < ·) ∧
      ∀ x ∈ (enter (entryPath path item.name) (leading ++ item.name ++ "/") i item.isLink s).files,
        (leading ++ item.name ++ "/" : Text) <+: x) {t : State} (ht : W t.world) :
    (visit receive enter path leading item t).files.Pairwise (· < ·) ∧
      ∀ x ∈ (visit receive enter path leading item t).files, item.Owns leading x := by
  cases hd : item.isDirectory with
  | false =>
    rw [visit_of_file receive enter leading hd, files_handOut]
    refine ⟨List.pairwise_singleton _ _, fun x hx => ⟨[], ?_, fun _ => rfl⟩⟩
    rw [List.mem_singleton.mp hx, List.append_nil, Item.key_of_file hd]
  | true =>
    rcases visit_of_directory receive enter leading hd hask t with
      ⟨_, -, heq⟩ | ⟨_, -, -, -, heq⟩ | ⟨i, -, -, heq⟩
    · -- the item is gone
      rw [heq]
      simp
    · -- the item is a link to a directory that is known
      rw [heq]
      simp
    · rw [heq]
      obtain ⟨hsorted, hbelow⟩ := henter i { t with visited := i :: t.visited } ht
      refine ⟨hsorted, fun x hx => ?_⟩
      obtain ⟨rest, rfl⟩ := hbelow x hx
      refine ⟨rest, ?_, fun hfile => by rw [hd] at hfile; cases hfile⟩
      rw [Item.key_of_directory hd, List.append_assoc, List.append_assoc, List.append_assoc]

/-- Below a directory files come in order, and their paths start as the path of the directory. -/
theorem Steady.files_enter (options : Options) (depth : Nat) {path leading : Text} {d : Inode}
    {via : Bool} {s : State} (hpath : path.Askable) (hs : W s.world) :
    (enter options receive depth path leading d via s).files.Pairwise (· < ·) ∧
      ∀ x ∈ (enter options receive depth path leading d via s).files, leading <+: x := by
  induction depth generalizing path leading d via s with
  | zero => simp [enter]
  | succ depth ih =>
    cases hscan : s.world.files.scan path with
    | error e =>
      obtain ⟨fault, rfl⟩ := FileSystem.scan_error_of_askable hpath hscan
      rw [hW.enter_of_scan_error options depth hs hscan]
      simp
    | ok listed =>
      rw [hW.enter_of_scan options depth hs hpath hscan, Run.files_andThen, files_opening]
      simp only [List.nil_append]
      have hask {item : Item}
          (hitem : item ∈ itemsOf s.world.files options.followLinks path listed) :
          (entryPath path item.name).Askable := hW.askable_item hs hpath hscan hitem
      have horder := itemsOf_ordered (hW.sound hs) options.followLinks hscan leading
      obtain ⟨hsorted, howned⟩ := Run.files_each
        (fun item hitem => hW.goesOn_visit options depth (hask hitem))
        (fun item hitem t => files_visit leading (hask hitem) fun i s hs => ih (hask hitem) hs)
        horder hs
      refine ⟨hsorted, fun x hx => ?_⟩
      obtain ⟨item, -, rest, rfl, -⟩ := howned x hx
      exact List.prefix_append _ _

/-- The files of a walk come in order. -/
theorem Steady.files_traverse (options : Options) (root : Path) {world : World} (hworld : W world) :
    (traverse options receive root world).files.Pairwise (· < ·) := by
  unfold traverse
  extract_lets start
  split
  · simp
  · simp
  · next i hstat =>
    exact (hW.files_enter options depthLimit (FileSystem.askable_of_stat hstat) hworld).1

/-- A walk comes to its end exactly when its root can be asked for. -/
theorem Steady.halt_traverse (options : Options) (root : Path) {world : World} (hworld : W world) :
    (traverse options receive root world).halt = none ↔ root.text.Askable := by
  unfold traverse
  extract_lets start
  split
  · next fault hstat =>
    exact iff_of_true rfl ((FileSystem.stat_error_iff_askable hstat).mp ⟨fault, rfl⟩)
  · next e hfault hstat =>
    refine iff_of_false (by simp [Run.fail]) fun hask => ?_
    obtain ⟨fault, rfl⟩ := (FileSystem.stat_error_iff_askable hstat).mpr hask
    exact hfault fault rfl
  · next i hstat =>
    have hask := FileSystem.askable_of_stat hstat
    exact iff_of_true (hW.goesOn_enter options depthLimit _ _ _ _ _ hask hworld).halt hask

end

/-! ## Files that others change -/

namespace Receiver

/-- Receives every file; after the `n`-th file others make the `n`-th series of changes. -/
def amid (schedule : Nat → List FileSystem.Change) : Receiver := fun n world =>
  { world := { world with files := world.files.applyAll (schedule n) } }

end Receiver

/-- Changes by others leave a world steady. -/
theorem steady_amid (schedule : Nat → List FileSystem.Change) :
    Steady (fun world => world.files.Sound ∧ world.token.isCancelled = false)
      (Receiver.amid schedule) where
  sound h := h.1
  token h := h.2
  received n h := ⟨FileSystem.sound_applyAll h.1 (schedule n), h.2⟩
  wanted _ _ := rfl

/-- Names that sort on both sides of the slash, and a link from a directory to the one above. -/
def crossing : FileSystem :=
  FileSystem.empty.applyAll
    [.makeDirectory "x", .write "x/f" [], .write "x/g" [], .write "x-y" [], .write "x0" [],
      .makeLink "x/up" [0x2E, 0x2E]]

/-- After the first file the directory is replaced by the last file. -/
def replacement (n : Nat) : List FileSystem.Change :=
  if n = 1 then [.remove "x", .rename "x0" "x"] else []

set_option maxRecDepth 2000 in
example : (traverse {} (Receiver.amid replacement) ⟨.here, []⟩ ⟨crossing, {}⟩).files
    = [("x-y" : Text), ("x0" : Text)] := by
  cbv

end BundleManifest.Walk
