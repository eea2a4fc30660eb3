/-
# BundleManifest.Proofs.Walk.Coverage — a walk hands out every regular file below its root

Links are either not followed or absent. `relativePath` and `pathAlong` are the paths of what lies
under some names: below the root of the walk, and as the operating system is asked for it. Two
inductions over the depth say what a walk hands out while files may go: nothing but what was there
from the start (`reached_of_mem_files_enter`), and all that is in its place the whole time
(`mem_files_enter_of_below`). Every level makes the path longer, so the limit on the depth is never
met before the limit on the length of paths. Where nothing changes, both together say which files
come (`mem_files_enter`).
-/
import BundleManifest.Proofs.FileSystem.Tree
import BundleManifest.Proofs.Walk.Sorted

namespace BundleManifest.Walk

open FileSystem (Below Holds)

/-! ## Paths of names -/

/-- The path, from the root of the walk, of what lies under some names. -/
def relativePath (names : List Bytes) : Text := Text.join '/' (names.map Utf8.decode)

/-- The path under which the operating system is asked for what lies under some names. -/
def pathAlong (path : Text) (names : List Bytes) : Text :=
  names.foldl (fun above name => entryPath above (Utf8.decode name)) path

theorem relativePath_cons (name : Bytes) {names : List Bytes} (h : names ≠ []) :
    relativePath (name :: names) = Utf8.decode name ++ "/" ++ relativePath names := by
  cases names with
  | nil => exact absurd rfl h
  | cons next names =>
    rw [List.append_assoc]
    rfl

/-- The path of some names and others is that of the first ones, a slash and that of the others. -/
theorem relativePath_append {names others : List Bytes} (hnames : names ≠ []) (hothers : others ≠ []) :
    relativePath (names ++ others) = relativePath names ++ "/" ++ relativePath others := by
  induction names with
  | nil => exact absurd rfl hnames
  | cons name names ih =>
    by_cases hrest : names = []
    · subst hrest
      exact relativePath_cons name hothers
    · rw [List.cons_append, relativePath_cons name (by simp [hrest]), ih hrest,
        relativePath_cons name hrest]
      simp only [List.append_assoc]

/-- Names can be read off their path. -/
theorem relativePath_injective {fs : FileSystem} (hfs : fs.Sound) {d e i j : Inode}
    {names others : List Bytes} (hn : fs.Below d names i) (ho : fs.Below e others j)
    (h : relativePath names = relativePath others) : names = others := by
  have hpieces {d i : Inode} {names : List Bytes} (hbelow : fs.Below d names i) :
      Text.split '/' (relativePath names) = names.map Utf8.decode := by
    refine cut_glue (by simpa using hbelow.ne_nil) ?_
    intro piece hpiece
    obtain ⟨name, hname, rfl⟩ := List.mem_map.mp hpiece
    exact (hbelow.legal hfs name hname).slash_not_mem_decode
  have hdecoded : names.map Utf8.decode = others.map Utf8.decode := by
    rw [← hpieces hn, h, hpieces ho]
  exact Utf8.decode_injective.list_map hdecoded

theorem pathAlong_singleton (path : Text) (name : Bytes) :
    pathAlong path [name] = entryPath path (Utf8.decode name) :=
  rfl

theorem prefix_pathAlong (path : Text) (names : List Bytes) : path <+: pathAlong path names := by
  induction names generalizing path with
  | nil => exact List.prefix_rfl
  | cons name names ih =>
    obtain ⟨start, hstart, -, heq⟩ := entryPath_eq_append path (Utf8.decode name)
    refine List.IsPrefix.trans ?_ (ih (entryPath path (Utf8.decode name)))
    rw [heq]
    exact hstart.trans (List.prefix_append _ _)

/-! ## The files of a directory -/

/-- What several things give, one of them gives. -/
theorem Run.exists_of_mem_files_each {α : Type} {P : State → Prop} {f : α → State → Run}
    {as : List α} (hf : ∀ a ∈ as, ∀ s, P s → (f a s).GoesOn P) {s : State} (hs : P s) {x : Text}
    (hx : x ∈ (each f as s).files) : ∃ a ∈ as, ∃ t, P t ∧ x ∈ (f a t).files := by
  induction as generalizing s with
  | nil => cases hx
  | cons a as ih =>
    have hgo := hf a List.mem_cons_self s hs
    rw [each, files_andThen, hgo.halt] at hx
    rcases List.mem_append.mp hx with hx | hx
    · exact ⟨a, List.mem_cons_self, s, hs, hx⟩
    · obtain ⟨b, hb, hrest⟩ := ih (fun b hb => hf b (List.mem_cons_of_mem a hb)) hgo.state hx
      exact ⟨b, List.mem_cons_of_mem a hb, hrest⟩

/-- What one of several things gives whenever it is run, all of them together give. -/
theorem Run.mem_files_each_of {α : Type} {P : State → Prop} {f : α → State → Run} {as : List α}
    (hf : ∀ a ∈ as, ∀ s, P s → (f a s).GoesOn P) {a : α} (ha : a ∈ as) {x : Text}
    (hx : ∀ s, P s → x ∈ (f a s).files) {s : State} (hs : P s) : x ∈ (each f as s).files := by
  induction as generalizing s with
  | nil => cases ha
  | cons b as ih =>
    have hgo := hf b List.mem_cons_self s hs
    rw [each, files_andThen, hgo.halt]
    show x ∈ (f b s).files ++ (each f as (f b s).state).files
    rw [List.mem_append]
    rcases List.mem_cons.mp ha with rfl | ha
    · exact Or.inl (hx s hs)
    · exact Or.inr (ih (fun c hc => hf c (List.mem_cons_of_mem b hc)) ha hgo.state)

/-- No link below a directory is followed. -/
def NoLinks (fs : FileSystem) (followLinks : Bool) (d : Inode) : Prop :=
  followLinks = false ∨ ∀ names i, fs.Below d names i → fs.kind? i ≠ some .link

theorem NoLinks.child {fs : FileSystem} {followLinks : Bool} {d c : Inode} {name : Bytes}
    (h : NoLinks fs followLinks d) (hc : fs.Holds d name c) : NoLinks fs followLinks c := by
  rcases h with h | h
  · exact Or.inl h
  · exact Or.inr fun names i hbelow => h (name :: names) i (Below.deeper hc hbelow)

theorem NoLinks.within {gs fs : FileSystem} {followLinks : Bool} {d : Inode}
    (h : NoLinks fs followLinks d) (hwithin : gs.Within fs) : NoLinks gs followLinks d := by
  rcases h with h | h
  · exact Or.inl h
  · exact Or.inr fun names i hbelow hlink =>
      h names i (hwithin.below hbelow) (hwithin.kind? hlink)

/-- The items of a directory are the regular files and directories that it holds, and, when links are
followed, the links to either. -/
theorem mem_itemsOf_iff_holds {fs : FileSystem} {followLinks : Bool} {path : Text} {d : Inode}
    {entries : List (Bytes × Inode)} (hentries : fs.entries? d = some entries) {item : Item} :
    item ∈ itemsOf fs followLinks path (fs.listing entries) ↔
      ∃ name c, fs.Holds d name c ∧ item.name = Utf8.decode name ∧
        (item.isLink = false ∧ fs.kind? c = some item.kind ∨
         item.isLink = true ∧ followLinks = true ∧ fs.kind? c = some .link ∧
          ∃ i, fs.stat (entryPath path item.name) = .ok i ∧ fs.kind? i = some item.kind) := by
  rw [mem_itemsOf]
  constructor
  · rintro ⟨entry, hentry, hsight⟩
    obtain ⟨name, c, hmem, hname, hkind⟩ := mem_listing.mp hentry
    obtain ⟨heq, hcases⟩ := sight_eq_item_iff.mp hsight
    refine ⟨name, c, ⟨entries, hentries, hmem⟩, heq.trans hname, ?_⟩
    rcases hcases with ⟨hlink, hk⟩ | ⟨hlink, hfollow, hk, hstat⟩
    · exact Or.inl ⟨hlink, hk ▸ hkind⟩
    · exact Or.inr ⟨hlink, hfollow, hk ▸ hkind, heq ▸ hstat⟩
  · rintro ⟨name, c, ⟨listed, hlisted, hmem⟩, hname, hcases⟩
    rw [hentries] at hlisted
    cases hlisted
    rcases hcases with ⟨hlink, hkind⟩ | ⟨hlink, hfollow, hkind, hstat⟩
    · exact ⟨⟨Utf8.decode name, item.kind⟩, mem_listing.mpr ⟨name, c, hmem, rfl, hkind⟩,
        sight_eq_item_iff.mpr ⟨hname, Or.inl ⟨hlink, rfl⟩⟩⟩
    · exact ⟨⟨Utf8.decode name, .link⟩, mem_listing.mpr ⟨name, c, hmem, rfl, hkind⟩,
        sight_eq_item_iff.mpr ⟨hname, Or.inr ⟨hlink, hfollow, rfl, hname ▸ hstat⟩⟩⟩

/-- Without links, items are the regular files and directories that a directory holds. -/
theorem mem_itemsOf_iff {fs : FileSystem} {followLinks : Bool} {path : Text} {d : Inode}
    {entries : List (Bytes × Inode)} (hentries : fs.entries? d = some entries)
    (hlinks : NoLinks fs followLinks d) {item : Item} :
    item ∈ itemsOf fs followLinks path (fs.listing entries) ↔
      ∃ name i, fs.Holds d name i ∧ item.name = Utf8.decode name ∧ item.isLink = false ∧
        (fs.kind? i = some .directory ∧ item.isDirectory = true ∨
         fs.kind? i = some .regular ∧ item.isDirectory = false) := by
  rw [mem_itemsOf_iff_holds hentries]
  constructor
  · rintro ⟨name, i, hholds, hname, ⟨hlink, hkind⟩ | ⟨-, hfollow, hkind, -⟩⟩
    · refine ⟨name, i, hholds, hname, hlink, ?_⟩
      unfold Item.kind at hkind
      split at hkind
      · next hd => exact Or.inl ⟨hkind, hd⟩
      · next hd => exact Or.inr ⟨hkind, by simpa using hd⟩
    · rcases hlinks with hnone | hnone
      · rw [hnone] at hfollow
        cases hfollow
      · exact absurd hkind (hnone [name] i (Below.entry hholds))
  · rintro ⟨name, i, hholds, hname, hlink, hkind⟩
    refine ⟨name, i, hholds, hname, Or.inl ⟨hlink, ?_⟩⟩
    unfold Item.kind
    rcases hkind with ⟨hkind, hd⟩ | ⟨hkind, hd⟩
    · rw [hkind, hd]
      rfl
    · rw [hkind, hd]
      rfl

/-- The files that a walk hands out below a directory. -/
def Reached (fs : FileSystem) (path leading : Text) (d : Inode) (x : Text) : Prop :=
  ∃ names i, fs.Below d names i ∧ fs.kind? i = some .regular ∧ x = leading ++ relativePath names ∧
    (pathAlong path names.dropLast).Fits

/-- What lies below a directory is an entry or lies below one. -/
theorem reached_iff {fs : FileSystem} {path leading x : Text} {d : Inode} (hpath : path.Fits) :
    Reached fs path leading d x ↔
      ∃ name i, fs.Holds d name i ∧
        (fs.kind? i = some .regular ∧ x = leading ++ Utf8.decode name ∨
         Reached fs (entryPath path (Utf8.decode name)) (leading ++ Utf8.decode name ++ "/") i
          x) := by
  constructor
  · rintro ⟨names, i, hbelow, hkind, rfl, hfits⟩
    cases hbelow with
    | entry h => exact ⟨_, i, h, Or.inl ⟨hkind, rfl⟩⟩
    | @deeper _ e _ name names h hbelow =>
      refine ⟨name, e, h, Or.inr ⟨names, i, hbelow, hkind, ?_, ?_⟩⟩
      · rw [relativePath_cons name hbelow.ne_nil]
        simp only [List.append_assoc]
      · rw [List.dropLast_cons_of_ne_nil hbelow.ne_nil] at hfits
        exact hfits
  · rintro ⟨name, i, h, ⟨hkind, rfl⟩ | ⟨names, j, hbelow, hkind, rfl, hfits⟩⟩
    · exact ⟨[name], i, Below.entry h, hkind, rfl, hpath⟩
    · refine ⟨name :: names, j, Below.deeper h hbelow, hkind, ?_, ?_⟩
      · rw [relativePath_cons name hbelow.ne_nil]
        simp only [List.append_assoc]
      · rw [List.dropLast_cons_of_ne_nil hbelow.ne_nil]
        exact hfits

theorem Reached.fits {fs : FileSystem} {path leading x : Text} {d : Inode}
    (h : Reached fs path leading d x) : path.Fits := by
  obtain ⟨names, i, -, -, -, hfits⟩ := h
  exact hfits.of_prefix (prefix_pathAlong path names.dropLast)

theorem Reached.kind {fs : FileSystem} {path leading x : Text} {d : Inode}
    (h : Reached fs path leading d x) : fs.kind? d = some .directory := by
  obtain ⟨names, i, hbelow, -⟩ := h
  exact hbelow.kind

/-- An entry that is a regular file or a directory is an item, whatever becomes of links. -/
theorem mem_itemsOf_of_holds {fs : FileSystem} {d i : Inode} {entries : List (Bytes × Inode)}
    (hentries : fs.entries? d = some entries) {name : Bytes} (hholds : fs.Holds d name i)
    (isDirectory : Bool)
    (hkind : fs.kind? i = some (if isDirectory then .directory else .regular))
    (followLinks : Bool) (path : Text) :
    ⟨Utf8.decode name, isDirectory, false⟩ ∈ itemsOf fs followLinks path (fs.listing entries) := by
  refine (mem_itemsOf_iff_holds hentries).mpr ⟨name, i, hholds, rfl, Or.inl ⟨rfl, ?_⟩⟩
  rw [hkind]
  rfl

/-- A real directory is entered, even if it is known already. -/
theorem visit_of_real_directory (receive : Receiver)
    (enter : Text → Text → Inode → Bool → State → Run) (path leading name : Text) {i : Inode}
    {s : State} (hi : s.world.files.stat (entryPath path name) = .ok i) :
    visit receive enter path leading ⟨name, true, false⟩ s
      = enter (entryPath path name) (leading ++ name ++ "/") i false
          { s with visited := i :: s.visited } := by
  simp only [visit, hi, Bool.and_false]
  rfl

section
variable {fs : FileSystem} (hfs : fs.Sound) {W : World → Prop} {receive : Receiver}
  (hW : Steady W receive) {P : State → Prop} (hP : Lasting W receive P)
  (hwithin : ∀ {s}, P s → s.world.files.Within fs) (options : Options)
include hfs hW hP hwithin

/-- A walk through parts of a file system hands out regular files below its directory. -/
theorem reached_of_mem_files_enter {depth : Nat} {path leading : Text} {d e : Inode} {via : Bool}
    {s : State} (hs : P s) (hstat : fs.stat path = .ok e) (hlinks : NoLinks fs options.followLinks e)
    {x : Text} (hx : x ∈ (enter options receive depth path leading d via s).files) :
    Reached fs path leading e x := by
  induction depth generalizing path leading d e via s with
  | zero => cases hx
  | succ depth ih =>
    have hworld := hP.world hs
    cases hscan : s.world.files.scan path with
    | error fault =>
      obtain ⟨fault, rfl⟩ := FileSystem.scan_error_of_askable (FileSystem.askable_of_stat hstat) hscan
      rw [hW.enter_of_scan_error options depth hworld hscan] at hx
      cases hx
    | ok listed =>
      have hpath := FileSystem.askable_of_stat hstat
      rw [hW.enter_of_scan options depth hworld hpath hscan, Run.files_andThen, files_opening,
        List.nil_append, halt_opening, state_opening] at hx
      obtain ⟨item, hitem, t, ht, hgiven⟩ := Run.exists_of_mem_files_each
        (fun item hitem => hW.goesOn_visit_lasting hP options depth
          (hW.askable_item hworld hpath hscan hitem)) hs hx
      obtain ⟨e', entries, hstat', hentries, rfl⟩ := FileSystem.scan_eq_ok_iff.mp hscan
      obtain rfl := Except.ok.inj (hstat.symm.trans ((hwithin hs).stat hstat'))
      obtain ⟨name, c, hholds, hname, hlink, hkind⟩ :=
        (mem_itemsOf_iff hentries (hlinks.within (hwithin hs))).mp hitem
      have hentry := (hwithin hs).holds hholds
      rw [reached_iff (FileSystem.fits_of_stat hstat)]
      refine ⟨name, c, hentry, ?_⟩
      rcases hkind with ⟨hc, hd⟩ | ⟨hc, hfile⟩
      · have hask := hW.askable_item hworld hpath hscan hitem
        rcases visit_of_directory receive (enter options receive depth) leading hd hask t with
          ⟨_, -, heq⟩ | ⟨_, -, -, -, heq⟩ | ⟨i, hi, -, heq⟩
        · rw [heq] at hgiven
          cases hgiven
        · rw [heq] at hgiven
          cases hgiven
        · -- what the path of the item leads to now, it led to from the start
          rw [heq, hname] at hgiven
          have hi' := (hwithin ht).stat hi
          rw [hname] at hi'
          obtain rfl := hentry.eq_of_stat hfs hstat ((hwithin hs).kind? hc) hi'
          exact Or.inr (ih (hP.visited _ ht) hi' (hlinks.child hentry) hgiven)
      · rw [visit_of_file _ _ leading hfile, files_handOut, List.mem_singleton, hname] at hgiven
        exact Or.inl ⟨(hwithin hs).kind? hc, hgiven⟩

/-- A walk hands out a regular file that is in its place all the time, and so is the directory. -/
theorem mem_files_enter_of_below {depth : Nat} {path leading : Text} {d e i : Inode} {via : Bool}
    {names : List Bytes} (hstat : ∀ {s}, P s → s.world.files.stat path = .ok e)
    (hbelow : ∀ {s}, P s → s.world.files.Below e names i)
    (hkind : ∀ {s}, P s → s.world.files.kind? i = some .regular)
    (hfits : (pathAlong path names.dropLast).Fits)
    (hdepth : Route.lengthLimit < depth + path.length) {s : State} (hs : P s) :
    leading ++ relativePath names ∈ (enter options receive depth path leading d via s).files := by
  induction depth generalizing path leading d e via s names with
  | zero =>
    have hlength := Text.length_le_of_fits (FileSystem.fits_of_stat (hstat hs))
    omega
  | succ depth ih =>
    have hworld := hP.world hs
    have hpath := FileSystem.askable_of_stat (hstat hs)
    obtain ⟨entries, hentries⟩ := FileSystem.entries?_of_kind? (hbelow hs).kind
    have hscan : s.world.files.scan path = .ok (s.world.files.listing entries) :=
      FileSystem.scan_eq_ok_iff.mpr ⟨e, entries, hstat hs, hentries, rfl⟩
    rw [hW.enter_of_scan options depth hworld hpath hscan, Run.files_andThen, files_opening,
      List.nil_append, halt_opening, state_opening]
    show leading ++ relativePath names ∈ (Run.each _ _ s).files
    -- the first name on the way to the file is an item that is no link
    have hfirst := hbelow hs
    cases hfirst with
    | @entry _ _ name hholds =>
      have hitem := mem_itemsOf_of_holds hentries hholds false (hkind hs) options.followLinks path
      refine Run.mem_files_each_of (fun item h => hW.goesOn_visit_lasting hP options depth
        (hW.askable_item hworld hpath hscan h)) hitem (fun t _ => ?_) hs
      rw [visit_of_file _ _ leading rfl, files_handOut]
      exact List.mem_singleton_self _
    | @deeper _ c _ name names hholds hrest =>
      have hne := hrest.ne_nil
      have hitem := mem_itemsOf_of_holds hentries hholds true hrest.kind options.followLinks path
      rw [List.dropLast_cons_of_ne_nil hne] at hfits
      -- the directory is listed under the name all the time
      have hchild {t : State} (ht : P t) :
          t.world.files.Holds e name c ∧ t.world.files.Below c names i := by
        have hlater := hbelow ht
        cases hlater with
        | entry => exact absurd rfl hne
        | deeper hholds' hrest' =>
          cases ((hwithin hs).holds hholds).eq hfs ((hwithin ht).holds hholds')
          exact ⟨hholds', hrest'⟩
      have hlisted {t : State} (ht : P t) :
          t.world.files.stat (entryPath path (Utf8.decode name)) = .ok c :=
        (hchild ht).1.stat (hW.sound (hP.world ht)) (hstat ht) (hchild ht).2.kind
          (hfits.of_prefix (prefix_pathAlong _ _))
      have hlonger : path.length < (entryPath path (Utf8.decode name)).length :=
        length_lt_of_mem_itemsOf (hW.sound hworld) hentries hitem
      refine Run.mem_files_each_of (fun item h => hW.goesOn_visit_lasting hP options depth
        (hW.askable_item hworld hpath hscan h)) hitem (fun t ht => ?_) hs
      rw [visit_of_real_directory _ _ _ _ _ (hlisted ht), relativePath_cons name hne,
        ← List.append_assoc, ← List.append_assoc]
      exact ih hlisted (fun hu => (hchild hu).2) hfits (by omega) (hP.visited _ ht)

end

section
variable {fs : FileSystem} (hfs : fs.Sound) {token : CancellationToken}
  (htoken : token.isCancelled = false) (options : Options)
include hfs htoken

/-- Every walk hands out what is reached below a directory without links. -/
theorem mem_files_enter_of_reached {depth : Nat} {path leading : Text} {d : Inode} {via : Bool}
    {s : State} (hs : s.world = ⟨fs, token⟩) (hstat : fs.stat path = .ok d)
    (hdepth : Route.lengthLimit < depth + path.length) {x : Text}
    (hx : Reached fs path leading d x) :
    x ∈ (enter options Receiver.passive depth path leading d via s).files := by
  obtain ⟨names, i, hbelow, hkind, rfl, hfits⟩ := hx
  have hW : Steady (· = ⟨fs, token⟩) Receiver.passive := steady_passive hfs htoken
  have hsame {t : State} (ht : t.world = ⟨fs, token⟩) : fs = t.world.files := by rw [ht]
  exact mem_files_enter_of_below hfs hW hW.lasting (fun h => hsame h ▸ .refl fs) options
    (fun h => hsame h ▸ hstat) (fun h => hsame h ▸ hbelow) (fun h => hsame h ▸ hkind) hfits hdepth hs

/-- A walk hands out the regular files below a directory. -/
theorem mem_files_enter {depth : Nat} {path leading : Text} {d : Inode} {via : Bool} {s : State}
    (hs : s.world = ⟨fs, token⟩) (hstat : fs.stat path = .ok d)
    (hlinks : NoLinks fs options.followLinks d)
    (hdepth : Route.lengthLimit < depth + path.length) (x : Text) :
    x ∈ (enter options Receiver.passive depth path leading d via s).files ↔
      Reached fs path leading d x := by
  have hW : Steady (· = ⟨fs, token⟩) Receiver.passive := steady_passive hfs htoken
  constructor
  · exact reached_of_mem_files_enter hfs hW hW.lasting (fun h => h ▸ .refl fs) options hs hstat hlinks
  · exact mem_files_enter_of_reached hfs htoken options hs hstat hdepth

/-! ## The files of a walk -/

theorem mem_files_traverse (root : Path)
    (hlinks : ∀ d, fs.stat root.text = .ok d → NoLinks fs options.followLinks d) (x : Text) :
    x ∈ (traverse options Receiver.passive root ⟨fs, token⟩).files ↔
      ∃ d, fs.stat root.text = .ok d ∧ Reached fs root.text [] d x := by
  cases hstat : fs.stat root.text with
  | error e =>
    unfold traverse
    simp only [hstat]
    cases e with
    | fault fault => simp
    | embeddedNull => simp
    | unencodable u => simp
  | ok d =>
    have hfiles : x ∈ (enter options Receiver.passive depthLimit root.text [] d false
        ⟨⟨fs, token⟩, [d], 0⟩).files ↔ Reached fs root.text [] d x :=
      mem_files_enter hfs htoken options rfl hstat (hlinks d hstat) (length_lt_depthLimit root.text) x
    rw [traverse_of_stat options hstat, hfiles]
    simp

end

/-- What lies under some names is handed out if it is a regular file and the path of its directory
is not too long. -/
theorem relativePath_mem_iff {fs : FileSystem} (hfs : fs.Sound) (options : Options) {root : Path}
    {d i : Inode} {names : List Bytes} (hstat : fs.stat root.text = .ok d)
    (hlinks : NoLinks fs options.followLinks d) (hbelow : fs.Below d names i) :
    relativePath names ∈ (traverse options Receiver.passive root ⟨fs, {}⟩).files ↔
      fs.kind? i = some .regular ∧ (pathAlong root.text names.dropLast).Fits := by
  rw [mem_files_traverse hfs rfl options root fun e he => Except.ok.inj (hstat.symm.trans he) ▸ hlinks]
  constructor
  · rintro ⟨e, hstat', others, j, hbelow', hkind, hpath, hfits⟩
    rw [hstat] at hstat'
    cases hstat'
    rw [List.nil_append] at hpath
    have hnames := relativePath_injective hfs hbelow hbelow' hpath
    subst hnames
    rw [hbelow.eq hfs hbelow']
    exact ⟨hkind, hfits⟩
  · rintro ⟨hkind, hfits⟩
    exact ⟨d, hstat, names, i, hbelow, hkind, rfl, hfits⟩

/-- Two directories, one in the other, with a file in each. -/
def nested : FileSystem where
  nodes :=
    [(0, .directory 0 [([0x61], 1)]),
      (1, .directory 0 [([0x62, 0x62, 0x62, 0x62, 0x62, 0x62], 2), ([0x67], 3)]),
      (2, .directory 1 [([0x66], 4)]), (3, .regular []), (4, .regular [])]
  here := 0
  herePath := ⟨.root, []⟩

/-- A long way to the directory `a`: into it and out again, many times. -/
def roundabout : Path :=
  ⟨.here, (List.replicate 818 [("a" : Text), Text.dotdot]).flatten ++ [("a" : Text)]⟩

set_option maxRecDepth 20000 in
theorem stat_roundabout : nested.stat roundabout.text = .ok 1 := by decide +kernel

set_option maxRecDepth 20000 in
theorem length_roundabout : roundabout.text.length = 4091 := by decide +kernel

end BundleManifest.Walk
