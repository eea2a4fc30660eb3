/-
# BundleManifest.Proofs.Walk.Cycles — where a path may pass through a directory again

Nothing changes during the walk. A `Trail` is the way down to a file that a walk hands out: some of
its steps go to a directory in the directory, the others through a link, and then to a directory that
the way has not passed before. So no link leads back to where the way has been. Real directories are
always entered, though, and a link may lead above one of them: then the way comes to it once more, by
real steps below the link. `cycles_close_below_links` says that there is no other way to come to a
directory twice.
-/
import BundleManifest.Proofs.Walk.Coverage
import BundleManifest.Proofs.Walk.Termination

namespace BundleManifest

namespace FileSystem

/-- A name in the directory at a path is a symbolic link. -/
def LinkAt (fs : FileSystem) (path : Text) (name : Bytes) : Prop :=
  ∃ d c, fs.stat path = .ok d ∧ fs.Holds d name c ∧ fs.kind? c = some .link

end FileSystem

namespace Walk

open FileSystem (Below Holds LinkAt)

/-! ## The way to a file -/

/-- A way down from a directory to a file, under some names, when some directories have been passed.
It goes into directories, and through links to directories that have not been passed. -/
inductive Trail (fs : FileSystem) : List Inode → Text → Inode → List Bytes → Prop
  | file {passed : List Inode} {path : Text} {d c : Inode} {name : Bytes}
      (h : fs.Holds d name c) : Trail fs passed path d [name]
  | real {passed : List Inode} {path : Text} {d e : Inode} {name : Bytes} {names : List Bytes}
      (h : fs.Holds d name e) (hkind : fs.kind? e = some .directory)
      (hstat : fs.stat (entryPath path (Utf8.decode name)) = .ok e)
      (hrest : Trail fs (e :: passed) (entryPath path (Utf8.decode name)) e names) :
      Trail fs passed path d (name :: names)
  | link {passed : List Inode} {path : Text} {d c e : Inode} {name : Bytes} {names : List Bytes}
      (h : fs.Holds d name c) (hlink : fs.kind? c = some .link) (hnew : e ∉ passed)
      (hstat : fs.stat (entryPath path (Utf8.decode name)) = .ok e)
      (hrest : Trail fs (e :: passed) (entryPath path (Utf8.decode name)) e names) :
      Trail fs passed path d (name :: names)

namespace Trail

variable {fs : FileSystem} {passed : List Inode} {path : Text} {d : Inode} {names : List Bytes}

theorem ne_nil (h : Trail fs passed path d names) : names ≠ [] := by
  cases h <;> simp

theorem kind (h : Trail fs passed path d names) : fs.kind? d = some .directory := by
  cases h with
  | file h => exact h.kind
  | real h => exact h.kind
  | link h => exact h.kind

theorem legal (hfs : fs.Sound) (h : Trail fs passed path d names) :
    ∀ name ∈ names, LegalName name := by
  induction h with
  | file h =>
    intro name hname
    rw [List.mem_singleton] at hname
    exact hname ▸ h.legal hfs
  | real h _ _ _ ih =>
    intro name hname
    rcases List.mem_cons.mp hname with rfl | hname
    · exact h.legal hfs
    · exact ih name hname
  | link h _ _ _ _ ih =>
    intro name hname
    rcases List.mem_cons.mp hname with rfl | hname
    · exact h.legal hfs
    · exact ih name hname

/-- The rest of a way is a way, and all the directories before it count as passed. -/
theorem rest {before after : List Bytes} (h : Trail fs passed path d (before ++ after))
    (hafter : after ≠ []) (hstat : fs.stat path = .ok d) (hd : d ∈ passed) :
    ∃ e passed', fs.stat (pathAlong path before) = .ok e ∧ e ∈ passed' ∧
      Trail fs passed' (pathAlong path before) e after ∧ passed ⊆ passed' ∧
      ∀ earlier, earlier <+: before → ∀ i, fs.stat (pathAlong path earlier) = .ok i →
        i ∈ passed' := by
  induction before generalizing passed path d with
  | nil =>
    refine ⟨d, passed, hstat, hd, h, List.Subset.refl _, ?_⟩
    intro earlier hearlier i hi
    rw [List.prefix_nil.mp hearlier] at hi
    cases hstat.symm.trans hi
    exact hd
  | cons name before ih =>
    -- the first step leads to a directory, which is passed then
    obtain ⟨e, hnext, hrest⟩ : ∃ e, fs.stat (entryPath path (Utf8.decode name)) = .ok e ∧
        Trail fs (e :: passed) (entryPath path (Utf8.decode name)) e (before ++ after) := by
      cases hnames : before ++ after with
      | nil => exact absurd (List.append_eq_nil_iff.mp hnames).2 hafter
      | cons other others =>
        rw [List.cons_append, hnames] at h
        cases h with
        | real _ _ hnext hrest => exact ⟨_, hnext, hrest⟩
        | link _ _ _ hnext hrest => exact ⟨_, hnext, hrest⟩
    obtain ⟨last, passed', hlast, hmem, htrail, hsubset, hearlier⟩ :=
      ih hrest hnext List.mem_cons_self
    have hkept : passed ⊆ passed' := fun i hi => hsubset (List.mem_cons_of_mem e hi)
    refine ⟨last, passed', hlast, hmem, htrail, hkept, ?_⟩
    intro earlier hprefix i hi
    cases earlier with
    | nil =>
      cases hstat.symm.trans hi
      exact hkept hd
    | cons other earlier =>
      obtain ⟨rfl, htail⟩ := List.cons_prefix_cons.mp hprefix
      exact hearlier earlier htail i hi

/-- A link on the way leads to no directory that the way has passed. -/
theorem link_not_passed (hfs : fs.Sound) {before after : List Bytes} {link : Bytes}
    (h : Trail fs passed path d (before ++ link :: after)) (hafter : after ≠ [])
    (hstat : fs.stat path = .ok d) (hd : d ∈ passed) (hlink : fs.LinkAt (pathAlong path before) link)
    {earlier : List Bytes} (hearlier : earlier <+: before) :
    fs.stat (pathAlong path earlier) ≠ fs.stat (pathAlong path (before ++ [link])) := by
  obtain ⟨e, passed', he, -, htrail, -, hpassed⟩ := h.rest (List.cons_ne_nil _ _) hstat hd
  obtain ⟨e', c, he', hc, hkind⟩ := hlink
  cases he.symm.trans he'
  have hpath : pathAlong path (before ++ [link])
      = entryPath (pathAlong path before) (Utf8.decode link) := List.foldl_concat ..
  rw [hpath]
  cases htrail with
  | file _ => exact absurd rfl hafter
  | real hreal hdirectory _ _ =>
    rw [hreal.eq hfs hc, hkind] at hdirectory
    cases hdirectory
  | link _ _ hnew hnext _ =>
    rw [hnext]
    exact fun heq => hnew (hpassed earlier hearlier _ heq)

/-- A part of a way goes down real directories, or there is a last link in it. -/
theorem below_or_last_link {between after : List Bytes} {e : Inode}
    (h : Trail fs passed path d (between ++ after)) (hbetween : between ≠ []) (hafter : after ≠ [])
    (hstat : fs.stat path = .ok d) (he : fs.stat (pathAlong path between) = .ok e) :
    fs.Below d between e ∨
      ∃ up link down c, between = up ++ link :: down ∧ fs.LinkAt (pathAlong path up) link ∧
        fs.stat (pathAlong path (up ++ [link])) = .ok c ∧
        (down = [] ∧ c = e ∨ fs.Below c down e) := by
  induction between generalizing passed path d with
  | nil => exact absurd rfl hbetween
  | cons name between ih =>
    rw [List.cons_append] at h
    -- what comes after the first step, if that is not all
    have hlater {f : Inode} (hf : fs.stat (entryPath path (Utf8.decode name)) = .ok f)
        (hrest : Trail fs (f :: passed) (entryPath path (Utf8.decode name)) f (between ++ after)) :
        (between = [] ∧ f = e ∨ fs.Below f between e) ∨
          ∃ up link down c, name :: between = up ++ link :: down ∧
            fs.LinkAt (pathAlong path up) link ∧
            fs.stat (pathAlong path (up ++ [link])) = .ok c ∧
            (down = [] ∧ c = e ∨ fs.Below c down e) := by
      cases between with
      | nil =>
        cases hf.symm.trans he
        exact Or.inl (Or.inl ⟨rfl, rfl⟩)
      | cons other between =>
        rcases ih hrest (List.cons_ne_nil _ _) hf he with
          hbelow | ⟨up, link, down, c, heq, hlink, hc, hdown⟩
        · exact Or.inl (Or.inr hbelow)
        · exact Or.inr ⟨name :: up, link, down, c, by rw [heq, List.cons_append], hlink, hc, hdown⟩
    cases hnames : between ++ after with
    | nil => exact absurd (List.append_eq_nil_iff.mp hnames).2 hafter
    | cons other others =>
      rw [hnames] at h hlater
      cases h with
      | real h _ hf hrest =>
        rcases hlater hf hrest with (⟨rfl, rfl⟩ | hbelow) | hlast
        · exact Or.inl (Below.entry h)
        · exact Or.inl (Below.deeper h hbelow)
        · exact Or.inr hlast
      | link h hkind _ hf hrest =>
        rcases hlater hf hrest with hdown | hlast
        · exact Or.inr ⟨[], name, between, _, rfl, ⟨d, _, hstat, h, hkind⟩, hf, hdown⟩
        · exact Or.inr hlast

end Trail

/-! ## The ways of a walk -/

/-- An item is an entry of its directory, and a link if the entry is one. -/
theorem holds_of_mem_itemsOf {fs : FileSystem} {followLinks : Bool} {path : Text} {d : Inode}
    {entries : List (Bytes × Inode)} (hentries : fs.entries? d = some entries) {item : Item}
    (hitem : item ∈ itemsOf fs followLinks path (fs.listing entries)) :
    ∃ name c, fs.Holds d name c ∧ item.name = Utf8.decode name ∧
      (item.isLink = true → fs.kind? c = some .link) := by
  obtain ⟨entry, hentry, hsight⟩ := mem_itemsOf.mp hitem
  obtain ⟨name, c, hmem, hname, hkind⟩ := mem_listing.mp hentry
  obtain ⟨heq, hcases⟩ := sight_eq_item hsight
  refine ⟨name, c, ⟨entries, hentries, hmem⟩, heq.trans hname, fun hlink => ?_⟩
  rcases hcases with ⟨-, -, hreal⟩ | ⟨-, -, hreal⟩ | ⟨-, hk, -, -⟩
  · rw [hlink] at hreal
    cases hreal
  · rw [hlink] at hreal
    cases hreal
  · exact hk ▸ hkind

section
variable {fs : FileSystem} (hfs : fs.Sound) {token : CancellationToken}
include hfs

/-- Where entering goes ways, visiting does. -/
theorem exists_trail_of_visit {enter : Text → Text → Inode → Bool → State → Run}
    {followLinks : Bool} {passed : List Inode} {path leading : Text} {d : Inode}
    {entries : List (Bytes × Inode)} (hstat : fs.stat path = .ok d)
    (hentries : fs.entries? d = some entries) {item : Item}
    (hitem : item ∈ itemsOf fs followLinks path (fs.listing entries)) {t : State}
    (ht : t.world = ⟨fs, token⟩) (hpassed : passed ⊆ t.visited)
    (henter : ∀ i s, s.world = ⟨fs, token⟩ → fs.stat (entryPath path item.name) = .ok i →
      i :: passed ⊆ s.visited → ∀ x,
      x ∈ (enter (entryPath path item.name) (leading ++ item.name ++ "/") i item.isLink s).files →
        ∃ names, x = leading ++ item.name ++ "/" ++ relativePath names ∧
          Trail fs (i :: passed) (entryPath path item.name) i names) {x : Text}
    (hx : x ∈ (visit Receiver.passive enter path leading item t).files) :
    ∃ names, x = leading ++ relativePath names ∧ Trail fs passed path d names := by
  have hask := askable_of_mem_itemsOf hfs (FileSystem.askable_of_stat hstat) hentries hitem
  obtain ⟨name, c, hholds, hname, hlink⟩ := holds_of_mem_itemsOf hentries hitem
  cases hdir : item.isDirectory with
  | false =>
    rw [visit_of_file _ _ leading hdir] at hx
    have hpath : x = leading ++ item.name := List.mem_singleton.mp hx
    exact ⟨[name], by rw [hpath, hname]; rfl, Trail.file hholds⟩
  | true =>
    rcases visit_of_directory Receiver.passive enter leading hdir hask t with
      ⟨_, -, heq⟩ | ⟨_, -, -, -, heq⟩ | ⟨i, hi, hnew, heq⟩
    · rw [heq] at hx
      cases hx
    · rw [heq] at hx
      cases hx
    · rw [ht] at hi
      rw [heq] at hx
      obtain ⟨hkind, hreal⟩ := entered_item hfs hstat hentries hitem hdir hi
      obtain ⟨names, rfl, htrail⟩ := henter i { t with visited := i :: t.visited } ht hi
        (List.cons_subset_cons i hpassed) x hx
      rw [hname] at hi htrail
      have hpath : leading ++ item.name ++ "/" ++ relativePath names
          = leading ++ relativePath (name :: names) := by
        rw [hname, relativePath_cons name htrail.ne_nil]
        simp only [List.append_assoc]
      refine ⟨name :: names, hpath, ?_⟩
      cases hvia : item.isLink with
      | true =>
        have hfresh : i ∉ passed := fun hmem => hnew hvia (hpassed hmem)
        exact Trail.link hholds (hlink hvia) hfresh hi htrail
      | false =>
        obtain ⟨other, hother, hsame⟩ := hreal hvia
        cases Utf8.decode_injective (hname.symm.trans hsame)
        exact Trail.real hother hkind hi htrail

/-- A walk hands out what is at the end of a way. -/
theorem exists_trail_of_enter (htoken : token.isCancelled = false) (options : Options)
    {depth : Nat} {path leading : Text} {d : Inode} {via : Bool} {s : State}
    (hs : s.world = ⟨fs, token⟩) (hstat : fs.stat path = .ok d)
    {passed : List Inode} (hpassed : passed ⊆ s.visited) {x : Text}
    (hx : x ∈ (enter options Receiver.passive depth path leading d via s).files) :
    ∃ names, x = leading ++ relativePath names ∧ Trail fs passed path d names := by
  induction depth generalizing path leading d via s passed x with
  | zero => cases hx
  | succ depth ih =>
    cases hentries : fs.entries? d with
    | none =>
      rw [enter_of_entries_none hfs htoken options depth hs hstat hentries] at hx
      cases hx
    | some entries =>
      have hask {item : Item}
          (hitem : item ∈ itemsOf fs options.followLinks path (fs.listing entries)) :
          (entryPath path item.name).Askable :=
        askable_of_mem_itemsOf hfs (FileSystem.askable_of_stat hstat) hentries hitem
      -- a walk forgets no directory that it has entered
      have hgo : ∀ item ∈ itemsOf fs options.followLinks path (fs.listing entries), ∀ t,
          (t.world = ⟨fs, token⟩ ∧ passed ⊆ t.visited) →
          (visit Receiver.passive (enter options Receiver.passive depth) path leading item t).GoesOn
            fun u => u.world = ⟨fs, token⟩ ∧ passed ⊆ u.visited := by
        intro item hitem t ht
        have hstill := goesOn_visit_still hfs htoken options depth leading (hask hitem) t ht.1
        have honce := linksOnce_visit hfs htoken options depth leading (hask hitem) ht.1
        exact ⟨hstill.halt, hstill.state, List.Subset.trans ht.2 honce.kept⟩
      rw [enter_of_entries hfs htoken options depth hs hstat hentries, Run.files_andThen, files_opening,
        List.nil_append, halt_opening, state_opening] at hx
      obtain ⟨item, hitem, t, ⟨ht, hkept⟩, hmem⟩ :=
        Run.exists_of_mem_files_each hgo ⟨hs, hpassed⟩ hx
      refine exists_trail_of_visit hfs hstat hentries hitem ht hkept ?_ hmem
      intro i u hu hi hsubset y hy
      exact ih hu hi hsubset hy

/-- Every file that a walk hands out before it is cancelled has a way down from the root. -/
theorem exists_trail (htoken : token.isCancelled = false) (options : Options) (root : Path)
    {x : Text} (hx : x ∈ (traverse options Receiver.passive root ⟨fs, token⟩).files) :
    ∃ d names, fs.stat root.text = .ok d ∧ x = relativePath names ∧
      Trail fs [d] root.text d names := by
  cases hstat : fs.stat root.text with
  | error e =>
    unfold traverse at hx
    rw [hstat] at hx
    cases e <;> cases hx
  | ok d =>
    rw [traverse_of_stat options hstat] at hx
    obtain ⟨names, hnames, htrail⟩ := exists_trail_of_enter hfs htoken options
      (s := ⟨⟨fs, token⟩, [d], 0⟩) rfl hstat (List.Subset.refl _) hx
    exact ⟨d, names, rfl, hnames, htrail⟩

end

/-- Every file that a walk hands out has a way down from the root. -/
theorem exists_trail_of_traverse {fs : FileSystem} (hfs : fs.Sound) (options : Options) (root : Path)
    {x : Text} (hx : x ∈ (traverse options Receiver.passive root ⟨fs, {}⟩).files) :
    ∃ d names, fs.stat root.text = .ok d ∧ x = relativePath names ∧
      Trail fs [d] root.text d names :=
  exists_trail hfs rfl options root hx

/-- The path of a file that a walk hands out passes through directories. A link on it leads to none
that it has passed, the root included. Where it passes through a directory twice, there is a link in
between, and the directory lies below the one that the link leads to, with no link on the way down. -/
theorem cycles_close_below_links {fs : FileSystem} (hfs : fs.Sound) (htree : fs.Tree)
    (options : Options) (root : Path) :
    ∀ x ∈ (traverse options Receiver.passive root ⟨fs, {}⟩).files,
      ∃ names, names ≠ [] ∧ (∀ name ∈ names, LegalName name) ∧ x = relativePath names ∧
        (∀ before after, names = before ++ after → after ≠ [] →
          ∃ d, fs.stat (pathAlong root.text before) = .ok d ∧ fs.kind? d = some .directory) ∧
        (∀ before link after, names = before ++ link :: after → after ≠ [] →
          fs.LinkAt (pathAlong root.text before) link → ∀ earlier, earlier <+: before →
          fs.stat (pathAlong root.text earlier)
            ≠ fs.stat (pathAlong root.text (before ++ [link]))) ∧
        (∀ before between after d, names = before ++ between ++ after → between ≠ [] →
          after ≠ [] → fs.stat (pathAlong root.text before) = .ok d →
          fs.stat (pathAlong root.text (before ++ between)) = .ok d →
          ∃ up link down c, between = up ++ link :: down ∧
            fs.LinkAt (pathAlong root.text (before ++ up)) link ∧
            fs.stat (pathAlong root.text (before ++ up ++ [link])) = .ok c ∧
            fs.Below c down d) := by
  intro x hx
  obtain ⟨d, names, hstat, hnames, htrail⟩ := exists_trail_of_traverse hfs options root hx
  have hself : d ∈ [d] := List.mem_singleton_self d
  have hnew : ∀ before link after, names = before ++ link :: after → after ≠ [] →
      fs.LinkAt (pathAlong root.text before) link → ∀ earlier, earlier <+: before →
      fs.stat (pathAlong root.text earlier) ≠ fs.stat (pathAlong root.text (before ++ [link])) := by
    intro before link after heq hafter hlink earlier hearlier
    rw [heq] at htrail
    exact htrail.link_not_passed hfs hafter hstat hself hlink hearlier
  refine ⟨names, htrail.ne_nil, htrail.legal hfs, hnames, ?_, hnew, ?_⟩
  · intro before after heq hafter
    rw [heq] at htrail
    obtain ⟨e, _, he, -, hrest, -⟩ := htrail.rest hafter hstat hself
    exact ⟨e, he, hrest.kind⟩
  · intro before between after e heq hbetween hafter hfirst hagain
    have hmore : between ++ after ≠ [] := by simp [hafter]
    have hwhole := htrail
    rw [heq, List.append_assoc] at hwhole
    obtain ⟨e', passed, he', -, hrest, -⟩ := hwhole.rest hmore hstat hself
    cases hfirst.symm.trans he'
    have hpath (more : List Bytes) : pathAlong root.text (before ++ more)
        = pathAlong (pathAlong root.text before) more := List.foldl_append ..
    rw [hpath] at hagain
    rcases hrest.below_or_last_link hbetween hafter hfirst hagain with
      hbelow | ⟨up, link, down, c, hsplit, hlink, hc, hdown⟩
    · -- no directory lies below itself
      exact absurd (hbelow.transGen hbelow.kind) (htree.not_below_itself e)
    · rw [← hpath] at hlink
      rw [← hpath, ← List.append_assoc] at hc
      rcases hdown with ⟨rfl, rfl⟩ | hbelow
      · -- the link itself would lead back
        have hsame := hnew (before ++ up) link after (by rw [heq, hsplit]; simp) hafter hlink before
          (List.prefix_append _ _)
        exact absurd (hfirst.trans hc.symm) hsame
      · exact ⟨up, link, down, c, hsplit, hlink, hc, hbelow⟩

/-- A directory with a file in another directory, and in the inner one a link up. -/
def spiral : FileSystem :=
  FileSystem.empty.applyAll
    [.makeDirectory "a", .makeDirectory "a/b", .write "a/b/f" [], .makeLink "a/b/up" [0x2E, 0x2E]]

theorem tree_spiral : spiral.Tree := FileSystem.tree_made _

theorem cycles_close_below_links_spiral :
    spiral.Sound ∧ spiral.Tree ∧
      let root : Path := ⟨.here, ["a", "b"]⟩
      ∀ x ∈ (traverse {} Receiver.passive root ⟨spiral, {}⟩).files,
        ∃ names, names ≠ [] ∧ (∀ name ∈ names, LegalName name) ∧ x = relativePath names ∧
          (∀ before after, names = before ++ after → after ≠ [] →
            ∃ d, spiral.stat (pathAlong root.text before) = .ok d ∧
              spiral.kind? d = some .directory) ∧
          (∀ before link after, names = before ++ link :: after → after ≠ [] →
            spiral.LinkAt (pathAlong root.text before) link → ∀ earlier, earlier <+: before →
            spiral.stat (pathAlong root.text earlier)
              ≠ spiral.stat (pathAlong root.text (before ++ [link]))) ∧
          (∀ before between after d, names = before ++ between ++ after → between ≠ [] →
            after ≠ [] → spiral.stat (pathAlong root.text before) = .ok d →
            spiral.stat (pathAlong root.text (before ++ between)) = .ok d →
            ∃ up link down c, between = up ++ link :: down ∧
              spiral.LinkAt (pathAlong root.text (before ++ up)) link ∧
              spiral.stat (pathAlong root.text (before ++ up ++ [link])) = .ok c ∧
              spiral.Below c down d) :=
  ⟨by decide, tree_spiral,
    cycles_close_below_links (by decide) tree_spiral {} ⟨.here, ["a", "b"]⟩⟩

set_option maxRecDepth 4000 in
theorem files_spiral :
    (traverse {} Receiver.passive ⟨.here, ["a", "b"]⟩ ⟨spiral, {}⟩).files
      = [relativePath [[0x66]], relativePath [[0x75, 0x70], [0x62], [0x66]]] := by
  cbv

/-- From the inner directory the walk goes up through the link and into the inner directory again. -/
theorem not_every_path_passes_once :
    ¬ ∀ (fs : FileSystem) (root : Path) (names earlier later : List Bytes), fs.Sound → fs.Tree →
      relativePath names ∈ (traverse {} Receiver.passive root ⟨fs, {}⟩).files →
        earlier <+: later → later <+: names → earlier ≠ later → later ≠ names →
        fs.stat (pathAlong root.text earlier) ≠ fs.stat (pathAlong root.text later) := by
  intro h
  have hmem : relativePath [[0x75, 0x70], [0x62], [0x66]]
      ∈ (traverse {} Receiver.passive ⟨.here, ["a", "b"]⟩ ⟨spiral, {}⟩).files := by
    rw [files_spiral]
    exact List.mem_cons_of_mem _ (List.mem_singleton_self _)
  refine h spiral ⟨.here, ["a", "b"]⟩ _ [] [[0x75, 0x70], [0x62]] (by decide) tree_spiral hmem
    List.nil_prefix ⟨[[0x66]], rfl⟩ (by simp) (by simp) ?_
  decide +kernel

end Walk

end BundleManifest
