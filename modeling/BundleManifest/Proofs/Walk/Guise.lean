/-
# BundleManifest.Proofs.Walk.Guise — walks that do not see how files are listed and numbered

An operating system gives the entries of a directory in an order of its own, which may be another one
each time, and numbers nodes as it likes. A `Guise` is such an appearance of the files, and `traverseAs`
is a walk through files that appear so; a walk of `traverse` is one through files that appear as they are
kept (`traverseAs_natural`). Walks through the same files hand out the same candidates in the same order,
whatever the guise (`mirrors_traverse`): the entries are sorted before anything is made of them, and of
the numbers only their being the same is looked at.
-/
import BundleManifest.Proofs.Walk.NormalForm

namespace BundleManifest.Walk

/-- How files appear: the order of the entries each time when a directory is listed, and the numbers of
the nodes. -/
structure Guise where
  order : State → Text → List DirectoryEntry → List DirectoryEntry
  number : Inode → Inode
  order_perm : ∀ s path listed, (order s path listed).Perm listed
  number_injective : Function.Injective number

namespace Guise

/-- Files as they are kept. -/
def natural : Guise where
  order _ _ listed := listed
  number i := i
  order_perm _ _ listed := List.Perm.refl listed
  number_injective _ _ h := h

/-- A state, as it is when the numbers of the nodes are those of the guise. -/
def dress (g : Guise) (s : State) : State := { s with visited := s.visited.map g.number }

@[simp] theorem world_dress (g : Guise) (s : State) : (g.dress s).world = s.world := rfl

/-- A node has been visited exactly if its number in the guise has been. -/
theorem contains_dress (g : Guise) (s : State) (i : Inode) :
    (g.dress s).visited.contains (g.number i) = s.visited.contains i := by
  rw [Bool.eq_iff_iff, List.contains_iff_mem, List.contains_iff_mem]
  exact List.mem_map_of_injective g.number_injective

end Guise

/-! ## Walks through files in a guise -/

/-- Visits an item, as `visit` does. -/
def visitAs (g : Guise) (receive : Receiver) (enter : Text → Text → Inode → Bool → State → Run)
    (directory leading : Text) (item : Item) (s : State) : Run :=
  let below := leading ++ item.name
  if !item.isDirectory then handOut receive below s
  else
    let path := entryPath directory item.name
    match s.world.files.stat path with
    | .error (.fault _) => Run.note (.walkEntrySkipped path vanished) s
    | .error fault => Run.fail (Failure.ofPath fault path) s
    | .ok i =>
      let number := g.number i
      if s.visited.contains number && item.isLink then Run.note (.walkLinkRevisit path) s
      else enter path (below ++ "/") number item.isLink { s with visited := number :: s.visited }

/-- Visits items one after the other, as `visitAll` does. -/
def visitAllAs (g : Guise) (options : Options) (receive : Receiver)
    (enter : Text → Text → Inode → Bool → State → Run) (directory leading : Text) :
    Nat → List Item → State → Run
  | _, [], s => Run.skip s
  | index, item :: items, s =>
    let due := index ≠ 0 && index % options.batchSize = 0
    let start := if due then checkpoint s else Run.skip s
    (start.andThen (visitAs g receive enter directory leading item)).andThen
      (visitAllAs g options receive enter directory leading (index + 1) items)

/-- Visits a directory and everything below, as `enter` does. -/
def enterAs (g : Guise) (options : Options) (receive : Receiver) :
    Nat → Text → Text → Inode → Bool → State → Run
  | 0, _, _, _, _, s => Run.skip s
  | depth + 1, path, leading, directory, throughLink, s =>
    (checkpoint s).andThen fun s =>
      match s.world.files.scan path with
      | .error (.fault fault) =>
        Run.note (.walkDirectoryUnreadable path (fault.report [path])) s
      | .error fault => Run.fail (Failure.ofPath fault path) s
      | .ok entries =>
        let sightings :=
          (g.order s path entries).map (sight s.world.files options.followLinks path)
        let start : Run :=
          ⟨.entered path directory throughLink :: reported sightings, s, refused? sightings⟩
        start.andThen
          (visitAllAs g options receive (enterAs g options receive depth) path leading 0
            (sorted (visitable sightings)))

/-- Visits every file below a root, as `traverse` does. -/
def traverseAs (g : Guise) (options : Options) (receive : Receiver) (root : Path) (world : World) :
    Run :=
  let start : State := ⟨world, [], 0⟩
  match world.files.stat root.text with
  | .error (.fault _) => Run.note (.walkRootUnreadable root.text) start
  | .error fault => Run.fail (Failure.ofPath fault root.text) start
  | .ok i =>
    enterAs g options receive depthLimit root.text [] (g.number i) false
      { start with visited := [g.number i] }

theorem visitAllAs_natural (options : Options) (receive : Receiver)
    (enter : Text → Text → Inode → Bool → State → Run) (directory leading : Text) (index : Nat)
    (items : List Item) :
    visitAllAs .natural options receive enter directory leading index items
      = visitAll options receive enter directory leading index items := by
  induction items generalizing index with
  | nil => rfl
  | cons item items ih =>
    funext s
    rw [visitAllAs, visitAll, ih (index + 1)]
    rfl

theorem enterAs_natural (options : Options) (receive : Receiver) (depth : Nat) :
    enterAs .natural options receive depth = enter options receive depth := by
  induction depth with
  | zero => rfl
  | succ depth ih =>
    funext path leading d via s
    rw [enterAs, enter, ih]
    simp only [visitAllAs_natural]
    rfl

/-- A walk is one through files as they are kept. -/
theorem traverseAs_natural (options : Options) (receive : Receiver) (root : Path) (world : World) :
    traverseAs .natural options receive root world = traverse options receive root world := by
  unfold traverseAs traverse
  rw [enterAs_natural]
  rfl

/-! ## Items -/

/-- The items of a directory and their order do not depend on the order of its entries. -/
theorem itemsOf_of_perm {fs : FileSystem} (hfs : fs.Sound) {d : Inode}
    {entries : List (Bytes × Inode)} (hentries : fs.entries? d = some entries) (followLinks : Bool)
    (path : Text) {listed : List DirectoryEntry} (h : listed.Perm (fs.listing entries)) :
    itemsOf fs followLinks path listed = itemsOf fs followLinks path (fs.listing entries) := by
  have hperm : (itemsOf fs followLinks path listed).Perm
      (itemsOf fs followLinks path (fs.listing entries)) :=
    calc itemsOf fs followLinks path listed
      _ |>.Perm (visitable (listed.map (sight fs followLinks path))) := List.mergeSort_perm _ _
      _ |>.Perm (visitable ((fs.listing entries).map (sight fs followLinks path))) :=
        (h.map _).filterMap _
      _ |>.Perm (itemsOf fs followLinks path (fs.listing entries)) :=
        (List.mergeSort_perm _ _).symm
  -- both lists are ordered by key, and no two items have the same key
  apply hperm.eq_of_pairwise ?_ (itemsOf_keys_le ..) (itemsOf_keys_le ..)
  intro a b ha hb hab hba
  exact eq_of_keys_le hfs hentries (hperm.subset ha) hb hab hba

/-! ## The same walk in a guise -/

/-- A run through files in a guise hands out what another one hands out, ends as that does, and leaves
its state, dressed. -/
structure Mirrors (g : Guise) (r q : Run) : Prop where
  candidates : r.candidates = q.candidates
  halt : r.halt = q.halt
  state : r.state = g.dress q.state
  sound : q.state.world.files.Sound

theorem Mirrors.andThen {g : Guise} {r q : Run} {next following : State → Run}
    (hfirst : Mirrors g r q)
    (hnext : ∀ s, s.world.files.Sound → Mirrors g (next (g.dress s)) (following s)) :
    Mirrors g (r.andThen next) (q.andThen following) := by
  cases hhalt : q.halt with
  | some halt =>
    rw [Run.andThen_of_halt hhalt, Run.andThen_of_halt (hfirst.halt.trans hhalt)]
    exact hfirst
  | none =>
    have hrest := hnext q.state hfirst.sound
    rw [Run.andThen_of_not_halt hhalt, Run.andThen_of_not_halt (hfirst.halt.trans hhalt),
      hfirst.state]
    refine ⟨?_, hrest.halt, hrest.state, hrest.sound⟩
    rw [Run.candidates, Run.candidates, List.filterMap_append, List.filterMap_append]
    exact congrArg₂ (· ++ ·) hfirst.candidates hrest.candidates

section
variable (g : Guise) {receive : Receiver} (hreceive : receive.KeepsSound)

theorem mirrors_checkpoint {s : State} (hs : s.world.files.Sound) :
    Mirrors g (checkpoint (g.dress s)) (checkpoint s) := by
  unfold checkpoint
  rw [g.world_dress]
  split
  · exact ⟨rfl, rfl, rfl, hs⟩
  · exact ⟨rfl, rfl, rfl, hs⟩

include hreceive

theorem mirrors_visit {enterAs enter : Text → Text → Inode → Bool → State → Run}
    (henter : ∀ path leading i via s, s.world.files.Sound →
      Mirrors g (enterAs path leading (g.number i) via (g.dress s)) (enter path leading i via s))
    (directory leading : Text) (item : Item) {s : State} (hs : s.world.files.Sound) :
    Mirrors g (visitAs g receive enterAs directory leading item (g.dress s))
      (visit receive enter directory leading item s) := by
  unfold visitAs visit
  simp only [g.contains_dress, g.world_dress]
  split
  · exact ⟨rfl, rfl, rfl, hreceive _ _ hs⟩
  · cases s.world.files.stat (entryPath directory item.name) with
    | error e =>
      cases e <;> exact ⟨rfl, rfl, rfl, hs⟩
    | ok i =>
      simp only
      split
      · exact ⟨rfl, rfl, rfl, hs⟩
      · -- the state in which the directory is entered is dressed as well
        exact henter _ _ i _ { s with visited := i :: s.visited } hs

theorem mirrors_visitAll (options : Options) {enterAs enter : Text → Text → Inode → Bool → State → Run}
    (henter : ∀ path leading i via s, s.world.files.Sound →
      Mirrors g (enterAs path leading (g.number i) via (g.dress s)) (enter path leading i via s))
    (directory leading : Text) (index : Nat) (items : List Item) {s : State}
    (hs : s.world.files.Sound) :
    Mirrors g (visitAllAs g options receive enterAs directory leading index items (g.dress s))
      (visitAll options receive enter directory leading index items s) := by
  induction items generalizing index s with
  | nil => exact ⟨rfl, rfl, rfl, hs⟩
  | cons item items ih =>
    rw [visitAllAs, visitAll]
    apply Mirrors.andThen
    · apply Mirrors.andThen
      · split
        · exact mirrors_checkpoint g hs
        · exact ⟨rfl, rfl, rfl, hs⟩
      · intro t ht
        exact mirrors_visit g hreceive henter directory leading item ht
    · intro t ht
      exact ih (index + 1) ht

theorem mirrors_enter (options : Options) (depth : Nat) (path leading : Text) (d : Inode)
    (via : Bool) (s : State) (hs : s.world.files.Sound) :
    Mirrors g (enterAs g options receive depth path leading (g.number d) via (g.dress s))
      (enter options receive depth path leading d via s) := by
  induction depth generalizing path leading d via s with
  | zero => exact ⟨rfl, rfl, rfl, hs⟩
  | succ depth ih =>
    rw [enterAs, enter]
    apply (mirrors_checkpoint g hs).andThen
    intro t ht
    rw [g.world_dress]
    cases hscan : t.world.files.scan path with
    | error e =>
      cases e <;> exact ⟨rfl, rfl, rfl, ht⟩
    | ok scanned =>
      have hperm : (g.order (g.dress t) path scanned).Perm scanned := g.order_perm _ _ _
      apply Mirrors.andThen
      · -- the notices about the entries may change places, and no candidate is among them
        refine ⟨?_, ?_, rfl, ht⟩
        · rw [candidates_entered, candidates_entered]
        · show refused? _ = refused? _
          rw [refused?_of_scan ht options.followLinks hscan hperm.subset,
            refused?_of_scan ht options.followLinks hscan (List.Subset.refl _)]
      · intro u hu
        have hitems : itemsOf t.world.files options.followLinks path
            (g.order (g.dress t) path scanned)
              = itemsOf t.world.files options.followLinks path scanned := by
          obtain ⟨e, entries, -, hentries, rfl⟩ := FileSystem.scan_eq_ok_iff.mp hscan
          exact itemsOf_of_perm ht hentries options.followLinks path hperm
        show Mirrors g (visitAllAs g options receive (enterAs g options receive depth) path leading 0
          (itemsOf t.world.files options.followLinks path (g.order (g.dress t) path scanned))
          (g.dress u)) _
        rw [hitems]
        exact mirrors_visitAll g hreceive options ih path leading 0 _ hu

/-- A walk through files in a guise hands out what the walk does that sees the files as they are
kept. -/
theorem mirrors_traverse (options : Options) (root : Path) {world : World}
    (hworld : world.files.Sound) :
    Mirrors g (traverseAs g options receive root world) (traverse options receive root world) := by
  unfold traverseAs traverse
  extract_lets start
  cases world.files.stat root.text with
  | error e =>
    cases e <;> exact ⟨rfl, rfl, rfl, hworld⟩
  | ok i =>
    exact mirrors_enter g hreceive options depthLimit _ _ i _ { start with visited := [i] } hworld

omit hreceive in
/-- A cancelled token ends the walk before anything is seen. -/
theorem trace_traverseAs_of_cancelled (options : Options) {root : Path} {files : FileSystem}
    {token : CancellationToken} (htoken : token.isCancelled = true) {d : Inode}
    (hroot : files.stat root.text = .ok d) :
    (traverseAs g options receive root ⟨files, token⟩).trace = [] := by
  obtain ⟨message, hcheck⟩ := CancellationToken.exists_check htoken
  unfold traverseAs
  simp only [hroot]
  rw [depthLimit, enterAs, checkpoint]
  simp only [hcheck]
  rfl

end

end BundleManifest.Walk
