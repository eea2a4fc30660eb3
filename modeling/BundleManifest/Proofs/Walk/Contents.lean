/-
# BundleManifest.Proofs.Walk.Contents — a walk looks at no content

What files hold makes no difference to a walk: it can be emptied before the walk or afterwards
(`traverse_emptied`), and the files that are handed out are the same.
-/
import BundleManifest.Proofs.FileSystem.Emptied
import BundleManifest.Walk.Traversal

namespace BundleManifest

/-- The world with nothing in its regular files. -/
def World.emptied (w : World) : World := { w with files := w.files.emptied }

namespace Walk

/-- The state with nothing in its regular files. -/
def State.emptied (s : State) : State := { s with world := s.world.emptied }

/-- The run with nothing in the regular files that it leaves. -/
def Run.emptied (r : Run) : Run := { r with state := r.state.emptied }

@[simp] theorem Run.files_emptied (r : Run) : r.emptied.files = r.files := rfl

theorem Run.emptied_andThen {first : Run} {next : State → Run}
    (h : ∀ s, (next s).emptied = next s.emptied) :
    (first.andThen next).emptied = first.emptied.andThen next := by
  have hhalt : first.emptied.halt = first.halt := rfl
  cases hfirst : first.halt with
  | some halt => rw [andThen_of_halt hfirst, andThen_of_halt (hhalt.trans hfirst)]
  | none =>
    rw [andThen_of_not_halt hfirst, andThen_of_not_halt (hhalt.trans hfirst)]
    show _ = { next first.state.emptied with trace := first.trace ++ (next first.state.emptied).trace }
    rw [← h]
    rfl

theorem checkpoint_emptied (s : State) : (checkpoint s).emptied = checkpoint s.emptied := by
  have htoken : s.emptied.world.token.check = s.world.token.check := rfl
  unfold checkpoint
  rw [htoken]
  cases s.world.token.check <;> rfl

theorem sight_emptied (fs : FileSystem) (followLinks : Bool) (directory : Text) :
    sight fs.emptied followLinks directory = sight fs followLinks directory := by
  funext entry
  unfold sight
  simp only [FileSystem.stat_emptied, FileSystem.kind?_emptied]

section
variable {enter : Text → Text → Inode → Bool → State → Run}
  (henter : ∀ path leading i via s, (enter path leading i via s).emptied = enter path leading i via s.emptied)
include henter

theorem visit_emptied (directory leading : Text) (item : Item) (s : State) :
    (visit .passive enter directory leading item s).emptied
      = visit .passive enter directory leading item s.emptied := by
  unfold visit
  extract_lets below path
  have hstat : s.emptied.world.files.stat path = s.world.files.stat path :=
    FileSystem.stat_emptied _ path
  rw [hstat]
  split
  · rfl
  cases s.world.files.stat path with
  | error e => cases e <;> rfl
  | ok i =>
    show Run.emptied (if s.visited.contains i && item.isLink then _ else _)
      = if s.visited.contains i && item.isLink then _ else _
    split
    · rfl
    · exact henter ..

theorem visitAll_emptied (options : Options) (directory leading : Text) (index : Nat)
    (items : List Item) (s : State) :
    (visitAll options .passive enter directory leading index items s).emptied
      = visitAll options .passive enter directory leading index items s.emptied := by
  induction items generalizing index s with
  | nil => rfl
  | cons item items ih =>
    unfold visitAll
    extract_lets due start start'
    have hstart : start.emptied = start' := by
      unfold start start'
      split
      · exact checkpoint_emptied s
      · rfl
    rw [Run.emptied_andThen (ih _), Run.emptied_andThen (visit_emptied henter directory leading item),
      hstart]

end

theorem enter_emptied (options : Options) (depth : Nat) (path leading : Text) (i : Inode) (via : Bool)
    (s : State) :
    (enter options .passive depth path leading i via s).emptied
      = enter options .passive depth path leading i via s.emptied := by
  induction depth generalizing path leading i via s with
  | zero => rfl
  | succ depth ih =>
    unfold enter
    rw [Run.emptied_andThen, checkpoint_emptied]
    intro s
    have hscan : s.emptied.world.files.scan path = s.world.files.scan path :=
      FileSystem.scan_emptied _ path
    have hsight : sight s.emptied.world.files options.followLinks path
        = sight s.world.files options.followLinks path := sight_emptied ..
    rw [hscan, hsight]
    cases s.world.files.scan path with
    | error e => cases e <;> rfl
    | ok entries => exact Run.emptied_andThen (visitAll_emptied ih options path leading 0 _)

/-- A walk is the same whatever the files hold. -/
theorem traverse_emptied (options : Options) (root : Path) (world : World) :
    (traverse options .passive root world).emptied = traverse options .passive root world.emptied := by
  unfold traverse
  extract_lets start start'
  have hstat : world.emptied.files.stat root.text = world.files.stat root.text :=
    FileSystem.stat_emptied _ root.text
  rw [hstat]
  cases world.files.stat root.text with
  | error e => cases e <;> rfl
  | ok i => exact enter_emptied ..

end Walk

end BundleManifest
