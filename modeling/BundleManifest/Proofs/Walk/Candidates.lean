/-
# BundleManifest.Proofs.Walk.Candidates — a walk hands out files with the segments of their paths

`Candidate.under` is the file under a path. Whatever receives the files, and whatever becomes of the
world meanwhile, a walk hands out nothing else (`candidates_traverse`), so it is enough to know the
paths.
-/
import BundleManifest.Proofs.Walk.Steady

namespace BundleManifest

/-- The file under a path, with its segments. -/
def Candidate.under (path : Text) : Candidate := ⟨path, Text.split '/' path⟩

namespace Walk

/-- Every candidate that a run hands out has the segments of its path. -/
def Run.Consistent (r : Run) : Prop := ∀ c ∈ r.candidates, c = Candidate.under c.path

theorem Run.Consistent.andThen {first : Run} {next : State → Run} (hfirst : first.Consistent)
    (hnext : ∀ s, (next s).Consistent) : (first.andThen next).Consistent := by
  cases hhalt : first.halt with
  | some halt =>
    rw [Run.andThen_of_halt hhalt]
    exact hfirst
  | none =>
    intro c hc
    rw [Run.andThen_of_not_halt hhalt, Run.candidates, List.filterMap_append,
      List.mem_append] at hc
    rcases hc with hc | hc
    · exact hfirst c hc
    · exact hnext first.state c hc

theorem consistent_of_candidates_eq_nil {r : Run} (h : r.candidates = []) : r.Consistent := by
  intro c hc
  rw [h] at hc
  cases hc

theorem consistent_checkpoint (s : State) : (checkpoint s).Consistent := by
  unfold checkpoint
  split
  · exact consistent_of_candidates_eq_nil rfl
  · exact consistent_of_candidates_eq_nil rfl

theorem consistent_visit {receive : Receiver} {enter : Text → Text → Inode → Bool → State → Run}
    (henter : ∀ path leading i via s, (enter path leading i via s).Consistent)
    (directory leading : Text) (item : Item) (s : State) :
    (visit receive enter directory leading item s).Consistent := by
  unfold visit
  extract_lets below path
  split
  · -- `below` is the path whose segments the candidate gets
    intro c hc
    rw [show (handOut receive below s).candidates = [Candidate.under below] from rfl,
      List.mem_singleton] at hc
    rw [hc]
    rfl
  split
  · exact consistent_of_candidates_eq_nil rfl
  · exact consistent_of_candidates_eq_nil rfl
  · split
    · exact consistent_of_candidates_eq_nil rfl
    · exact henter _ _ _ _ _

theorem consistent_visitAll (options : Options) {receive : Receiver}
    {enter : Text → Text → Inode → Bool → State → Run}
    (henter : ∀ path leading i via s, (enter path leading i via s).Consistent)
    (directory leading : Text) (index : Nat) (items : List Item) (s : State) :
    (visitAll options receive enter directory leading index items s).Consistent := by
  induction items generalizing index s with
  | nil => exact consistent_of_candidates_eq_nil rfl
  | cons item items ih =>
    rw [visitAll]
    refine Run.Consistent.andThen (Run.Consistent.andThen ?_ ?_) (ih (index + 1))
    · split
      · exact consistent_checkpoint s
      · exact consistent_of_candidates_eq_nil rfl
    · exact consistent_visit henter directory leading item

/-- Entering a directory hands out nothing by itself. -/
theorem candidates_entered (path : Text) (d : Inode) (via : Bool) (sightings : List Sighting)
    (s : State) (halt : Option Halt) :
    Run.candidates ⟨.entered path d via :: reported sightings, s, halt⟩ = [] := by
  rw [Run.candidates, List.filterMap_cons]
  exact filterMap_reported (fun _ => rfl) sightings

theorem consistent_enter (options : Options) (receive : Receiver) (depth : Nat)
    (path leading : Text) (d : Inode) (via : Bool) (s : State) :
    (enter options receive depth path leading d via s).Consistent := by
  induction depth generalizing path leading d via s with
  | zero => exact consistent_of_candidates_eq_nil rfl
  | succ depth ih =>
    rw [enter]
    refine (consistent_checkpoint s).andThen fun t => ?_
    split
    · exact consistent_of_candidates_eq_nil rfl
    · exact consistent_of_candidates_eq_nil rfl
    · next entries _ =>
      apply Run.Consistent.andThen
      · exact consistent_of_candidates_eq_nil (candidates_entered path d via _ t _)
      · exact consistent_visitAll options ih path leading 0 _

/-- A walk hands out the files under the paths that it hands out. -/
theorem candidates_traverse (options : Options) (receive : Receiver) (root : Path)
    (world : World) :
    (traverse options receive root world).candidates
      = (traverse options receive root world).files.map Candidate.under := by
  have hconsistent : (traverse options receive root world).Consistent := by
    unfold traverse
    extract_lets start
    split
    · exact consistent_of_candidates_eq_nil rfl
    · exact consistent_of_candidates_eq_nil rfl
    · exact consistent_enter options receive depthLimit _ _ _ _ _
  rw [Run.files_eq_map_candidates, List.map_map]
  exact (List.map_id _).symm.trans (List.map_congr_left hconsistent)

end Walk

end BundleManifest
