/-
# BundleManifest.Proofs.Manifest.Batches — batches and workers do not change what is kept

`batches` cuts a source and `collect` filters the pieces in order. Nothing is lost in the cut, and only
the last batch may be empty, so filtering that succeeds accounts for every candidate of its source
(`accounts_of_run`): the size of the batches and the number of workers do not matter. It fails only if
the batches are too large, the token has been cancelled, or the source fails (`failure_of_run`).
-/
import BundleManifest.Filter
import Mathlib

namespace BundleManifest

namespace Source

/-- The candidates that a source gives. -/
def candidates (steps : List SourceStep) : List Candidate :=
  steps.filterMap fun
    | .candidate c => some c
    | _ => none

/-- What a source reports. -/
def notices (steps : List SourceStep) : List Notice :=
  steps.filterMap fun
    | .note n => some n
    | _ => none

section
variable (c : Candidate) (n : Notice) (reason : Text) (steps : List SourceStep)

@[simp] theorem candidates_nil : candidates [] = [] := rfl

@[simp] theorem candidates_candidate :
    candidates (.candidate c :: steps) = c :: candidates steps :=
  rfl

@[simp] theorem candidates_note : candidates (.note n :: steps) = candidates steps := rfl

@[simp] theorem candidates_cancel : candidates (.cancel reason :: steps) = candidates steps := rfl

@[simp] theorem notices_nil : notices [] = [] := rfl

@[simp] theorem notices_candidate : notices (.candidate c :: steps) = notices steps := rfl

@[simp] theorem notices_note : notices (.note n :: steps) = n :: notices steps := rfl

@[simp] theorem notices_cancel : notices (.cancel reason :: steps) = notices steps := rfl

end

end Source

/-- The batch with one more candidate. -/
def Batch.add (batch : Batch) (c : Candidate) : Batch :=
  { batch with candidates := batch.candidates ++ [c] }

theorem FilterOptions.size_le_batchLimit {workers batchSize : Int} (h : batchSize < 2 ^ 63) :
    (FilterOptions.mk workers batchSize).size ≤ batchLimit := by
  unfold size batchLimit
  simp only
  omega

namespace Filter

/-! ## Cutting -/

theorem batches_candidate (size : Nat) (begun : Batch) (c : Candidate) (steps : List SourceStep) :
    batches size begun (.candidate c :: steps) =
      if size ≤ (begun.add c).candidates.length then
        begun.add c :: batches size ⟨[], [], begun.token⟩ steps
      else batches size (begun.add c) steps := by
  rw [batches]
  rfl

theorem batches_ne_nil (size : Nat) (begun : Batch) (steps : List SourceStep) :
    batches size begun steps ≠ [] := by
  induction steps generalizing begun with
  | nil => simp [batches]
  | cons step steps ih =>
    cases step with
    | note n => exact ih _
    | cancel reason => exact ih _
    | candidate c =>
      rw [batches_candidate]
      split
      · simp
      · exact ih _

/-- No candidate is lost and none is moved when a source is cut into batches. -/
theorem candidates_batches (size : Nat) (begun : Batch) (steps : List SourceStep) :
    (batches size begun steps).flatMap Batch.candidates
      = begun.candidates ++ Source.candidates steps := by
  induction steps generalizing begun with
  | nil => simp [batches]
  | cons step steps ih =>
    cases step with
    | note n => exact ih _
    | cancel reason => exact ih _
    | candidate c =>
      rw [batches_candidate]
      split
      · rw [List.flatMap_cons, ih]
        simp [Batch.add]
      · rw [ih]
        simp [Batch.add]

/-- The same holds for what is reported while batches are taken. -/
theorem notices_batches (size : Nat) (begun : Batch) (steps : List SourceStep) :
    (batches size begun steps).flatMap Batch.notices = begun.notices ++ Source.notices steps := by
  induction steps generalizing begun with
  | nil => simp [batches]
  | cons step steps ih =>
    cases step with
    | note n =>
      rw [batches, ih]
      simp
    | cancel reason => exact ih _
    | candidate c =>
      rw [batches_candidate]
      split
      · rw [List.flatMap_cons, ih]
        simp [Batch.add]
      · exact ih _

/-- Only the last batch may be empty. -/
theorem candidates_ne_nil_of_mem_batches {size : Nat} {begun batch : Batch}
    {steps : List SourceStep} (h : batch ∈ (batches size begun steps).dropLast) :
    batch.candidates ≠ [] := by
  induction steps generalizing begun with
  | nil => cases h
  | cons step steps ih =>
    cases step with
    | note n => exact ih h
    | cancel reason => exact ih h
    | candidate c =>
      rw [batches_candidate] at h
      split at h
      · rw [List.dropLast_cons_of_ne_nil (batches_ne_nil _ _ _)] at h
        rcases List.mem_cons.mp h with rfl | h
        · simp [Batch.add]
        · exact ih h
      · exact ih h

/-- A source that does not cancel leaves the token as it is. -/
theorem token_of_mem_batches {size : Nat} {begun : Batch} {steps : List SourceStep}
    (hsteps : ∀ reason, .cancel reason ∉ steps) {batch : Batch}
    (h : batch ∈ batches size begun steps) : batch.token = begun.token := by
  induction steps generalizing begun with
  | nil =>
    rw [batches, List.mem_singleton] at h
    rw [h]
  | cons step steps ih =>
    have hlater : ∀ reason, .cancel reason ∉ steps :=
      fun reason h => hsteps reason (List.mem_cons_of_mem step h)
    cases step with
    | note n =>
      rw [batches] at h
      rw [ih hlater h]
    | cancel reason => exact absurd List.mem_cons_self (hsteps reason)
    | candidate c =>
      rw [batches_candidate] at h
      split at h
      · rcases List.mem_cons.mp h with rfl | h
        · rfl
        · rw [ih hlater h]
      · rw [ih hlater h, Batch.add]

/-! ## Collecting -/

theorem map_eq_error_iff {α β : Type} {g : α → β} {result : Except Failure α} {f : Failure} :
    result.map g = .error f ↔ result = .error f := by
  cases result with
  | ok a => exact ⟨nofun, nofun⟩
  | error e =>
    constructor
    · rintro ⟨⟩
      rfl
    · rintro ⟨⟩
      rfl

theorem cancellation?_eq_none {token : CancellationToken} (h : token.isCancelled = false) :
    cancellation? token = none := by
  rw [cancellation?, CancellationToken.check_eq_none_iff.mpr h]
  rfl

/-- An outcome of filtering accounts for candidates: it has pulled all of them, has kept what stays, and
has reported, besides some notices, each one that is left out only because of its line breaks. -/
structure Accounts (rules : RuleSet) (skip : List Text) (onWorker : Bool) (notices : List Notice)
    (candidates : List Candidate) (outcome : FilterOutcome) : Prop where
  result : outcome.result = .ok (kept rules skip candidates)
  pulled : outcome.pulled = candidates.length
  notices : outcome.notices.Perm (notices ++ complaints rules skip onWorker candidates)

section
variable {rules : RuleSet} {skip : List Text} {onWorker : Bool} {failure : Option Failure}

theorem accounts_nil : Accounts rules skip onWorker [] [] ⟨[], 0, .ok []⟩ :=
  ⟨rfl, rfl, .refl _⟩

/-- One more batch, before the others, is accounted for as well. -/
theorem Accounts.cons {notices : List Notice} {candidates : List Candidate} {others : FilterOutcome}
    (h : Accounts rules skip onWorker notices candidates others) (batch : Batch) :
    Accounts rules skip onWorker (batch.notices ++ notices) (batch.candidates ++ candidates)
      { notices :=
          batch.notices ++ complaints rules skip onWorker batch.candidates ++ others.notices
        pulled := batch.candidates.length + others.pulled
        result := others.result.map (kept rules skip batch.candidates ++ ·) } where
  result := by
    rw [h.result, kept_append]
    rfl
  pulled := by
    rw [h.pulled, List.length_append]
  notices := by
    rw [complaints_append]
    apply (h.notices.append_left _).trans
    -- what the batch complains about moves past what the others report
    simp only [List.append_assoc]
    apply List.Perm.append_left
    rw [← List.append_assoc, ← List.append_assoc]
    exact List.perm_append_comm.append_right _

/-- A batch that is not the last one of a source that fails is filtered. -/
theorem collect_cons {batch : Batch} {rest : List Batch} (h : failure = none ∨ rest ≠ []) :
    collect rules skip onWorker failure (batch :: rest) =
      if batch.candidates = [] then ⟨batch.notices, 0, .ok []⟩
      else match cancellation? batch.token with
        | some f => ⟨batch.notices, batch.candidates.length, .error f⟩
        | none =>
          let others := collect rules skip onWorker failure rest
          { notices :=
              batch.notices ++ complaints rules skip onWorker batch.candidates ++ others.notices
            pulled := batch.candidates.length + others.pulled
            result := others.result.map (kept rules skip batch.candidates ++ ·) } := by
  cases failure with
  | none => rfl
  | some f =>
    obtain ⟨other, others, rfl⟩ := List.exists_cons_of_ne_nil (h.resolve_left (by simp))
    rfl

/-- Collecting that succeeds accounts for the candidates of all batches, if only the last one is
empty. -/
theorem accounts_of_collect {taken : List Batch} (hne : taken ≠ [])
    (hfull : ∀ batch ∈ taken.dropLast, batch.candidates ≠ []) {files : List Text}
    (h : (collect rules skip onWorker failure taken).result = .ok files) :
    failure = none ∧ Accounts rules skip onWorker (taken.flatMap Batch.notices)
      (taken.flatMap Batch.candidates) (collect rules skip onWorker failure taken) := by
  induction taken generalizing files with
  | nil => exact absurd rfl hne
  | cons batch rest ih =>
    have hmore : failure = none ∨ rest ≠ [] := by
      by_contra hboth
      obtain ⟨hsome, rfl⟩ := not_or.mp hboth |>.imp_right not_not.mp
      obtain ⟨f, rfl⟩ := Option.ne_none_iff_exists'.mp hsome
      cases h
    rw [collect_cons hmore] at h ⊢
    by_cases hempty : batch.candidates = []
    · -- then it is the last one
      obtain rfl : rest = [] := by
        by_contra hrest
        refine hfull batch ?_ hempty
        rw [List.dropLast_cons_of_ne_nil hrest]
        exact List.mem_cons_self
      rw [if_pos hempty]
      refine ⟨hmore.resolve_right fun hrest => hrest rfl, ?_⟩
      constructor
      · simp [hempty, kept]
      · simp [hempty]
      · simp [hempty, complaints]
    · rw [if_neg hempty] at h ⊢
      cases htoken : cancellation? batch.token with
      | some f =>
        rw [htoken] at h
        cases h
      | none =>
        simp only [htoken] at h ⊢
        by_cases hrest : rest = []
        · subst hrest
          exact ⟨hmore.resolve_right fun hrest => hrest rfl, accounts_nil.cons batch⟩
        · cases hothers : (collect rules skip onWorker failure rest).result with
          | error f =>
            rw [hothers] at h
            cases h
          | ok others =>
            have hlater : ∀ b ∈ rest.dropLast, b.candidates ≠ [] := by
              intro b hb
              apply hfull b
              rw [List.dropLast_cons_of_ne_nil hrest]
              exact List.mem_cons_of_mem _ hb
            obtain ⟨hnone, haccounts⟩ := ih hrest hlater hothers
            rw [← hothers]
            exact ⟨hnone, haccounts.cons batch⟩

/-- Collecting fails only if the source does or a cancelled token is seen. -/
theorem failure_of_collect {taken : List Batch} {f : Failure}
    (h : (collect rules skip onWorker failure taken).result = .error f) :
    failure = some f ∨ ∃ batch ∈ taken, cancellation? batch.token = some f := by
  induction taken with
  | nil => cases h
  | cons batch rest ih =>
    by_cases hmore : failure = none ∨ rest ≠ []
    · rw [collect_cons hmore] at h
      split at h
      · cases h
      · split at h
        · next f' htoken =>
          cases h
          exact Or.inr ⟨batch, List.mem_cons_self, htoken⟩
        · cases hothers : (collect rules skip onWorker failure rest).result with
          | ok files =>
            simp only [hothers] at h
            cases h
          | error f' =>
            simp only [hothers] at h
            cases h
            refine (ih hothers).imp_right ?_
            rintro ⟨other, hother, htoken⟩
            exact ⟨other, List.mem_cons_of_mem _ hother, htoken⟩
    · obtain ⟨hsome, rfl⟩ := not_or.mp hmore |>.imp_right not_not.mp
      obtain ⟨f', rfl⟩ := Option.ne_none_iff_exists'.mp hsome
      cases h
      exact Or.inl rfl

end

/-- Putting the results of workers together succeeds with what they have found. -/
theorem gather_of_ok {token : CancellationToken} {outcome : FilterOutcome} {files : List Text}
    (h : (gather token outcome).result = .ok files) : gather token outcome = outcome := by
  unfold gather at h ⊢
  split
  · next hcancelled hresult =>
    split
    · rfl
    · next hpulled => simp_all
  · rfl

/-- Otherwise they have failed already or a cancelled token is seen. -/
theorem failure_of_gather {token : CancellationToken} {outcome : FilterOutcome} {f : Failure}
    (h : (gather token outcome).result = .error f) :
    outcome.result = .error f ∨ cancellation? token = some f := by
  unfold gather at h
  split at h
  · next f' _ htoken =>
    split at h
    · exact Or.inl h
    · cases h
      exact Or.inr htoken
  · exact Or.inl h

/-! ## Filtering -/

section
variable {options : FilterOptions} {rules : RuleSet} {skip : List Text} {token : CancellationToken}
  {source : Source}

/-- Filtering refuses batches that are too large. Otherwise it collects them, and with several workers it
looks at the token once more. -/
theorem run_cases (options : FilterOptions) (rules : RuleSet) (skip : List Text)
    (token : CancellationToken) (source : Source) :
    let taken := batches options.size ⟨[], [], token⟩ source.steps
    let outcome := collect rules skip options.isShared source.failure taken
    FilterOptions.batchLimit < options.size ∧
        run options rules skip token source = ⟨[], 0, .error .batchTooLarge⟩ ∨
      run options rules skip token source = outcome ∨
      ∃ last ∈ taken, run options rules skip token source = gather last.token outcome := by
  intro taken outcome
  by_cases hlarge : FilterOptions.batchLimit < options.size
  · exact Or.inl ⟨hlarge, by rw [run, if_pos hlarge]⟩
  · right
    generalize hrun : run options rules skip token source = given
    rw [run, if_neg hlarge] at hrun
    dsimp only at hrun
    split at hrun
    · next last _ hlast => exact Or.inr ⟨last, List.mem_of_getLast? hlast, hrun.symm⟩
    · exact Or.inl hrun.symm

/-- Filtering that succeeds accounts for every candidate of its source. -/
theorem accounts_of_run {files : List Text}
    (h : (run options rules skip token source).result = .ok files) :
    source.failure = none ∧ Accounts rules skip options.isShared (Source.notices source.steps)
      (Source.candidates source.steps) (run options rules skip token source) := by
  have haccounts {files : List Text}
      (h : (collect rules skip options.isShared source.failure
        (batches options.size ⟨[], [], token⟩ source.steps)).result = .ok files) :
      source.failure = none ∧ Accounts rules skip options.isShared (Source.notices source.steps)
        (Source.candidates source.steps) (collect rules skip options.isShared source.failure
          (batches options.size ⟨[], [], token⟩ source.steps)) := by
    have hcollect := accounts_of_collect (batches_ne_nil _ _ _)
      (fun _ => candidates_ne_nil_of_mem_batches) h
    rwa [candidates_batches, notices_batches] at hcollect
  rcases run_cases options rules skip token source with
    ⟨-, hrun⟩ | hrun | ⟨last, -, hrun⟩
  · rw [hrun] at h
    cases h
  · rw [hrun] at h ⊢
    exact haccounts h
  · rw [hrun] at h ⊢
    have hgather := gather_of_ok h
    rw [hgather] at h ⊢
    exact haccounts h

/-- Filtering fails only if the batches are too large, the source fails, or a cancelled token is
seen. -/
theorem failure_of_run {f : Failure} (h : (run options rules skip token source).result = .error f) :
    f = .batchTooLarge ∧ FilterOptions.batchLimit < options.size ∨ source.failure = some f ∨
      ∃ batch ∈ batches options.size ⟨[], [], token⟩ source.steps,
        cancellation? batch.token = some f := by
  rcases run_cases options rules skip token source with
    ⟨hlarge, hrun⟩ | hrun | ⟨last, hlast, hrun⟩
  · rw [hrun] at h
    cases h
    exact Or.inl ⟨rfl, hlarge⟩
  · rw [hrun] at h
    exact Or.inr (failure_of_collect h)
  · rw [hrun] at h
    rcases failure_of_gather h with h | htoken
    · exact Or.inr (failure_of_collect h)
    · exact Or.inr (Or.inr ⟨last, hlast, htoken⟩)

end

/-- Filtering that succeeds has been given batches that are not too large. -/
theorem size_le_of_run {options : FilterOptions} {rules : RuleSet} {skip : List Text}
    {token : CancellationToken} {source : Source} {files : List Text}
    (h : (run options rules skip token source).result = .ok files) :
    options.size ≤ FilterOptions.batchLimit := by
  apply Nat.le_of_not_lt
  intro hlarge
  rw [run, if_pos hlarge] at h
  cases h

/-- What filtering keeps of a source that comes to its end. -/
theorem run_result {options : FilterOptions} (hsize : options.size ≤ FilterOptions.batchLimit)
    (rules : RuleSet) (skip : List Text) {token : CancellationToken}
    (htoken : token.isCancelled = false) {steps : List SourceStep}
    (hsteps : ∀ reason, .cancel reason ∉ steps) :
    (run options rules skip token { steps }).result
      = .ok (kept rules skip (Source.candidates steps)) := by
  cases hresult : (run options rules skip token { steps }).result with
  | ok files => exact hresult ▸ (accounts_of_run hresult).2.result
  | error f =>
    rcases failure_of_run hresult with ⟨-, hlarge⟩ | hfailure | ⟨batch, hbatch, hcancelled⟩
    · exact absurd hsize (Nat.not_le.mpr hlarge)
    · cases hfailure
    · rw [token_of_mem_batches hsteps hbatch, cancellation?_eq_none htoken] at hcancelled
      cases hcancelled

/-! ## Other rules -/

/-- Two outcomes end alike: they have pulled as many candidates, and they fail alike, if at all. -/
structure EndsLike (outcome other : FilterOutcome) : Prop where
  pulled : outcome.pulled = other.pulled
  failure : ∀ f, outcome.result = .error f ↔ other.result = .error f

/-- The rules and the paths to skip do not decide how collecting ends. -/
theorem endsLike_collect (rules rules' : RuleSet) (skip skip' : List Text) (onWorker : Bool)
    (failure : Option Failure) (taken : List Batch) :
    EndsLike (collect rules skip onWorker failure taken)
      (collect rules' skip' onWorker failure taken) := by
  induction taken with
  | nil => exact ⟨rfl, fun f => ⟨nofun, nofun⟩⟩
  | cons batch rest ih =>
    by_cases hmore : failure = none ∨ rest ≠ []
    · rw [collect_cons hmore, collect_cons hmore]
      by_cases hempty : batch.candidates = []
      · rw [if_pos hempty, if_pos hempty]
        exact ⟨rfl, fun f => Iff.rfl⟩
      rw [if_neg hempty, if_neg hempty]
      cases cancellation? batch.token with
      | some f => exact ⟨rfl, fun f => Iff.rfl⟩
      | none =>
        obtain ⟨hpulled, hfailure⟩ := ih
        constructor
        · show batch.candidates.length + _ = batch.candidates.length + _
          rw [hpulled]
        · intro f
          show Except.map _ _ = _ ↔ Except.map _ _ = _
          rw [map_eq_error_iff, map_eq_error_iff, hfailure]
    · obtain ⟨hsome, rfl⟩ := not_or.mp hmore |>.imp_right not_not.mp
      obtain ⟨f, rfl⟩ := Option.ne_none_iff_exists'.mp hsome
      exact ⟨rfl, fun f => Iff.rfl⟩

theorem EndsLike.gather {outcome other : FilterOutcome} (h : EndsLike outcome other)
    (token : CancellationToken) :
    EndsLike (gather token outcome) (gather token other) := by
  cases hresult : outcome.result with
  | error f =>
    have hother := (h.failure f).mp hresult
    simp only [Filter.gather, hresult, hother]
    exact h
  | ok files =>
    cases hother : other.result with
    | error f =>
      rw [(h.failure f).mpr hother] at hresult
      cases hresult
    | ok others =>
      cases hcancelled : cancellation? token with
      | none =>
        simp only [Filter.gather, hresult, hother, hcancelled]
        exact h
      | some f =>
        simp only [Filter.gather, hresult, hother, hcancelled, h.pulled]
        split
        · exact h
        · exact ⟨rfl, fun f => Iff.rfl⟩

/-- The rules and the paths to skip do not decide how filtering ends. -/
theorem endsLike_run (options : FilterOptions) (rules rules' : RuleSet) (skip skip' : List Text)
    (token : CancellationToken) (source : Source) :
    EndsLike (run options rules skip token source) (run options rules' skip' token source) := by
  have hcollect := endsLike_collect rules rules' skip skip' options.isShared source.failure
    (batches options.size ⟨[], [], token⟩ source.steps)
  unfold run
  split
  · exact ⟨rfl, fun f => Iff.rfl⟩
  · extract_lets taken outcome other
    split
    · exact hcollect.gather _
    · exact hcollect

/-- A source that fails before it gives anything makes filtering fail. -/
theorem run_result_of_failure (options : FilterOptions) (rules : RuleSet) (skip : List Text)
    (token : CancellationToken) (f : Failure) :
    ∃ e, (run options rules skip token ⟨[], some f⟩).result = .error e := by
  cases hresult : (run options rules skip token ⟨[], some f⟩).result with
  | error e => exact ⟨e, rfl⟩
  | ok files => cases (accounts_of_run hresult).1

end Filter

end BundleManifest
