/-
# BundleManifest.Proofs.Manifest.Stopping — where filtering stops when it is cancelled

A source that cancels does so while a batch is being taken. The batches before it are full and are filtered
as ever (`Fills`, `collect_append`). The one that is being taken is completed, if there is anything left to
complete it with, and the token is looked at then. So filtering stops after the batch that the cancellation
falls into, unless that batch is the empty one behind the last candidate (`filtering_stops`).
-/
import BundleManifest.Proofs.Manifest.OnePass

namespace BundleManifest

@[simp] theorem Source.candidates_append (steps rest : List SourceStep) :
    candidates (steps ++ rest) = candidates steps ++ candidates rest :=
  List.filterMap_append

namespace Filter

/-! ## Full batches -/

/-- While some steps are taken, with a batch begun, other batches become full, and one is left that is not
full. -/
structure Fills (size : Nat) (begun : Batch) (steps : List SourceStep) (full : List Batch)
    (left : Batch) : Prop where
  batches : ∀ rest, batches size begun (steps ++ rest) = full ++ batches size left rest
  length : ∀ batch ∈ full, batch.candidates.length = size
  token : ∀ batch ∈ full, batch.token = begun.token
  leftToken : left.token = begun.token
  room : left.candidates.length < size
  count : full.length * size + left.candidates.length
    = begun.candidates.length + (Source.candidates steps).length

section
variable {size : Nat} {steps : List SourceStep}

theorem exists_fills (begun : Batch) (hroom : begun.candidates.length < size)
    (hsteps : ∀ reason, .cancel reason ∉ steps) :
    ∃ full left, Fills size begun steps full left := by
  induction steps generalizing begun with
  | nil =>
    exact ⟨[], begun, fun _ => rfl, List.forall_mem_nil _, List.forall_mem_nil _, rfl, hroom, by simp⟩
  | cons step steps ih =>
    have hlater : ∀ reason, .cancel reason ∉ steps :=
      fun reason h => hsteps reason (List.mem_cons_of_mem step h)
    cases step with
    | note n =>
      obtain ⟨full, left, h⟩ :=
        ih { begun with notices := begun.notices ++ [n] } hroom hlater
      exact ⟨full, left, h.batches, h.length, h.token, h.leftToken, h.room, h.count⟩
    | cancel reason => exact absurd List.mem_cons_self (hsteps reason)
    | candidate c =>
      have hadd : (begun.add c).candidates.length = begun.candidates.length + 1 :=
        List.length_append
      by_cases hfull : size ≤ (begun.add c).candidates.length
      · -- the candidate makes the batch full, and another one is begun
        obtain ⟨full, left, h⟩ := ih ⟨[], [], begun.token⟩ (Nat.zero_lt_of_lt hroom) hlater
        refine ⟨begun.add c :: full, left, ?_, ?_, ?_, h.leftToken, h.room, ?_⟩
        · intro rest
          rw [List.cons_append, batches_candidate, if_pos hfull, h.batches, List.cons_append]
        · rw [List.forall_mem_cons]
          exact ⟨by omega, h.length⟩
        · rw [List.forall_mem_cons]
          exact ⟨rfl, h.token⟩
        · have hcount := h.count
          simp only [List.length_nil, List.length_cons, Source.candidates_candidate,
            Nat.add_mul] at hcount ⊢
          omega
      · obtain ⟨full, left, h⟩ := ih (begun.add c) (Nat.lt_of_not_le hfull) hlater
        refine ⟨full, left, ?_, h.length, h.token, h.leftToken, h.room, ?_⟩
        · intro rest
          rw [List.cons_append, batches_candidate, if_neg hfull, h.batches]
        · have hcount := h.count
          rw [Source.candidates_candidate, List.length_cons]
          omega

/-- The batch that is begun takes as many candidates as it has room for. -/
theorem exists_batches_eq_cons (begun : Batch) (hroom : begun.candidates.length < size)
    (hsteps : ∀ reason, .cancel reason ∉ steps) :
    ∃ first others, batches size begun steps = first :: others ∧
      first.candidates.length
        = min size (begun.candidates.length + (Source.candidates steps).length) := by
  obtain ⟨full, left, h⟩ := exists_fills begun hroom hsteps
  have hbatches : batches size begun steps = full ++ [left] := by
    simpa [batches] using h.batches []
  have hcount := h.count
  have hleft := h.room
  cases full with
  | nil =>
    refine ⟨left, [], hbatches, ?_⟩
    rw [List.length_nil, Nat.zero_mul] at hcount
    omega
  | cons first others =>
    refine ⟨first, others ++ [left], hbatches, ?_⟩
    have hfirst := h.length first List.mem_cons_self
    rw [List.length_cons, Nat.add_mul] at hcount
    omega

end

/-! ## Collecting what is full -/

section
variable {rules : RuleSet} {skip : List Text} {onWorker : Bool}

/-- Batches that are not empty, and at the end of which the token was not cancelled, are filtered before the
others. -/
theorem collect_append {full : List Batch} (rest : List Batch)
    (hfull : ∀ batch ∈ full, batch.candidates ≠ [])
    (htoken : ∀ batch ∈ full, cancellation? batch.token = none) :
    (collect rules skip onWorker none (full ++ rest)).pulled
        = (full.map fun batch => batch.candidates.length).sum
          + (collect rules skip onWorker none rest).pulled ∧
      (collect rules skip onWorker none (full ++ rest)).result
        = (collect rules skip onWorker none rest).result.map
            (full.flatMap (fun batch => kept rules skip batch.candidates) ++ ·) := by
  induction full with
  | nil =>
    rw [List.nil_append]
    refine ⟨(Nat.zero_add _).symm, ?_⟩
    cases (collect rules skip onWorker none rest).result <;> rfl
  | cons batch full ih =>
    rw [List.forall_mem_cons] at hfull htoken
    obtain ⟨hpulled, hresult⟩ := ih hfull.2 htoken.2
    rw [List.cons_append, collect_cons (Or.inl rfl), if_neg hfull.1, htoken.1]
    simp only [hpulled, hresult]
    constructor
    · rw [List.map_cons, List.sum_cons, Nat.add_assoc]
    · cases (collect rules skip onWorker none rest).result with
      | error f => rfl
      | ok files =>
        simp only [Except.map]
        rw [List.flatMap_cons, List.append_assoc]

theorem gather_of_error {token : CancellationToken} {outcome : FilterOutcome} {f : Failure}
    (h : outcome.result = .error f) : gather token outcome = outcome := by
  unfold gather
  rw [h]

theorem gather_result_of_cancellation {token : CancellationToken} {outcome : FilterOutcome}
    {files : List Text} {f : Failure} (hresult : outcome.result = .ok files)
    (htoken : cancellation? token = some f) :
    (gather token outcome).pulled = outcome.pulled ∧
      (gather token outcome).result = if outcome.pulled = 0 then .ok files else .error f := by
  unfold gather
  rw [hresult, htoken]
  by_cases hpulled : outcome.pulled = 0
  · rw [if_pos hpulled]
    simpa [hpulled] using hresult
  · rw [if_neg hpulled]
    simp [hpulled]

theorem run_eq {options : FilterOptions} (hsize : options.size ≤ FilterOptions.batchLimit)
    {token : CancellationToken} {steps : List SourceStep} {last : Batch}
    (hlast : (batches options.size ⟨[], [], token⟩ steps).getLast? = some last) :
    run options rules skip token { steps } =
      if options.isShared then
        gather last.token (collect rules skip options.isShared none
          (batches options.size ⟨[], [], token⟩ steps))
      else collect rules skip options.isShared none
        (batches options.size ⟨[], [], token⟩ steps) := by
  rw [run, if_neg (Nat.not_lt.mpr hsize)]
  dsimp only
  rw [hlast]
  cases options.isShared with
  | true => rfl
  | false => rfl

end

/-! ## A source that cancels -/

section
variable {size : Nat} {token : CancellationToken} {before after : List SourceStep} {reason : Text}

/-- What a source that cancels is cut into: full batches, the batch that the cancellation falls into, and
further batches at the end of which the token has been cancelled. -/
structure Interrupted (size : Nat) (token : CancellationToken) (before after : List SourceStep)
    (reason : Text) (full : List Batch) (hit : Batch) (others : List Batch) : Prop where
  batches : batches size ⟨[], [], token⟩ (before ++ .cancel reason :: after) = full ++ hit :: others
  length : ∀ batch ∈ full, batch.candidates.length = size
  token : ∀ batch ∈ full, batch.token = token
  cancelled : ∀ batch ∈ hit :: others, batch.token = ⟨true, reason⟩
  begun : full.length * size ≤ (Source.candidates before).length
  room : (Source.candidates before).length < full.length * size + size
  hit : hit.candidates.length = min size
    ((Source.candidates before).length + (Source.candidates after).length - full.length * size)

theorem exists_interrupted (hsize : 0 < size) (token : CancellationToken)
    (hbefore : ∀ reason, .cancel reason ∉ before) (hafter : ∀ reason, .cancel reason ∉ after)
    (reason : Text) :
    ∃ full hit others, Interrupted size token before after reason full hit others := by
  obtain ⟨full, left, hfills⟩ := exists_fills ⟨[], [], token⟩ hsize hbefore
  have hcount := hfills.count
  have hroom := hfills.room
  rw [List.length_nil, Nat.zero_add] at hcount
  obtain ⟨hit, others, hbatches, hlength⟩ :=
    exists_batches_eq_cons { left with token := ⟨true, reason⟩ } hroom hafter
  refine ⟨full, hit, others, ?_, hfills.length, hfills.token, ?_, ?_, ?_, ?_⟩
  · rw [hfills.batches, ← hbatches]
    rfl
  · rw [← hbatches]
    intro batch hbatch
    exact token_of_mem_batches hafter hbatch
  · omega
  · omega
  · -- what is left has as many candidates as come after the full batches
    simp only at hlength
    omega

section
variable {full others : List Batch} {hit : Batch}
  (h : Interrupted size token before after reason full hit others)
include h

/-- The number of full batches. -/
theorem Interrupted.div_eq : (Source.candidates before).length / size = full.length := by
  apply Nat.div_eq_of_lt_le h.begun
  rw [Nat.succ_mul]
  exact h.room

theorem Interrupted.mod_eq :
    (Source.candidates before).length % size
      = (Source.candidates before).length - full.length * size := by
  rw [Nat.mod_eq_sub_div_mul, h.div_eq]

/-- Collecting goes up to the batch that the cancellation falls into, and fails there unless that batch is
empty. -/
theorem Interrupted.collect {f : Failure} (hf : cancellation? ⟨true, reason⟩ = some f)
    (hsize : 0 < size) (htoken : token.isCancelled = false) (rules : RuleSet)
    (skip : List Text) (onWorker : Bool) :
    let outcome := collect rules skip onWorker none
      (Filter.batches size ⟨[], [], token⟩ (before ++ .cancel reason :: after))
    outcome.pulled = full.length * size + hit.candidates.length ∧
      if hit.candidates = [] then ∃ files, outcome.result = .ok files
      else outcome.result = .error f := by
  have hne : ∀ batch ∈ full, batch.candidates ≠ [] := by
    intro batch hbatch
    rw [← List.length_pos_iff, h.length batch hbatch]
    exact hsize
  have hquiet : ∀ batch ∈ full, cancellation? batch.token = none := by
    intro batch hbatch
    rw [h.token batch hbatch]
    exact cancellation?_eq_none htoken
  have hsum : (full.map fun batch => batch.candidates.length).sum = full.length * size := by
    rw [List.map_congr_left h.length, List.map_const', List.sum_replicate, smul_eq_mul]
  obtain ⟨hpulled, hresult⟩ :=
    @collect_append rules skip onWorker full (hit :: others) hne hquiet
  rw [h.batches]
  dsimp only
  rw [hpulled, hresult, hsum, collect_cons (Or.inl rfl)]
  by_cases hempty : hit.candidates = []
  · rw [if_pos hempty, if_pos hempty, hempty]
    exact ⟨rfl, _, rfl⟩
  · rw [if_neg hempty, if_neg hempty, h.cancelled hit List.mem_cons_self, hf]
    exact ⟨rfl, rfl⟩

/-- The token is cancelled at the end of the last batch. -/
theorem Interrupted.exists_getLast? :
    ∃ last, (Filter.batches size ⟨[], [], token⟩ (before ++ .cancel reason :: after)).getLast?
        = some last ∧ last.token = ⟨true, reason⟩ := by
  have hlast := List.getLast_mem (List.cons_ne_nil hit others)
  refine ⟨(hit :: others).getLast (List.cons_ne_nil hit others), ?_, ?_⟩
  · rw [h.batches, List.getLast?_append_of_ne_nil full (List.cons_ne_nil hit others),
      List.getLast?_eq_some_getLast]
  · exact h.cancelled _ hlast

end

/-- Several workers see the cancellation even if the batch that it falls into is empty, if there has been
another one. -/
theorem Interrupted.run {options : FilterOptions} (hlimit : options.size ≤ FilterOptions.batchLimit)
    {full others : List Batch} {hit : Batch}
    (h : Interrupted options.size token before after reason full hit others)
    {f : Failure} (hf : cancellation? ⟨true, reason⟩ = some f) (htoken : token.isCancelled = false)
    (rules : RuleSet) (skip : List Text) :
    let outcome := run options rules skip token { steps := before ++ .cancel reason :: after }
    outcome.pulled = full.length * options.size + hit.candidates.length ∧
      if hit.candidates ≠ [] ∨ options.isShared = true ∧ 0 < full.length then
        outcome.result = .error f
      else ∃ files, outcome.result = .ok files := by
  have hpos : 0 < options.size := Nat.lt_of_lt_of_le Nat.one_pos (Nat.le_max_left _ _)
  obtain ⟨last, hlast, hlastToken⟩ := h.exists_getLast?
  obtain ⟨hpulled, hresult⟩ := h.collect hf hpos htoken rules skip options.isShared
  dsimp only
  rw [run_eq hlimit hlast, hlastToken]
  by_cases hempty : hit.candidates = []
  · rw [if_pos hempty] at hresult
    obtain ⟨files, hfiles⟩ := hresult
    obtain ⟨hgathered, hgather⟩ := gather_result_of_cancellation hfiles hf
    cases hshared : options.isShared with
    | false =>
      rw [hshared] at hpulled hfiles
      simp [hempty, hpulled, hfiles]
    | true =>
      rw [hshared] at hgathered hgather hpulled
      rw [if_pos rfl, hgathered, hpulled, hgather, hpulled]
      refine ⟨rfl, ?_⟩
      by_cases hfull : full.length = 0
      · simp [hempty, hfull]
      · have hsome : full.length * options.size + 0 ≠ 0 := Nat.mul_ne_zero hfull hpos.ne'
        rw [hempty, List.length_nil, if_neg hsome, if_pos (Or.inr ⟨rfl, Nat.pos_of_ne_zero hfull⟩)]
  · rw [if_neg hempty] at hresult
    rw [gather_of_error hresult, ite_self, if_pos (Or.inl hempty)]
    exact ⟨hpulled, hresult⟩

end

/-- Filtering a source that cancels, exactly. It is cancelled just before candidate `i` of `n`, or behind the
last one if these are equal. In front of a candidate the cancellation is always seen, at the end of the batch
that it falls into. Behind the last one all candidates have been taken, and it is seen if the last batch is
not full, or else by several workers before they put their results together. No list is ever given but the
complete one. -/
theorem filtering_stops {workers batchSize : Int} (hbatch : batchSize < 2 ^ 63) (rules : RuleSet)
    (skip : List Text) {token : CancellationToken} (htoken : token.isCancelled = false)
    {before after : List SourceStep} (hbefore : ∀ reason, .cancel reason ∉ before)
    (hafter : ∀ reason, .cancel reason ∉ after) (reason : Text) :
    let b := max 1 batchSize.toNat
    let steps := before ++ .cancel reason :: after
    let outcome := run ⟨workers, batchSize⟩ rules skip token { steps }
    let i := (Source.candidates before).length
    let n := (Source.candidates steps).length
    let cancelled : Failure :=
      .bundle (.cancelled (if reason = [] then "Operation cancelled" else reason))
    let files := ((Source.candidates steps).filter fun c => c.path ∉ skip ∧
      rules.excludes c = false ∧ CodePoint.ofChar '\n' ∉ c.path ∧
      CodePoint.ofChar '\r' ∉ c.path).map Candidate.path
    (i < n → outcome.result = .error cancelled ∧ outcome.pulled = min n ((i / b + 1) * b)) ∧
    (i = n → outcome.pulled = n ∧ outcome.result =
      if n % b ≠ 0 ∨ 1 < workers ∧ 0 < n then .error cancelled else .ok files) ∧
    ∀ list, outcome.result = .ok list → list = files := by
  intro b steps outcome i n cancelled files
  let options : FilterOptions := ⟨workers, batchSize⟩
  have hsize : options.size ≤ FilterOptions.batchLimit := FilterOptions.size_le_batchLimit hbatch
  have hpos : 0 < b := Nat.lt_of_lt_of_le Nat.one_pos (Nat.le_max_left _ _)
  have hn : n = i + (Source.candidates after).length := by
    show (Source.candidates (before ++ .cancel reason :: after)).length = _
    rw [Source.candidates_append, Source.candidates_cancel, List.length_append]
  have hcomplete : ∀ list, outcome.result = .ok list → list = files := by
    intro list hlist
    have hkept := (accounts_of_run hlist).2.result
    rw [show (run _ _ _ _ _).result = _ from hlist, kept_eq] at hkept
    exact Except.ok.inj hkept
  obtain ⟨full, hit, others, h⟩ := exists_interrupted hpos token hbefore hafter reason
  have hf : cancellation? ⟨true, reason⟩ = some cancelled := rfl
  obtain ⟨hpulled, hresult⟩ := h.run hsize hf htoken rules skip
  have hhit : hit.candidates.length = min b (n - full.length * b) := hn ▸ h.hit
  have hdiv : i / b = full.length := h.div_eq
  have hbegun : full.length * b ≤ i := h.begun
  have hroom : i < full.length * b + b := h.room
  refine ⟨?_, ?_, hcomplete⟩
  · intro hi
    have hne : hit.candidates ≠ [] := by
      rw [← List.length_pos_iff]
      omega
    rw [if_pos (Or.inl hne)] at hresult
    refine ⟨hresult, hpulled.trans ?_⟩
    show full.length * b + _ = _
    rw [hdiv, Nat.succ_mul, hhit]
    omega
  · intro hi
    have hmod : n % b = n - full.length * b := hi ▸ h.mod_eq
    have hlength : hit.candidates.length = n % b := by omega
    have hseen : n % b ≠ 0 ∨ 1 < workers ∧ 0 < n ↔
        hit.candidates ≠ [] ∨ options.isShared = true ∧ 0 < full.length := by
      rw [← hlength, ne_eq, List.length_eq_zero_iff]
      apply or_congr_right'
      intro hempty
      -- then the full batches are all there is
      have hall : n = full.length * b := by
        rw [not_not.mp hempty, List.length_nil] at hlength
        omega
      rw [hall, Nat.mul_pos_iff_of_pos_right hpos, FilterOptions.isShared, decide_eq_true_iff]
    refine ⟨hpulled.trans ?_, ?_⟩
    · show full.length * b + _ = _
      omega
    · by_cases hsees : n % b ≠ 0 ∨ 1 < workers ∧ 0 < n
      · rw [if_pos (hseen.mp hsees)] at hresult
        rw [if_pos hsees]
        exact hresult
      · rw [if_neg (hseen.not.mp hsees)] at hresult
        obtain ⟨list, hlist⟩ := hresult
        rw [if_neg hsees]
        exact hcomplete list hlist ▸ hlist

/-- Two candidates, one of which is excluded by its name. -/
def pair : List SourceStep := [.candidate ⟨"a", ["a"]⟩, .candidate ⟨"b", ["b"]⟩]

/-- Behind a full batch one worker does not see the cancellation and several do; with one more candidate it
is seen by all. -/
theorem filtering_stops_pair :
    let seen (workers : Int) := run ⟨workers, 2⟩ ⟨["b"], []⟩ [] {}
      { steps := pair ++ .cancel "" :: [.candidate ⟨"c", ["c"]⟩] }
    let last (workers : Int) := run ⟨workers, 2⟩ ⟨["b"], []⟩ [] {} { steps := pair ++ [.cancel "late"] }
    (∀ workers, (seen workers).result = .error (.bundle (.cancelled "Operation cancelled")) ∧
      (seen workers).pulled = 3) ∧
    (last 1).result = .ok ["a"] ∧ (last 4).result = .error (.bundle (.cancelled "late")) ∧
    (last 4).pulled = 2 := by
  have hbefore : ∀ reason, .cancel reason ∉ pair := by simp [pair]
  have hlast (workers : Int) := @filtering_stops workers 2 (by decide) ⟨["b"], []⟩ [] {} rfl pair []
    hbefore (by simp) "late"
  refine ⟨?_, ?_, ?_, ?_⟩
  · intro workers
    obtain ⟨hseen, -, -⟩ := @filtering_stops workers 2 (by decide) ⟨["b"], []⟩ [] {} rfl pair
      [.candidate ⟨"c", ["c"]⟩] hbefore (by simp) ""
    exact hseen (by decide)
  · exact ((hlast 1).2.1 rfl).2
  · exact ((hlast 4).2.1 rfl).2
  · exact ((hlast 4).2.1 rfl).1

end Filter

end BundleManifest
