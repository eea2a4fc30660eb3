/-
# BundleManifest.Proofs.Manifest.OnePass — batches and workers give what one pass gives

A source can be filtered batch by batch, or its batches can be handed to a pool of workers. `Pool` is
the second way with nothing left out: candidates are pulled one at a time, a batch is submitted when it
is full or the source has come to its end, and every worker goes on with its job whenever it likes. What
the pool still has to do and what it has done always add up to the same (`Pool.agrees_of_step`), so
whatever the schedule is, the results, put together in the order of submission, are those of one pass
over the source (`filtering_is_one_pass`).
-/
import BundleManifest.Proofs.Manifest.Batches

namespace BundleManifest.Filter

open Relation (ReflTransGen)

theorem kept_cons (rules : RuleSet) (skip : List Text) (c : Candidate) (cs : List Candidate) :
    kept rules skip (c :: cs) = kept rules skip [c] ++ kept rules skip cs :=
  kept_append rules skip [c] cs

theorem complaints_perm (rules : RuleSet) (skip : List Text) (onWorker : Bool)
    {cs ds : List Candidate} (h : cs.Perm ds) :
    (complaints rules skip onWorker cs).Perm (complaints rules skip onWorker ds) :=
  (h.filter _).map _

/-! ## Workers -/

/-- The work on one batch: the candidates that are left of it, and what has been kept. -/
structure Job where
  left : List Candidate
  kept : List Text

/-- Workers that filter a source. -/
structure Pool where
  /-- What the source will do next. -/
  steps : List SourceStep
  /-- The batch that is being taken. -/
  begun : List Candidate := []
  /-- The jobs in the order of submission. -/
  jobs : List Job := []
  notices : List Notice := []
  /-- The number of candidates taken from the source. -/
  pulled : Nat := 0

namespace Pool

/-- One step of somebody. Nobody looks at a token, so cancelling it changes nothing. -/
inductive Step (rules : RuleSet) (skip : List Text) (size : Nat) : Pool → Pool → Prop
  | note {p : Pool} {n : Notice} {steps : List SourceStep} (hroom : p.begun.length < size)
    (hnext : p.steps = .note n :: steps) :
    Step rules skip size p { p with steps, notices := p.notices ++ [n] }
  | cancel {p : Pool} {reason : Text} {steps : List SourceStep} (hroom : p.begun.length < size)
    (hnext : p.steps = .cancel reason :: steps) : Step rules skip size p { p with steps }
  | pull {p : Pool} {c : Candidate} {steps : List SourceStep} (hroom : p.begun.length < size)
    (hnext : p.steps = .candidate c :: steps) :
    Step rules skip size p { p with steps, begun := p.begun ++ [c], pulled := p.pulled + 1 }
  | submit {p : Pool} (hne : p.begun ≠ []) (hend : size ≤ p.begun.length ∨ p.steps = []) :
    Step rules skip size p { p with begun := [], jobs := p.jobs ++ [⟨p.begun, []⟩] }
  /-- A worker decides about the next candidate of its job. -/
  | work {p : Pool} {c : Candidate} {left : List Candidate} {done : List Text}
    {before after : List Job} (hjob : p.jobs = before ++ ⟨c :: left, done⟩ :: after) :
    Step rules skip size p
      { p with
        jobs := before ++ ⟨left, done ++ Filter.kept rules skip [c]⟩ :: after
        notices := p.notices ++ complaints rules skip true [c] }

/-- The results, put together in the order of submission. -/
def files (p : Pool) : List Text := p.jobs.flatMap Job.kept

/-- There is nothing left to do. -/
structure Done (p : Pool) : Prop where
  steps : p.steps = []
  begun : p.begun = []
  jobs : ∀ job ∈ p.jobs, job.left = []

/-! ## What a step preserves -/

/-- The candidates that nobody has decided about. -/
def undecided (p : Pool) : List Candidate :=
  p.jobs.flatMap Job.left ++ p.begun ++ Source.candidates p.steps

/-- What will have been kept in the end. -/
def prospect (rules : RuleSet) (skip : List Text) (p : Pool) : List Text :=
  p.jobs.flatMap (fun job => job.kept ++ kept rules skip job.left)
    ++ kept rules skip (p.begun ++ Source.candidates p.steps)

/-- What will have been reported in the end, in some order. -/
def reports (rules : RuleSet) (skip : List Text) (p : Pool) : List Notice :=
  p.notices ++ Source.notices p.steps ++ complaints rules skip true p.undecided

/-- A pool comes to the same end as another one. -/
structure Agrees (rules : RuleSet) (skip : List Text) (p q : Pool) : Prop where
  prospect : q.prospect rules skip = p.prospect rules skip
  pulled : q.pulled + (Source.candidates q.steps).length
    = p.pulled + (Source.candidates p.steps).length
  reports : (q.reports rules skip).Perm (p.reports rules skip)

section
variable {rules : RuleSet} {skip : List Text} {size : Nat} {p q : Pool}

theorem Agrees.trans {r : Pool} (h : Agrees rules skip p q) (h' : Agrees rules skip q r) :
    Agrees rules skip p r :=
  ⟨h'.prospect.trans h.prospect, h'.pulled.trans h.pulled, h'.reports.trans h.reports⟩

/-- No step changes what the pool comes to. -/
theorem agrees_of_step (h : Step rules skip size p q) : Agrees rules skip p q := by
  cases h with
  | note _ hnext =>
    constructor
    · simp [prospect, hnext]
    · simp [hnext]
    · simp [reports, undecided, hnext]
  | cancel _ hnext =>
    constructor
    · simp [prospect, hnext]
    · simp [hnext]
    · simp [reports, undecided, hnext]
  | pull _ hnext =>
    constructor
    · simp [prospect, hnext]
    · simp only [hnext, Source.candidates_candidate, List.length_cons]
      omega
    · simp [reports, undecided, hnext]
  | submit =>
    constructor
    · simp [prospect, kept_append]
    · rfl
    · simp [reports, undecided]
  | @work c left done before after hjob =>
    constructor
    · simp only [prospect, hjob, List.flatMap_append, List.flatMap_cons, List.append_assoc,
        kept_cons rules skip c left]
    · rfl
    · -- what is said about a candidate that leaves its job joins what has been said before
      have hundecided : p.undecided.Perm (c :: undecided { p with
          jobs := before ++ ⟨left, done ++ Filter.kept rules skip [c]⟩ :: after }) := by
        simp only [undecided, hjob, List.flatMap_append, List.flatMap_cons, List.append_assoc,
          List.cons_append]
        exact List.perm_middle
      have hcomplaints := complaints_perm rules skip true hundecided
      rw [← List.singleton_append, complaints_append] at hcomplaints
      refine List.Perm.trans ?_ (hcomplaints.symm.append_left _)
      simp only [reports, List.append_assoc]
      exact (List.perm_append_comm_assoc ..).append_left _

/-- Nor does any number of steps. -/
theorem agrees_of_steps (h : ReflTransGen (Step rules skip size) p q) : Agrees rules skip p q := by
  induction h with
  | refl => exact ⟨rfl, rfl, .refl _⟩
  | tail _ hstep ih => exact ih.trans (agrees_of_step hstep)

/-! ## Every schedule comes to its end -/

/-- A bound on the number of steps that are left. -/
def weight (p : Pool) : Nat :=
  3 * p.steps.length + 2 * p.begun.length + (p.jobs.map fun job => job.left.length).sum

theorem weight_lt_of_step (h : Step rules skip size p q) : q.weight < p.weight := by
  cases h with
  | note _ hnext =>
    simp only [weight, hnext, List.length_cons]
    omega
  | cancel _ hnext =>
    simp only [weight, hnext, List.length_cons]
    omega
  | pull _ hnext =>
    simp only [weight, hnext, List.length_cons, List.length_append, List.length_nil]
    omega
  | submit hne =>
    have hpos := List.length_pos_iff.mpr hne
    simp only [weight, List.map_append, List.sum_append, List.map_cons, List.map_nil, List.sum_cons,
      List.sum_nil, List.length_nil]
    omega
  | work hjob =>
    simp only [weight, hjob, List.map_append, List.sum_append, List.map_cons, List.sum_cons,
      List.length_cons]
    omega

/-- There is no schedule without an end. -/
theorem wellFounded_step : WellFounded fun q p => Step rules skip size p q :=
  Subrelation.wf weight_lt_of_step (measure weight).wf

/-- Whoever has something to do can do it. -/
theorem done_or_step (hsize : 0 < size) (p : Pool) :
    p.Done ∨ ∃ q, Step rules skip size p q := by
  by_cases hfull : size ≤ p.begun.length
  · exact Or.inr ⟨_, .submit (List.length_pos_iff.mp (by omega)) (Or.inl hfull)⟩
  have hroom : p.begun.length < size := Nat.lt_of_not_le hfull
  cases hsteps : p.steps with
  | cons step steps =>
    cases step with
    | note n => exact Or.inr ⟨_, .note hroom hsteps⟩
    | cancel reason => exact Or.inr ⟨_, .cancel hroom hsteps⟩
    | candidate c => exact Or.inr ⟨_, .pull hroom hsteps⟩
  | nil =>
    by_cases hbegun : p.begun = []
    · by_cases hjobs : ∀ job ∈ p.jobs, job.left = []
      · exact Or.inl ⟨hsteps, hbegun, hjobs⟩
      · obtain ⟨⟨left, done⟩, hjob, hleft⟩ : ∃ job ∈ p.jobs, job.left ≠ [] := by
          simpa using hjobs
        obtain ⟨c, rest, rfl⟩ := List.exists_cons_of_ne_nil hleft
        obtain ⟨before, after, hsplit⟩ := List.append_of_mem hjob
        exact Or.inr ⟨_, .work hsplit⟩
    · exact Or.inr ⟨_, .submit hbegun (Or.inr hsteps)⟩

/-- What a pool that is done has kept, pulled and reported is what it comes to. -/
theorem eq_of_done (h : p.Done) :
    p.prospect rules skip = p.files ∧ Source.candidates p.steps = [] ∧
      p.reports rules skip = p.notices := by
  have hjobs : p.jobs.flatMap (fun job => job.kept ++ kept rules skip job.left) = p.files := by
    apply List.flatMap_congr
    intro job hjob
    rw [h.jobs job hjob]
    exact List.append_nil _
  have hleft : p.jobs.flatMap Job.left = [] := List.flatMap_eq_nil_iff.mpr h.jobs
  refine ⟨?_, by simp [h.steps], ?_⟩
  · rw [prospect, hjobs, h.begun, h.steps]
    exact List.append_nil _
  · rw [reports, undecided, hleft, h.begun, h.steps]
    simp [complaints]

/-- A pool that is done accounts for every candidate of its source. -/
theorem accounts_of_done {steps : List SourceStep}
    (hrun : ReflTransGen (Step rules skip size) { steps } p) (h : p.Done) :
    p.files = kept rules skip (Source.candidates steps) ∧
      p.pulled = (Source.candidates steps).length ∧
      p.notices.Perm (Source.notices steps
        ++ complaints rules skip true (Source.candidates steps)) := by
  obtain ⟨hfiles, hnone, hreports⟩ := @eq_of_done rules skip p h
  have hagrees := agrees_of_steps hrun
  have hpulled := hagrees.pulled
  have hnotices := hagrees.reports
  rw [hnone] at hpulled
  rw [hreports] at hnotices
  refine ⟨?_, ?_, ?_⟩
  · rw [← hfiles, hagrees.prospect]
    rfl
  · simpa using hpulled
  · simpa [reports, undecided] using hnotices

end

end Pool

/-! ## One pass -/

/-- What is kept, in words. -/
theorem kept_eq (rules : RuleSet) (skip : List Text) (candidates : List Candidate) :
    kept rules skip candidates = (candidates.filter fun c => c.path ∉ skip ∧
      rules.excludes c = false ∧ CodePoint.ofChar '\n' ∉ c.path ∧
      CodePoint.ofChar '\r' ∉ c.path).map Candidate.path := by
  unfold kept
  congr 1
  apply List.filter_congr
  intro c _
  rw [Bool.eq_iff_iff]
  simp [isDropped, isRepresentable, and_assoc]

/-- What is reported, in words. -/
theorem complaints_eq (rules : RuleSet) (skip : List Text) (onWorker : Bool)
    (candidates : List Candidate) :
    complaints rules skip onWorker candidates = (candidates.filter fun c => c.path ∉ skip ∧
      rules.excludes c = false ∧ (CodePoint.ofChar '\n' ∈ c.path ∨
        CodePoint.ofChar '\r' ∈ c.path)).map fun c => .pathUnrepresentable c.path onWorker := by
  unfold complaints
  congr 1
  apply List.filter_congr
  intro c _
  rw [Bool.eq_iff_iff]
  simp only [isDropped, isRepresentable, Bool.and_eq_true, Bool.not_eq_true', Bool.or_eq_false_iff,
    Bool.and_eq_false_iff, Bool.not_eq_false', List.contains_eq_mem, decide_eq_false_iff_not,
    decide_eq_true_eq, and_assoc]

/-- Nothing is left out without a reason. -/
theorem kept_or_reported (rules : RuleSet) (skip : List Text) (onWorker : Bool)
    {candidates : List Candidate} {c : Candidate} (hc : c ∈ candidates) :
    c.path ∈ skip ∨ rules.excludes c = true ∨ c.path ∈ kept rules skip candidates ∨
      .pathUnrepresentable c.path onWorker ∈ complaints rules skip onWorker candidates := by
  by_cases hskip : c.path ∈ skip
  · exact Or.inl hskip
  cases hexcludes : rules.excludes c with
  | true => exact Or.inr (Or.inl rfl)
  | false =>
    right; right
    have hdropped : isDropped rules skip c = false := by simp [isDropped, hskip, hexcludes]
    cases hrepresentable : isRepresentable c.path with
    | true =>
      left
      apply List.mem_map_of_mem
      exact List.mem_filter.mpr ⟨hc, by rw [hdropped, hrepresentable]; rfl⟩
    | false =>
      right
      exact List.mem_map.mpr
        ⟨c, List.mem_filter.mpr ⟨hc, by rw [hdropped, hrepresentable]; rfl⟩, rfl⟩

/-- Filtering is one pass over the source, in batches of any size and with any number of workers. Every
candidate is pulled once, what stays is listed in the order of the source, and each candidate that is
left out only because of its line breaks is reported once. Under every schedule a pool of workers comes
to the same end. -/
theorem filtering_is_one_pass {workers batchSize : Int} (hbatch : batchSize < 2 ^ 63)
    (rules : RuleSet) (skip : List Text) {token : CancellationToken}
    (htoken : token.isCancelled = false) {steps : List SourceStep}
    (hsteps : ∀ reason, .cancel reason ∉ steps) :
    let options : FilterOptions := ⟨workers, batchSize⟩
    let outcome := run options rules skip token { steps }
    let candidates := Source.candidates steps
    let files := (candidates.filter fun c => c.path ∉ skip ∧ rules.excludes c = false ∧
      CodePoint.ofChar '\n' ∉ c.path ∧ CodePoint.ofChar '\r' ∉ c.path).map Candidate.path
    let reports (onWorker : Bool) := (candidates.filter fun c => c.path ∉ skip ∧
      rules.excludes c = false ∧ (CodePoint.ofChar '\n' ∈ c.path ∨
        CodePoint.ofChar '\r' ∈ c.path)).map fun c => Notice.pathUnrepresentable c.path onWorker
    outcome.result = .ok files ∧ outcome.pulled = candidates.length ∧
    outcome.notices.Perm (Source.notices steps ++ reports options.isShared) ∧
    (∀ c ∈ candidates, c.path ∈ skip ∨ rules.excludes c = true ∨ c.path ∈ files ∨
      .pathUnrepresentable c.path options.isShared ∈ outcome.notices) ∧
    (WellFounded fun q p => Pool.Step rules skip options.size p q) ∧
    ∀ p, ReflTransGen (Pool.Step rules skip options.size) { steps } p →
      (∃ q, Pool.Step rules skip options.size p q) ∨
        p.files = files ∧ p.pulled = candidates.length ∧
          p.notices.Perm (Source.notices steps ++ reports true) := by
  intro options outcome candidates files reports
  have hsize : options.size ≤ FilterOptions.batchLimit := FilterOptions.size_le_batchLimit hbatch
  have hresult := run_result hsize rules skip htoken hsteps
  obtain ⟨-, haccounts⟩ := accounts_of_run hresult
  have hfiles : kept rules skip candidates = files := kept_eq rules skip candidates
  have hreports (onWorker : Bool) : complaints rules skip onWorker candidates = reports onWorker :=
    complaints_eq rules skip onWorker candidates
  have hnotices := haccounts.notices
  rw [hreports] at hnotices
  refine ⟨hfiles ▸ hresult, haccounts.pulled, hnotices, ?_, Pool.wellFounded_step, ?_⟩
  · intro c hc
    have hcases := kept_or_reported rules skip options.isShared hc
    rw [hfiles, hreports] at hcases
    refine hcases.imp_right (Or.imp_right (Or.imp_right fun hreported => ?_))
    exact hnotices.mem_iff.mpr (List.mem_append_right _ hreported)
  · intro p hrun
    rcases Pool.done_or_step (Nat.lt_of_lt_of_le Nat.one_pos (Nat.le_max_left _ _)) p with
      hdone | hstep
    · have hpool := Pool.accounts_of_done hrun hdone
      rw [hfiles, hreports] at hpool
      exact Or.inr hpool
    · exact Or.inl hstep

/-- A source with a file that comes twice, one that is excluded by the name in its segments, one that is
skipped, and one with a line break. -/
def motley : List SourceStep :=
  [.candidate ⟨"b", []⟩, .note (.walkLinkRevisit "l"), .candidate ⟨"a\n", ["z"]⟩,
    .candidate ⟨"b", []⟩, .candidate ⟨"t", ["x"]⟩, .candidate ⟨"s", ["s"]⟩]

set_option maxRecDepth 10000 in
theorem filtering_is_one_pass_motley :
    let outcome := run ⟨4, -3⟩ ⟨["x"], []⟩ ["s"] {} { steps := motley }
    let notices : List Notice := [.walkLinkRevisit "l", .pathUnrepresentable "a\n" true]
    outcome.result = .ok ["b", "b"] ∧ outcome.pulled = 5 ∧ outcome.notices.Perm notices ∧
    ∀ p, ReflTransGen (Pool.Step ⟨["x"], []⟩ ["s"] 1) { steps := motley } p →
      (∃ q, Pool.Step ⟨["x"], []⟩ ["s"] 1 p q) ∨
        p.files = ["b", "b"] ∧ p.pulled = 5 ∧ p.notices.Perm notices := by
  obtain ⟨hresult, hpulled, hnotices, -, -, hpool⟩ :=
    @filtering_is_one_pass 4 (-3) (by decide) ⟨["x"], []⟩ ["s"] {} rfl motley (by simp [motley])
  exact ⟨hresult, hpulled, hnotices, hpool⟩

end BundleManifest.Filter
