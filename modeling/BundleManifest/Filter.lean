/-
# BundleManifest.Filter — the candidates that stay

Filtering takes candidates from a source, in batches, and keeps the paths that no rule excludes,
that are not to be skipped, and that can stand on a line of their own. Between batches it looks at
the cancellation token. A source may report notices, and may be cancelled, while candidates are
taken from it, so a source is a list of steps; `batches` cuts it and remembers, for each batch,
what happened while it was taken. With several workers batches are handed out as they are taken and
the token is looked at once more before the results are put together in order.
-/
import BundleManifest.Cancellation
import BundleManifest.Failure
import BundleManifest.Notice
import BundleManifest.RuleSet.Basic

namespace BundleManifest

/-- What a source of candidates does next. -/
inductive SourceStep where
  | candidate (c : Candidate)
  | note (n : Notice)
  | cancel (reason : Text)
  deriving Repr

/-- A source of candidates: its steps, and the failure that ends it, if one does. -/
structure Source where
  steps : List SourceStep
  failure : Option Failure := none
  deriving Repr

/-- How candidates are filtered. -/
structure FilterOptions where
  workers : Int := 1
  batchSize : Int := 256
  deriving DecidableEq, Repr

namespace FilterOptions

/-- The largest batch that can be asked for. -/
def batchLimit : Nat := 0x7FFFFFFFFFFFFFFF

/-- The number of candidates in a batch: at least one. -/
def size (o : FilterOptions) : Nat := max 1 o.batchSize.toNat

/-- Whether batches are handed to workers. -/
def isShared (o : FilterOptions) : Bool := 1 < o.workers

end FilterOptions

/-- Candidates that are taken from a source together. -/
structure Batch where
  /-- What was reported while the batch was taken. -/
  notices : List Notice
  candidates : List Candidate
  /-- The token when the batch was complete. -/
  token : CancellationToken

/-- What filtering gives. -/
structure FilterOutcome where
  notices : List Notice
  /-- The number of candidates taken from the source. -/
  pulled : Nat
  result : Except Failure (List Text)

namespace Filter

/-- Whether a path can stand on a line of its own. -/
def isRepresentable (path : Text) : Bool := !path.contains '\n' && !path.contains '\r'

/-- Whether a candidate is left out without a word. -/
def isDropped (rules : RuleSet) (skip : List Text) (c : Candidate) : Bool :=
  skip.contains c.path || rules.excludes c

/-- The paths of the candidates that stay. -/
def kept (rules : RuleSet) (skip : List Text) (candidates : List Candidate) : List Text :=
  (candidates.filter fun c => !isDropped rules skip c && isRepresentable c.path).map Candidate.path

/-- One notice for each candidate that is left out only because of its line breaks. -/
def complaints (rules : RuleSet) (skip : List Text) (onWorker : Bool)
    (candidates : List Candidate) : List Notice :=
  (candidates.filter fun c => !isDropped rules skip c && !isRepresentable c.path).map fun c =>
    .pathUnrepresentable c.path onWorker

theorem kept_append (rules : RuleSet) (skip : List Text) (cs ds : List Candidate) :
    kept rules skip (cs ++ ds) = kept rules skip cs ++ kept rules skip ds := by
  simp [kept]

theorem complaints_append (rules : RuleSet) (skip : List Text) (onWorker : Bool)
    (cs ds : List Candidate) :
    complaints rules skip onWorker (cs ++ ds)
      = complaints rules skip onWorker cs ++ complaints rules skip onWorker ds := by
  simp [complaints]

/-- The batches of a source, the first of which has been begun already. The last one is smaller
than the others, and may be empty. -/
def batches (size : Nat) : Batch → List SourceStep → List Batch
  | begun, [] => [begun]
  | begun, .note n :: steps => batches size { begun with notices := begun.notices ++ [n] } steps
  | begun, .cancel reason :: steps =>
    batches size { begun with token := begun.token.cancel reason } steps
  | begun, .candidate c :: steps =>
    let taken := { begun with candidates := begun.candidates ++ [c] }
    if size ≤ taken.candidates.length then taken :: batches size ⟨[], [], taken.token⟩ steps
    else batches size taken steps

/-- The failure of a cancelled operation; none if the operation goes on. -/
def cancellation? (token : CancellationToken) : Option Failure :=
  token.check.map fun message => .bundle (.cancelled message)

/-- Filters batches one after the other. A failure of the source hits the last one. -/
def collect (rules : RuleSet) (skip : List Text) (onWorker : Bool) (failure : Option Failure) :
    List Batch → FilterOutcome
  | [] => ⟨[], 0, .ok []⟩
  | batch :: rest =>
    match failure, rest with
    -- a source that fails does so while its last batch is taken
    | some f, [] => ⟨batch.notices, batch.candidates.length, .error f⟩
    | _, _ =>
      if batch.candidates = [] then ⟨batch.notices, 0, .ok []⟩
      else match cancellation? batch.token with
        | some f => ⟨batch.notices, batch.candidates.length, .error f⟩
        | none =>
          let others := collect rules skip onWorker failure rest
          { notices :=
              batch.notices ++ complaints rules skip onWorker batch.candidates ++ others.notices
            pulled := batch.candidates.length + others.pulled
            result := others.result.map (kept rules skip batch.candidates ++ ·) }

/-- What becomes of the results of workers: they are put together only if the token still allows
it. -/
def gather (token : CancellationToken) (outcome : FilterOutcome) : FilterOutcome :=
  match outcome.result, cancellation? token with
  | .ok _, some f => if outcome.pulled = 0 then outcome else { outcome with result := .error f }
  | _, _ => outcome

/-- Filters the candidates of a source. -/
def run (options : FilterOptions) (rules : RuleSet) (skip : List Text) (token : CancellationToken)
    (source : Source) : FilterOutcome :=
  if FilterOptions.batchLimit < options.size then ⟨[], 0, .error .batchTooLarge⟩
  else
    let taken := batches options.size ⟨[], [], token⟩ source.steps
    let outcome := collect rules skip options.isShared source.failure taken
    match options.isShared, taken.getLast? with
    | true, some last => gather last.token outcome
    | _, _ => outcome

end Filter

end BundleManifest
