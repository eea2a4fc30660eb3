/-
# BundleManifest.Text.Similarity — texts that resemble each other

Two texts are compared by the code points they have in common: the longest common run, and what is
common before and after it, counted the same way. The share of common code points decides whether a
text is close enough to another one to be suggested in its place.
-/
import BundleManifest.Text.Order

namespace BundleManifest.Text

/-- The number of leading code points that two texts share. -/
def commonStart : Text → Text → Nat
  | c :: t, d :: u => if c = d then commonStart t u + 1 else 0
  | _, _ => 0

/-- A run that two texts have in common: where it starts in each, and its length. -/
structure CommonRun where
  first : Nat
  second : Nat
  length : Nat
  deriving DecidableEq, Repr

/-- The longest common run; of several the one that starts first in the first text, and then in the
second. -/
def longestRun (t u : Text) : CommonRun :=
  let runs := (List.range t.length).flatMap fun i =>
    (List.range u.length).map fun j => (⟨i, j, commonStart (t.drop i) (u.drop j)⟩ : CommonRun)
  runs.foldl (fun best r => if best.length < r.length then r else best) ⟨0, 0, 0⟩

/-- The number of code points that two texts have in common, counted down to a depth. -/
def commonCount : Nat → Text → Text → Nat
  | 0, _, _ => 0
  | depth + 1, t, u =>
    let run := longestRun t u
    if run.length = 0 then 0
    else
      commonCount depth (t.take run.first) (u.take run.second) + run.length
        + commonCount depth (t.drop (run.first + run.length)) (u.drop (run.second + run.length))

/-- The share of common code points, as twice their number over the length of both texts. -/
def likeness (t u : Text) : Nat × Nat :=
  (2 * commonCount (t.length + 1) t u, t.length + u.length)

/-- Whether a share is at least three fifths. -/
def isClose (share : Nat × Nat) : Bool := 3 * share.2 ≤ 5 * share.1

/-- The most texts that are suggested. -/
def suggestionLimit : Nat := 3

/-- The texts that resemble a given one most, in code point order. -/
def suggestions (t : Text) (choices : List Text) : List Text :=
  let close := (choices.map fun u => (likeness u t, u)).filter fun e => isClose e.1
  let better (a b : (Nat × Nat) × Text) : Bool :=
    let x := a.1.1 * b.1.2
    let y := b.1.1 * a.1.2
    y < x || (x == y && le b.2 a.2)
  sort (((close.mergeSort better).take suggestionLimit).map (·.2))

end BundleManifest.Text
