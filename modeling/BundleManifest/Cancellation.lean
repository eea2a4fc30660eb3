/-
# BundleManifest.Cancellation — cooperative cancellation

A long operation looks at a token from time to time and stops when it has been cancelled. A token
remembers whether it was cancelled and the reason given last.
-/
import BundleManifest.Text.Basic

namespace BundleManifest

/-- A token that can be cancelled; a fresh one is not. -/
structure CancellationToken where
  isCancelled : Bool := false
  reason : Text := []
  deriving DecidableEq, Repr

namespace CancellationToken

/-- The reason of a cancellation that gives none. -/
def defaultReason : Text := "cancelled"

/-- What a cancelled operation says when the reason is empty. -/
def defaultMessage : Text := "Operation cancelled"

/-- The token after a cancellation. -/
def cancel (_token : CancellationToken) (reason : Text) : CancellationToken := ⟨true, reason⟩

/-- The message with which an operation that looks at the token stops; none if it goes on. -/
def check (token : CancellationToken) : Option Text :=
  if token.isCancelled then
    some (if token.reason = [] then defaultMessage else token.reason)
  else none

/-- Whoever looks at a cancelled token stops. -/
theorem check_cancel (token : CancellationToken) (reason : Text) :
    (token.cancel reason).check = some (if reason = [] then defaultMessage else reason) :=
  rfl

/-- An operation goes on exactly as long as its token is not cancelled. -/
theorem check_eq_none_iff {token : CancellationToken} :
    token.check = none ↔ token.isCancelled = false := by
  cases h : token.isCancelled <;> simp [check, h]

theorem exists_check {token : CancellationToken} (h : token.isCancelled = true) :
    ∃ message, token.check = some message := by
  unfold check
  rw [h]
  exact ⟨_, rfl⟩

end CancellationToken

end BundleManifest
