/-
# BundleManifest.Pattern.Wildcard — templates with stars and question marks

In a template `*` stands for any run of code points inside one path segment and `?` for exactly one
code point; neither stands for a slash. Every other code point stands for itself. The language of a
template is the relation `Wildcard.Matches`; `Wildcard.matches` decides it.
-/
import BundleManifest.Text.Basic

namespace BundleManifest.Wildcard

/-- Whether a code point of a template stands for something other than itself. -/
def isWild (c : CodePoint) : Bool := c = '*' || c = '?'

/-- The text can be cut into one piece per code point of the template. -/
inductive Matches : Text → Text → Prop where
  | nil : Matches [] []
  | star {template run text : Text} :
      CodePoint.ofChar '/' ∉ run → Matches template text →
        Matches (CodePoint.ofChar '*' :: template) (run ++ text)
  | any {template text : Text} {c : CodePoint} :
      c ≠ '/' → Matches template text → Matches (CodePoint.ofChar '?' :: template) (c :: text)
  | self {template text : Text} {c : CodePoint} :
      isWild c = false → Matches template text → Matches (c :: template) (c :: text)

/-- Whether `accepts` holds of what remains after some run of code points without a slash. -/
def afterRun (accepts : Text → Bool) : Text → Bool
  | [] => accepts []
  | c :: text => accepts (c :: text) || (c != '/' && afterRun accepts text)

/-- Whether a template matches a whole text. -/
def «matches» : Text → Text → Bool
  | [], text => text.isEmpty
  | t :: template, text =>
    if t = '*' then afterRun («matches» template) text
    else match text with
      | [] => false
      | c :: rest => (if t = '?' then c != '/' else c == t) && «matches» template rest

end BundleManifest.Wildcard
