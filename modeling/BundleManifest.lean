import BundleManifest.RuleSet.Basic
import BundleManifest.RuleSet.Source
import BundleManifest.Filter
import BundleManifest.FileSystem.Canonical
import BundleManifest.FileSystem.Change
import BundleManifest.Walk.Traversal
import BundleManifest.Manifest.File
import BundleManifest.Manifest.Generation
import BundleManifest.Config.Load
import BundleManifest.Main
import BundleManifest.Proofs.Text.Order
import BundleManifest.Proofs.Text.Utf8
import BundleManifest.Proofs.FileSystem.Changes
import BundleManifest.Proofs.FileSystem.Resolution
import BundleManifest.Proofs.FileSystem.Tree
import BundleManifest.Proofs.FileSystem.Leads
import BundleManifest.Proofs.Walk.Steady
import BundleManifest.Proofs.Walk.Sorted
import BundleManifest.Proofs.Walk.Coverage
import BundleManifest.Proofs.Walk.Links
import BundleManifest.Proofs.Walk.Termination
import BundleManifest.Proofs.Walk.Candidates
import BundleManifest.Proofs.Manifest.Batches
import BundleManifest.Proofs.Manifest.Selection
import BundleManifest.Proofs.Walk.Reachability
import BundleManifest.Proofs.Walk.Cycles
import BundleManifest.Proofs.Walk.Following
import BundleManifest.Proofs.FileSystem.Publication
import BundleManifest.Proofs.FileSystem.Places
import BundleManifest.Proofs.FileSystem.Renaming
import BundleManifest.Proofs.Manifest.Writing
import BundleManifest.Proofs.Walk.Publication
import BundleManifest.Proofs.Manifest.Repetition
import BundleManifest.Proofs.Manifest.Lines
import BundleManifest.Proofs.FileSystem.Replacement
import BundleManifest.Proofs.Manifest.RoundTrip
import BundleManifest.Proofs.FileSystem.Passage
import BundleManifest.Proofs.FileSystem.Descent
import BundleManifest.Proofs.FileSystem.Standing
import BundleManifest.Proofs.FileSystem.Unfolding
import BundleManifest.Proofs.Manifest.Exclusion
import BundleManifest.Proofs.FileSystem.Removal
import BundleManifest.Proofs.FileSystem.Asking
import BundleManifest.Proofs.Walk.Cancellation
import BundleManifest.Proofs.Manifest.Atomicity
import BundleManifest.Proofs.Manifest.OnePass
import BundleManifest.Proofs.Manifest.Stages
import BundleManifest.Proofs.Manifest.Interruption
import BundleManifest.Proofs.Manifest.Failures
import BundleManifest.Proofs.Pattern.Language
import BundleManifest.Proofs.Pattern.Parsing
import BundleManifest.Proofs.Pattern.Directories
import BundleManifest.Proofs.RuleSet.Union
import BundleManifest.Proofs.Manifest.Diagnosis
import BundleManifest.Proofs.Walk.NormalForm
import BundleManifest.Proofs.Walk.Guise
import BundleManifest.Proofs.Manifest.Reproduction
import BundleManifest.Proofs.Text.Marked
import BundleManifest.Proofs.Text.Breaks
import BundleManifest.Proofs.RuleSet.Written
import BundleManifest.Proofs.FileSystem.Parts
import BundleManifest.Proofs.FileSystem.Pruning
import BundleManifest.Proofs.FileSystem.Edits
import BundleManifest.Proofs.FileSystem.WellFormed
import BundleManifest.Proofs.Walk.Vanishing
import BundleManifest.Proofs.Config.Coercion
import BundleManifest.Proofs.Config.Precedence
import BundleManifest.Proofs.Config.Refusals
import BundleManifest.Proofs.Manifest.Fresh
import BundleManifest.Proofs.CommandLine.Screen
import BundleManifest.Proofs.CommandLine.Options
import BundleManifest.Proofs.CommandLine.Modes
import BundleManifest.Proofs.Text.Lossy
import BundleManifest.Proofs.FileSystem.Emptied
import BundleManifest.Proofs.Walk.Contents
import BundleManifest.Proofs.RuleSet.Naming
import BundleManifest.Proofs.Manifest.Naming
import BundleManifest.Proofs.Text.Trim
import BundleManifest.Proofs.Pattern.Canonical
import BundleManifest.Proofs.Pattern.FullPath
import BundleManifest.Proofs.Manifest.Stopping
import BundleManifest.Proofs.Walk.Suspension
import BundleManifest.Proofs.Walk.Promptness
import BundleManifest.Proofs.RuleSet.Conventions
import BundleManifest.Proofs.Candidate
import BundleManifest.Proofs.Config.Stability
import BundleManifest.Proofs.FileSystem.Absolute
import BundleManifest.Proofs.Manifest.Creation
