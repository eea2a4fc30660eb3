/-
# BundleManifest.Manifest.Generation — the files of a bundle

`generate` computes the files to bundle for an application: it loads the rules, walks the tree and
filters what the walk hands out. When an output is given the manifest is written there, and its own
path can be left out of the list.
-/
import BundleManifest.Filter
import BundleManifest.Manifest.File
import BundleManifest.RuleSet.Source
import BundleManifest.Walk.Traversal

namespace BundleManifest

namespace Manifest

/-- How a manifest is generated. -/
structure Options where
  output : Option Path := none
  /-- Lines that are used in place of the pattern file. -/
  patterns : Option (List Text) := none
  workers : Int := 1
  batchSize : Int := 256
  followLinks : Bool := true
  /-- Whether the manifest itself is left out of the list. -/
  excludeManifest : Bool := true
  deriving Repr

namespace Options

/-- The options of the filter. -/
def filter (o : Options) : FilterOptions := ⟨o.workers, o.batchSize⟩

/-- The options of the walk, whose batches hold one candidate at least. -/
def walk (o : Options) : Walk.Options := ⟨o.followLinks, max 1 o.batchSize.toNat⟩

end Options

/-- The path of a file relative to a root, when all links are replaced; none if the file is not
below the root. -/
def pathBelow (fs : FileSystem) (path root : Path) : Except Failure (Option Text) :=
  match fs.resolved path with
  | .circle p => .error (.linkLoop p.text)
  | .unusable => .ok none
  | .path p =>
    match fs.resolved root with
    | .circle r => .error (.linkLoop r.text)
    | .unusable => .ok none
    | .path r => .ok ((p.below? r).map Path.text)

/-- The paths that are left out because the manifest is written there. -/
def skipped (fs : FileSystem) (options : Options) (root : Path) : Except Failure (List Text) :=
  match options.output with
  | some output =>
    if options.excludeManifest then (pathBelow fs output root).map Option.toList else .ok []
  | none => .ok []

/-- A walk as a source of candidates. -/
def sourceOf (run : Walk.Run) : Source where
  steps := run.trace.filterMap fun
    | .file c => some (.candidate c)
    | .note n => some (.note n)
    | .entered .. => none
  failure := match run.halt with
    | some (.failed f) => some f
    | _ => none

/-- The files of an application that stay, given its rules and the paths to skip. -/
def select (fs : FileSystem) (token : CancellationToken) (options : Options) (root : Path)
    (rules : RuleSet) (skip : List Text) : FilterOutcome :=
  let run := Walk.traverse options.walk Walk.Receiver.passive root ⟨fs, token⟩
  Filter.run options.filter rules skip token (sourceOf run)

/-- Generates the manifest of an application. -/
def generate (fs : FileSystem) (token : CancellationToken) (options : Options) (root : Path) :
    Outcome (List Text) :=
  let failed (notices : List Notice) (f : Failure) : Outcome (List Text) := ⟨fs, notices, .error f⟩
  match fs.probe root.text with
  | .error fault => failed [] (.file fault [root.text])
  | .ok (some .directory) =>
    match RuleSet.load (RuleSet.reader fs) root options.patterns with
    | .error f => failed [] f
    | .ok loading =>
      match skipped fs options root with
      | .error f => failed loading.notices f
      | .ok skip =>
        let selection := select fs token options root loading.rules skip
        let notices := loading.notices ++ selection.notices
        match selection.result with
        | .error f => failed notices f
        | .ok kept =>
          let files := kept.eraseDups
          let generated :=
            Notice.manifestGenerated root.text loading.rules.size files.length options.workers
          let notices := notices ++ [generated]
          match options.output with
          | none => ⟨fs, notices, .ok files⟩
          | some output =>
            let written := write fs output files
            ⟨written.files, notices ++ written.notices, written.result.map fun _ => files⟩
  | .ok _ => failed [] (.bundle (.rootMissing root.text))

end Manifest

end BundleManifest
