/-
# BundleManifest.CommandLine.Program — what the program does

`run` takes the arguments of the program, without its name, and the environment, and gives all that
the program leaves behind: the changed file system, the exit code, what it writes to its two
streams, and its log. Wrong command lines exit with 2 and errors of the library with 1. Failures
that nobody handles end the program without an exit code of its own.
-/
import BundleManifest.CommandLine.Screen
import BundleManifest.CommandLine.Usage
import BundleManifest.Config.Load
import BundleManifest.Manifest.Generation

namespace BundleManifest.CommandLine

/-- What the program leaves behind. -/
structure Effect where
  files : FileSystem
  exit : Except Failure Nat
  output : Text := []
  errors : Text := []
  /-- One line of the log for each notice that is shown, as fields. -/
  log : List Settings := []

/-- The version of the program. -/
def version : Text := "0.1.0"

/-- The name by which the program calls itself. -/
def programName : Text := "deploybundle"

/-- What ends a command before it is run. -/
inductive Stop where
  | usage (fault : UsageFault)
  | failure (f : Failure)
  | help

/-! ## Values of parameters -/

/-- The name of a file as messages show it: bytes that are not text are replaced. -/
def shownName (name : Text) : Except Failure Text :=
  match Utf8.encode name with
  | .ok bytes => .ok (Utf8.decodeLossy bytes)
  | .error u => .error (.unencodable u)

/-- A wrong value that is about a file. -/
def aboutFile (parameter : Text) (fault : Text → ValueFault) (name : Text) : Stop :=
  match shownName name with
  | .ok shown => .usage (.value parameter (fault shown))
  | .error f => .failure f

/-- The application root: a directory that exists. -/
def rootOf (fs : FileSystem) (name : Text) : Except Stop Path :=
  let parameter : Text := "'[ROOT]'"
  match fs.stat name with
  | .error (.fault _) => .error (aboutFile parameter .absentDirectory name)
  | .error fault => .error (.failure (Failure.ofPath fault name))
  | .ok i =>
    if fs.kind? i = some .regular then .error (aboutFile parameter .fileForDirectory name)
    else .ok (Path.ofText name)

/-- The path of a manifest, which may not be a directory. -/
def outputOf (fs : FileSystem) (name : Text) : Except Stop Path :=
  match fs.stat name with
  | .ok i =>
    if fs.kind? i = some .directory then
      .error (aboutFile "'--output' / '-o'" .directoryForFile name)
    else .ok (Path.ofText name)
  | .error (.fault _) => .ok (Path.ofText name)
  | .error fault => .error (.failure (Failure.ofPath fault name))

/-- The integer that a parameter is given. -/
def integerOf (parameter t : Text) : Except Stop Int :=
  match Text.readInt? t with
  | some n => .ok n
  | none => .error (.usage (.value parameter (.notInteger t)))

/-- The settings that one option of the `manifest` command supplies. -/
def suppliedBy (fs : FileSystem) (a : Arguments) : Setting → Except Stop Settings
  | .output => do
    match a.value? .output with
    | some t => return [("manifest_path", .text (← outputOf fs t).text)]
    | none => return []
  | .workers => do
    match a.value? .workers with
    | some t => return [("workers", .int (← integerOf "'--workers' / '-w'" t))]
    | none => return []
  | .batchSize => do
    match a.value? .batchSize with
    | some t => return [("batch_size", .int (← integerOf "'--batch-size'" t))]
    | none => return []
  | .followLinks | .noFollowLinks =>
    match a.last? [.followLinks, .noFollowLinks] with
    | some s => return [("follow_symlinks", .bool (s = .followLinks))]
    | none => return []
  | .debug => return [("debug", .bool true)]
  | .jsonLogs => return [("json_logs", .bool true)]
  | .help | .version => return []

/-- The settings that the options of a command supply. Values are looked at in the order in which
the options are given. -/
def supplied (fs : FileSystem) (a : Arguments) : List Setting → Except Stop Settings
  | [] => .ok []
  | s :: rest => do
    let first ← suppliedBy fs a s
    return first ++ (← supplied fs a rest)

/-- The root among the other arguments of a command; the working directory if there is none. More
arguments than the command takes are refused, once the root has been looked at. -/
def rootAmong (fs : FileSystem) (others : List Text) : Except Stop Path := do
  let root ← rootOf fs (others.headD Text.dot)
  match others.drop 1 with
  | [] => return root
  | surplus => throw (.usage (.surplus surplus))

/-! ## The log -/

/-- The fields of a line of the log. Fields of the context are added unless the notice has them, or
comes from a worker. -/
def logLine (context : Settings) (n : Notice) : Settings :=
  let head : Settings :=
    [("event", .text n.name), ("level", .text n.level.name), ("logger", .text n.reporter)]
  let own := head ++ n.fields
  let added := context.filter fun e => !n.fromWorker && !own.any fun f => f.1 = e.1
  own ++ added

/-- The log that a configuration asks for. -/
def logOf (config : Config) (notices : List Notice) : List Settings :=
  if config.jsonLogs then
    let shown := notices.filter fun n => config.debug || n.level != .debug
    shown.map (logLine [("root", .text config.root)])
  else []

/-! ## Commands -/

/-- An effect that leaves the files as they are. -/
def answer (fs : FileSystem) (output : Text) : Effect := { files := fs, exit := .ok 0, output }

/-- A message on the error stream, with an exit code. -/
def complain (fs : FileSystem) (code : Nat) (message : Text) : Effect :=
  { files := fs, exit := .ok code, errors := errorText message }

/-- What is said about an error of the library. -/
def errorLine (e : BundleError) : Text :=
  match e with
  | .writeFailed _ _ files =>
    "Error: " ++ e.message ++ " (" ++ Text.ofNat files.length ++ " files were selected)\n"
  | _ => "Error: " ++ e.message ++ "\n"

/-- The end of a command that failed. -/
def failed (fs : FileSystem) (f : Failure) : Effect :=
  match f with
  | .bundle e => complain fs 1 (errorLine e)
  | _ => { files := fs, exit := .error f }

/-- Generates a manifest as a configuration says. -/
def generateAs (fs : FileSystem) (config : Config) : Effect :=
  let options : Manifest.Options := {
    output := config.manifestPath.map Path.ofText
    workers := config.workers
    batchSize := config.batchSize
    followLinks := config.followLinks
    excludeManifest := config.excludeManifest }
  let outcome := Manifest.generate fs {} options (Path.ofText config.root)
  let log := logOf config outcome.notices
  match outcome.result with
  | .error f => { failed outcome.files f with log }
  | .ok files =>
    match config.manifestPath with
    | none => { answer outcome.files (screenLines files) with log }
    | some path =>
      let written := "Wrote " ++ Text.ofNat files.length ++ " files to " ++ path ++ "\n"
      { files := outcome.files, exit := .ok 0, errors := errorText written, log }

/-- The command `manifest`. -/
def manifest (fs : FileSystem) (environment : Environment) (a : Arguments) :
    Except Stop Effect := do
  let arguments ← supplied fs a a.settings
  let root ← rootAmong fs a.others
  match Config.load fs (some root.text) environment arguments with
  | .error f => return failed fs f
  | .ok config => return generateAs fs config

/-- The command `check-pattern`. -/
def checkPattern (fs : FileSystem) (a : Arguments) : Except Stop Effect := do
  match a.others with
  | [] => throw (.usage (.argumentMissing "PATTERN"))
  | pattern :: others =>
    let root ← rootAmong fs others
    let run := Walk.traverse {} Walk.Receiver.passive root { files := fs }
    return answer fs (screenLines (Pattern.excludedBy pattern run.candidates))

/-- The lines that list rules. -/
def listing (rules : RuleSet) : List Text :=
  let row (kind : PatternKind) (body : Text) : Text := Text.ofString kind.word ++ "\t" ++ body
  rules.sortedExact.map (row .exactName) ++ rules.patterns.map fun p => row p.kind p.body

/-- The command `rules`. -/
def rules (fs : FileSystem) (a : Arguments) : Except Stop Effect := do
  let root ← rootAmong fs a.others
  match RuleSet.load (RuleSet.reader fs) root none with
  | .error f => return failed fs f
  | .ok loading =>
    if loading.rules.isEmpty then return complain fs 0 "No ignore rules.\n"
    else return answer fs (screenLines (listing loading.rules))

/-- Runs a command on arguments that have been sorted. -/
def dispatch (fs : FileSystem) (environment : Environment) (command : Command) (a : Arguments) :
    Except Stop Effect :=
  if a.has .help then .error .help
  else match command with
    | .manifest => manifest fs environment a
    | .checkPattern => checkPattern fs a
    | .rules => rules fs a

/-! ## The program -/

/-- The end of a command that was stopped. -/
def stopped (fs : FileSystem) (path synopsis : Text) : Stop → Effect
  | .usage fault => complain fs 2 (fault.report path synopsis)
  | .failure f => failed fs f
  | .help => answer fs ("Usage: " ++ path ++ " " ++ synopsis ++ "\n")

/-- Runs a command on its arguments. -/
def runCommand (fs : FileSystem) (program : Text) (environment : Environment) (command : Command)
    (arguments : List Text) : Effect :=
  let effect := do
    let a ← (Arguments.parse command.switches true arguments).mapError fun fault =>
      Stop.usage (.argument fault)
    dispatch fs environment command a
  match effect with
  | .ok e => e
  | .error stop => stopped fs (program ++ " " ++ command.name) command.synopsis stop

/-- The answer to switches of the program itself, of which the first counts; none if there are
none. -/
def switchAnswer? (fs : FileSystem) (program : Text) (a : Arguments) : Option Effect :=
  match a.settings with
  | [] => none
  | .version :: _ => some (answer fs (line (programName ++ ", version " ++ version)))
  | _ :: _ => some (stopped fs program programSynopsis .help)

/-- The end of a command line that names no command of the program. What stands in the place of the
name may still be a switch of the program. -/
def withoutCommand (fs : FileSystem) (program name : Text) (arguments : List Text) : Effect :=
  let stop := stopped fs program programSynopsis
  match Arguments.parse programSwitches false (name :: arguments) with
  | .error fault => stop (.usage (.argument fault))
  | .ok a =>
    let suggestions := Text.suggestions name (Command.all.map Command.name)
    (switchAnswer? fs program a).getD (stop (.usage (.unknownCommand name suggestions)))

/-- Runs the program under a name. -/
def run (fs : FileSystem) (program : Text) (environment : Environment) (arguments : List Text) :
    Effect :=
  let stop := stopped fs program programSynopsis
  match Arguments.parse programSwitches false arguments with
  | .error fault => stop (.usage (.argument fault))
  | .ok a =>
    match switchAnswer? fs program a, a.others with
    | some e, _ => e
    | none, [] =>
      if arguments = [] then { stop .help with exit := .ok 2 } else stop (.usage .commandMissing)
    | none, name :: rest =>
      match Command.all.find? fun c => c.name = name with
      | some command => runCommand fs program environment command rest
      | none => withoutCommand fs program name rest

end BundleManifest.CommandLine
