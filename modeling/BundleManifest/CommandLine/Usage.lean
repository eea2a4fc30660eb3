/-
# BundleManifest.CommandLine.Usage — commands, and what is wrong with a command line

The program has three commands. A command line that names no command, or gives a command something
that it does not take, is answered by the usage of the command and one line that says what is wrong.
-/
import BundleManifest.CommandLine.Arguments
import BundleManifest.Text.Quoted

namespace BundleManifest.CommandLine

/-- The commands of the program. -/
inductive Command where
  | manifest
  | checkPattern
  | rules
  deriving DecidableEq, Repr

namespace Command

/-- The word that names a command. -/
def name : Command → Text
  | manifest => "manifest"
  | checkPattern => "check-pattern"
  | rules => "rules"

/-- All commands. -/
def all : List Command := [manifest, checkPattern, rules]

/-- The arguments of a command, as the usage shows them. -/
def synopsis : Command → Text
  | manifest | rules => "[OPTIONS] [ROOT]"
  | checkPattern => "[OPTIONS] PATTERN [ROOT]"

/-- The switch that every command has. -/
def helpSwitch : Switch := ⟨"--help", .help, false⟩

/-- The switches of a command. -/
def switches : Command → List Switch
  | manifest => [
    ⟨"--output", .output, true⟩, ⟨"-o", .output, true⟩, ⟨"--workers", .workers, true⟩,
    ⟨"-w", .workers, true⟩, ⟨"--batch-size", .batchSize, true⟩,
    ⟨"--follow-symlinks", .followLinks, false⟩, ⟨"--no-follow-symlinks", .noFollowLinks, false⟩,
    ⟨"--debug", .debug, false⟩, ⟨"--json-logs", .jsonLogs, false⟩, helpSwitch]
  | checkPattern | rules => [helpSwitch]

end Command

/-- The switches of the program itself. -/
def programSwitches : List Switch := [⟨"--version", .version, false⟩, Command.helpSwitch]

/-- What the usage of the program itself shows. -/
def programSynopsis : Text := "[OPTIONS] COMMAND [ARGS]..."

/-- What is wrong with a value. -/
inductive ValueFault where
  | notInteger (value : Text)
  | absentDirectory (name : Text)
  | fileForDirectory (name : Text)
  | directoryForFile (name : Text)
  deriving DecidableEq, Repr

/-- What is said about a wrong value. -/
def ValueFault.message : ValueFault → Text
  | notInteger value => Text.quoted value ++ " is not a valid integer."
  | absentDirectory name => "Directory " ++ Text.quoted name ++ " does not exist."
  | fileForDirectory name => "Directory " ++ Text.quoted name ++ " is a file."
  | directoryForFile name => "File " ++ Text.quoted name ++ " is a directory."

/-- What is wrong with a command line. -/
inductive UsageFault where
  | argument (fault : ArgumentFault)
  | commandMissing
  | unknownCommand (name : Text) (suggestions : List Text)
  | argumentMissing (name : Text)
  | surplus (arguments : List Text)
  /-- A value that a parameter does not take. -/
  | value (parameter : Text) (fault : ValueFault)
  deriving DecidableEq, Repr

namespace UsageFault

/-- The words for suggestions. -/
def suggesting : List Text → Text
  | [] => []
  | [one] => " Did you mean " ++ Text.quoted one ++ "?"
  | several => " (Did you mean one of: " ++ Text.separated ", " (several.map Text.quoted) ++ "?)"

/-- What is said about a wrong command line. -/
def message : UsageFault → Text
  | argument (.unknown name suggestions) =>
    "No such option " ++ Text.quoted name ++ "." ++ suggesting suggestions
  | argument (.valueMissing name) => "Option " ++ Text.quoted name ++ " requires an argument."
  | argument (.valueUnexpected name) => "Option " ++ Text.quoted name ++ " does not take a value."
  | commandMissing => "Missing command."
  | unknownCommand name suggestions =>
    "No such command " ++ Text.quoted name ++ "." ++ suggesting suggestions
  | argumentMissing name => "Missing argument " ++ Text.quoted name ++ "."
  | surplus arguments =>
    (if arguments.length = 1 then Text.ofString "Got unexpected extra argument ("
      else Text.ofString "Got unexpected extra arguments (")
      ++ Text.separated " " arguments ++ ")"
  | value parameter fault => "Invalid value for " ++ parameter ++ ": " ++ fault.message

/-- Whether the usage is shown before the message. -/
def showsUsage : UsageFault → Bool
  | argument (.valueMissing _) | argument (.valueUnexpected _) => false
  | _ => true

/-- The answer to a wrong command line. `path` is the program with the command, if one was found. -/
def report (fault : UsageFault) (path synopsis : Text) : Text :=
  (if fault.showsUsage then
    "Usage: " ++ path ++ " " ++ synopsis ++ "\nTry '" ++ path ++ " --help' for help.\n\n"
   else []) ++ "Error: " ++ fault.message ++ "\n"

end UsageFault

end BundleManifest.CommandLine
