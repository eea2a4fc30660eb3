/-
# BundleManifest.CommandLine.Arguments — options and other arguments

A command has switches, some of which take a value. A switch of one letter may be written together
with others and with its value, a longer one takes its value after an equals sign or as the next
argument. `--` ends the options. `parse` sorts the arguments of a command into options, in the order
in which they are given, and the rest.
-/
import BundleManifest.Text.Similarity

namespace BundleManifest.CommandLine

/-- What a switch is for. -/
inductive Setting where
  | output
  | workers
  | batchSize
  | followLinks
  | noFollowLinks
  | debug
  | jsonLogs
  | help
  | version
  deriving DecidableEq, Repr

/-- One of the ways to write a switch. -/
structure Switch where
  name : Text
  setting : Setting
  takesValue : Bool
  deriving DecidableEq, Repr

namespace Switch

/-- A switch of one letter has one dash. -/
def isShort (s : Switch) : Bool := s.name.length == 2

end Switch

/-- An option as it was given. -/
structure Given where
  setting : Setting
  value : Option Text
  deriving DecidableEq, Repr

/-- What is wrong with the arguments of a command. -/
inductive ArgumentFault where
  | unknown (name : Text) (suggestions : List Text)
  | valueMissing (name : Text)
  | valueUnexpected (name : Text)
  deriving DecidableEq, Repr

/-- The arguments of a command. -/
structure Arguments where
  options : List Given
  others : List Text
  deriving DecidableEq, Repr

/-- What one argument says: options, the last of which may still lack its value. -/
structure Reading where
  options : List Given
  /-- The switch that the next argument is the value of. -/
  open? : Option Switch

namespace Arguments

/-- The code point that options start with. -/
def dash : CodePoint := '-'

/-- Whether an argument is an option. -/
def isOption : Text → Bool
  | c :: _ :: _ => c = dash
  | _ => false

/-- The argument that ends the options. -/
def terminator : Text := "--"

/-- Reads letters that follow a single dash. -/
def readLetters (switches : List Switch) : Text → Except ArgumentFault Reading
  | [] => .ok ⟨[], none⟩
  | c :: rest =>
    match switches.find? fun s => s.isShort && s.name = [dash, c] with
    | none => .error (.unknown [dash, c] [])
    | some s =>
      if s.takesValue then
        if rest = [] then .ok ⟨[], some s⟩ else .ok ⟨[⟨s.setting, some rest⟩], none⟩
      else
        (readLetters switches rest).map fun r =>
          { r with options := ⟨s.setting, none⟩ :: r.options }

/-- The name and the attached value of an option. -/
def halves (argument : Text) : Text × Option Text :=
  let name := argument.takeWhile (· ≠ CodePoint.ofChar '=')
  match argument.drop name.length with
  | [] => (name, none)
  | _ :: value => (name, some value)

/-- Reads an argument that is an option. -/
def readOption (switches : List Switch) (argument : Text) : Except ArgumentFault Reading :=
  let (name, attached) := halves argument
  let long := switches.filter fun s => !s.isShort
  match long.find? fun s => s.name = name with
  | some s =>
    match s.takesValue, attached with
    | true, some value => .ok ⟨[⟨s.setting, some value⟩], none⟩
    | true, none => .ok ⟨[], some s⟩
    | false, some _ => .error (.valueUnexpected name)
    | false, none => .ok ⟨[⟨s.setting, none⟩], none⟩
  | none =>
    if argument.take 2 = terminator then
      .error (.unknown name (Text.suggestions name (long.map Switch.name)))
    else readLetters switches (argument.drop 1)

/-- Sorts arguments into options and the rest. When options may not stand among the other
arguments, the first of these ends the options. -/
def parse (switches : List Switch) (interspersed : Bool) :
    List Text → Except ArgumentFault Arguments
  | [] => .ok ⟨[], []⟩
  | argument :: rest =>
    if argument = terminator then .ok ⟨[], rest⟩
    else if isOption argument then
      match readOption switches argument with
      | .error fault => .error fault
      | .ok ⟨options, none⟩ =>
        (parse switches interspersed rest).map fun a => { a with options := options ++ a.options }
      | .ok ⟨options, some s⟩ =>
        match rest with
        | [] => .error (.valueMissing s.name)
        | value :: rest =>
          (parse switches interspersed rest).map fun a =>
            { a with options := options ++ ⟨s.setting, some value⟩ :: a.options }
    else if interspersed then
      (parse switches interspersed rest).map fun a => { a with others := argument :: a.others }
    else .ok ⟨[], argument :: rest⟩

/-- The settings that are given, each once, in the order of their first appearance. -/
def settings (a : Arguments) : List Setting := (a.options.map Given.setting).eraseDups

/-- The last value given for a setting. -/
def value? (a : Arguments) (setting : Setting) : Option Text :=
  ((a.options.filter fun g => g.setting = setting).getLast?).bind Given.value

/-- Whether a setting is given. -/
def has (a : Arguments) (setting : Setting) : Bool := a.options.any fun g => g.setting = setting

/-- The last of several settings that is given. -/
def last? (a : Arguments) (choices : List Setting) : Option Setting :=
  ((a.options.map Given.setting).filter choices.contains).getLast?

end Arguments

end BundleManifest.CommandLine
