import EnvFile.Notice
import EnvFile.Registry.Basic

namespace EnvFile

/-- What the environment of the process says about the common registry. -/
structure Settings where
  configured : Bool
  roots : List Text
  names : List Text
  publishing : Bool
  tolerant : Bool
  writesAllowed : Bool
deriving DecidableEq, Repr

namespace Settings

/-- The settings before the environment has been read. -/
def initial (here : Text) : Settings := ⟨false, [here], [baseName], false, false, true⟩

def rootsVariable : Text := "TINYENV_ROOT_DIRS".toList
def namesVariable : Text := "TINYENV_FILES".toList
def publishingVariable : Text := "TINYENV_POPULATE_ENV".toList
def tolerantVariable : Text := "TINYENV_TOLERANT".toList
def writesVariable : Text := "TINYENV_ALLOW_FILE_WRITES".toList

/-- The truth value that a setting has as a word or as the number one or zero. -/
def truth? : Value → Option Bool
  | .bool b => some b
  | .int n => if n = 0 then some false else if n = 1 then some true else none
  | .float x => if x == 0 then some false else if x == 1 then some true else none
  | _ => none

/-- A setting that is on or off. One that is neither counts as its default, with a caution. -/
def flag (environment : Table Text Text) (name : Text) (default : Bool) :
    Except Fault (Bool × List Notice) :=
  match environment.get? name with
  | none => .ok (default, [])
  | some given =>
    if (Text.trim given).isEmpty then .ok (default, [])
    else do
      match truth? (← Value.ofText given) with
      | some b => .ok (b, [])
      | none => .ok (default, [.notBoolean name given default])

def rootsIn (given : Text) : List Text :=
  (Text.pieces ':' given).filter fun d => !(Text.trim d).isEmpty

def namesIn (given : Text) : List Text :=
  ((Text.pieces ',' given).map Text.trim).filter fun n => !n.isEmpty

/-- Reads the environment, once. A flag that cannot be read ends it and leaves the settings
unconfigured, with what was set before. -/
def configure (s : Settings) (here : Text) (environment : Table Text Text) :
    Except Fault Unit × Settings × List Notice :=
  if s.configured then (.ok (), s, [])
  else
    let given := fun name => (environment.get? name).getD []
    let stated := fun name => !(Text.trim (given name)).isEmpty
    let s := { s with
      roots := if stated rootsVariable then rootsIn (given rootsVariable) else [here]
      names := if stated namesVariable then namesIn (given namesVariable) else s.names }
    match flag environment publishingVariable false with
    | .error fault => (.error fault, s, [])
    | .ok (publishing, first) =>
      let s := { s with publishing }
      match flag environment tolerantVariable false with
      | .error fault => (.error fault, s, first)
      | .ok (tolerant, second) =>
        let s := { s with tolerant }
        match flag environment writesVariable true with
        | .error fault => (.error fault, s, first ++ second)
        | .ok (writesAllowed, third) =>
          (.ok (), { s with writesAllowed, configured := true }, first ++ second ++ third)

end Settings

end EnvFile
