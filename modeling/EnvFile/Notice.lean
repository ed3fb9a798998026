import EnvFile.Fault

namespace EnvFile

/-- How much a notice matters. -/
inductive Level
  | info
  | warning
  | error
deriving DecidableEq, Repr

def Level.name : Level → Text
  | info => "INFO".toList
  | warning => "WARNING".toList
  | error => "ERROR".toList

/-- What is worth telling besides a result. -/
inductive Notice
  | skippedLine (report : LineReport)
  | skippedFile (fault : Fault)
  | loaded (count : Nat) (path : Text)
  | noFile (roots : List Text)
  | unloaded (count : Nat)
  | persisted (key path : Text)
  | notPersisted (reason : Text)
  /-- A setting is no truth value, and its default is used. -/
  | notBoolean (name given : Text) (default : Bool)
deriving DecidableEq, Repr

namespace Notice

def level : Notice → Level
  | loaded .. | unloaded _ | persisted .. => .info
  | notPersisted _ => .error
  | _ => .warning

/-- The part of the program that speaks. -/
def source : Notice → Text
  | skippedLine _ => "tinyenv.loader".toList
  | persisted .. | notPersisted _ => "tinyenv.persistence".toList
  | notBoolean .. => "warnings".toList
  | _ => "tinyenv.store".toList

/-- Cautions are for the caller and not for the log. -/
def isCaution : Notice → Bool
  | notBoolean .. => true
  | _ => false

def message : Notice → Text
  | skippedLine r => "Skipping malformed line: ".toList ++ r.message
  | skippedFile f => "Skipping unreadable env file: ".toList ++ f.message
  | loaded n path => "Loaded ".toList ++ Text.ofNat n ++ " keys from ".toList ++ path
  | noFile roots => "No env file found in ".toList ++ Text.join ", ".toList roots
  | unloaded n => "Unloaded ".toList ++ Text.ofNat n ++ " keys".toList
  | persisted key path => "Persisted ".toList ++ key ++ " to ".toList ++ path
  | notPersisted reason => reason
  | notBoolean name given default =>
    name ++ "=".toList ++ Text.quoted given ++
      " is not a boolean (true/false, yes/no, on/off, 1/0); using ".toList ++
      if default then "True".toList else "False".toList

/-- The notice as a line of the log. -/
def line (n : Notice) : Text :=
  n.level.name ++ " ".toList ++ n.source ++ ": ".toList ++ n.message

end Notice

end EnvFile
