import EnvFile.Command.Options

namespace EnvFile

/-- How a command line ends that asks for nothing to be done. -/
inductive Usage
  | help
  | refused
deriving DecidableEq, Repr

/-- The exit status: help is no failure. -/
def Usage.status : Usage → Nat
  | help => 0
  | refused => 2

/-- What is done once the files are loaded. -/
inductive Task
  | get (key : Text) (default : Option Value) (flat : Bool)
  | dump (json : Bool)
  | check
deriving DecidableEq

/-- A command line that has been understood. Without roots or names the settings give them. -/
structure Invocation where
  roots : List Value
  names : List Value
  tolerant : Bool
  verbose : Bool
  task : Task
deriving DecidableEq

namespace Options

def helpOnly : Options := ⟨[('h', .help)], [("help".toList, .help)]⟩

/-- The options in front of the name of a task. -/
def general : Options :=
  ⟨('v', .verbose) :: helpOnly.letters,
    helpOnly.words ++ [("root".toList, .root), ("file".toList, .file),
      ("tolerant".toList, .tolerant), ("verbose".toList, .verbose)]⟩

def ofGet : Options :=
  ⟨helpOnly.letters,
    helpOnly.words ++ [("default".toList, .default), ("string".toList, .flat)]⟩

def ofDump : Options := ⟨helpOnly.letters, helpOnly.words ++ [("json".toList, .json)]⟩

def ofCheck : Options := helpOnly

/-- A reading that neither asks for help nor is refused. An ambiguous argument is refused wherever
it stands; anything else only if no call for help comes before it. -/
def heed (o : Options) (past : Bool) (args : List Text) : Except Usage Reading :=
  let r := o.read past args
  if !o.isClear args then .error .refused
  else if r.has .help then .error .help
  else if r.stop = .refused then .error .refused
  else .ok r

end Options

namespace Task

/-- A task that takes options only. -/
def withOptions (o : Options) (args : List Text) (task : Reading → Task) : Except Usage Task := do
  let r ← o.heed true args
  if r.strays || r.stop ≠ .finished then .error .refused else .ok (task r)

/-- The task `get` takes a key among its options. A divider may stand in front of the key or right
behind it, at the end of the line. -/
def getOf (args : List Text) : Except Usage Task := do
  let before ← Options.ofGet.heed false args
  let (key, after) ← match before.stop with
    | .operand key [] | .operand key [['-', '-']] | .divider [key] => .ok (key, .ended .finished)
    | .operand key args => do .ok (key, ← Options.ofGet.heed true args)
    | _ => .error .refused
  if before.strays || after.strays || after.stop ≠ .finished then .error .refused
  else .ok (.get key (before.values .default ++ after.values .default).getLast?
    (before.has .flat || after.has .flat))

def ofArguments (name : Text) (args : List Text) : Except Usage Task :=
  if name = "get".toList then getOf args
  else if name = "dump".toList then withOptions .ofDump args fun r => .dump (r.has .json)
  else if name = "check".toList then withOptions .ofCheck args fun _ => .check
  else .error .refused

end Task

namespace Invocation

/-- General options come first, then the name of a task and what belongs to it. -/
def ofArguments (args : List Text) : Except Usage Invocation := do
  let r ← Options.general.heed false args
  match r.stop with
  | .operand name args =>
    let task ← Task.ofArguments name args
    if r.strays then .error .refused
    else .ok ⟨r.values .root, r.values .file, r.has .tolerant, r.has .verbose, task⟩
  | _ => .error .refused

example : ofArguments (["-v", "get", "--def", "-5", "--", "K"].map String.toList) =
    .ok ⟨[], [], false, true, .get "K".toList (some (.text "-5".toList)) false⟩ := rfl

example : ofArguments (["-v=v", "--root=--", "check"].map String.toList) =
    .ok ⟨[.list []], [], false, true, .check⟩ := rfl

example : ofArguments (["-hx"].map String.toList) = .error .refused := rfl

example : ofArguments (["dump", "--nope", "--help"].map String.toList) = .error .help := rfl

example : ofArguments (["dump", "--nope"].map String.toList) = .error .refused := rfl

end Invocation

end EnvFile
