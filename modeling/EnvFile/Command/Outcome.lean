import EnvFile.Command.Invocation
import EnvFile.Registry.Loading
import EnvFile.Settings
import EnvFile.Value.Json

namespace EnvFile

/-- What an invocation leaves: an exit status, what it prints, and what it says beside that. -/
structure Outcome where
  status : Nat
  printed : Text
  said : Text
deriving DecidableEq, Repr

namespace Outcome

def success (printed said : Text) : Outcome := ⟨0, printed, said⟩

def failure (reason : Text) : Outcome := ⟨1, [], "Error: ".toList ++ reason ++ ['\n']⟩

/-- The outcome with the log of what came before it. -/
def behind (o : Outcome) (log : Text) : Outcome := { o with said := log ++ o.said }

end Outcome

namespace Task

/-- One line for each entry. -/
def listing : List (Text × Value) → Except Fault Text
  | [] => .ok []
  | (key, v) :: es => do
    let t ← v.splice
    .ok (key ++ '=' :: t ++ '\n' :: (← listing es))

/-- Answers a task from a registry that is loaded. -/
def answer (r : Registry) : Task → Except Fault Outcome
  | get key default flat => do
    match (← r.value? key).or default with
    | none => .ok (.failure (key ++ " is not defined".toList))
    | some v => .ok (.success ((← if flat then v.flat else v.splice) ++ ['\n']) [])
  | dump false => do .ok (.success (← listing (← r.values).entries) [])
  | dump true => do .ok (.success ((← (Value.dict (← r.values).entries).json) ++ ['\n']) [])
  | check =>
    .ok (.success [] ("OK: ".toList ++ Text.ofNat r.cache.size ++ " keys loaded\n".toList))

end Task

namespace Invocation

/-- The notices that are shown: all that matter, and the rest too if it is verbose. -/
def log (i : Invocation) (ns : List Notice) : Text :=
  (ns.filter fun n => i.verbose || n.level ≠ .info).flatMap fun n => n.line ++ ['\n']

def rootsUnder (i : Invocation) (s : Settings) : Except Fault (List Text) :=
  if i.roots.isEmpty then .ok s.roots else i.roots.mapM Value.display

def namesUnder (i : Invocation) (s : Settings) : List Value :=
  inOrder (.text baseName) (if i.names.isEmpty then s.names.map .text else i.names)

/-- The registry that an invocation is about, with a cache of its own and the names that are texts. -/
def registry (i : Invocation) (s : Settings) (environment : Table Text Text) :
    Except Fault Registry := do
  let names := i.namesUnder s
  if names.isEmpty then .error .noNames
  else .ok (.fresh (← i.rootsUnder s) (names.filterMap Value.text?) false true ∅
    (.ofEnvironment environment))

/-- The first name that is no text: its place among the names and its kind. -/
def misnamed? (names : List Value) : Option (Nat × Text) := do
  let index ← names.findIdx? (·.text?.isNone)
  let kind ← (← names[index]?).compound?
  return (index, kind)

/-- Loads the files. A name that is no text fails when its turn comes in the first root, or where it
would have to be told that there are no roots. -/
def load (i : Invocation) (s : Settings) (files : FileTree) (r : Registry) :
    Except Fault Unit × Registry × List Notice :=
  let tolerant := i.tolerant || s.tolerant
  match misnamed? (i.namesUnder s), r.roots with
  | none, _ => r.load files [] false tolerant
  | some (index, kind), [] =>
    if tolerant then r.load files [] false true else (.error (.notListed index kind), r, [])
  | some (index, kind), root :: _ =>
    let paths := (r.names.take index).map fun n => (Path.ofText root).join (Path.ofText n)
    match r.loadEach files ⟨.all, tolerant, true⟩ paths with
    | (.ok (), r, notices) => (.error (.notName kind), r, notices)
    | failed => failed

/-- The paths of the files that an invocation looks for. -/
def paths (i : Invocation) (here : Path) (environment : Table Text Text) : List Path :=
  let (_, s, _) := (Settings.initial here.toText).configure here.toText environment
  match i.registry s environment with
  | .ok r => r.paths
  | .error _ => []

/-- Loads the files and does the task. A fault of the files is told and fails; any other fault is
passed on. Cautions about the settings come with it. -/
def run (i : Invocation) (files : FileTree) (environment : Table Text Text) :
    Except Fault Outcome × List Notice :=
  let here := files.herePath.toText
  let (result, s, cautions) := (Settings.initial here).configure here environment
  let outcome := do
    let () ← result
    let r ← i.registry s environment
    match i.load s files r with
    | (.error fault, _, notices) =>
      if fault.isOfFiles then .ok ((Outcome.failure fault.message).behind (i.log notices))
      else .error fault
    | (.ok (), r, notices) => (i.task.answer r).map (·.behind (i.log notices))
  (outcome, cautions)

end Invocation

end EnvFile
