import EnvFile.Text.Characters
import EnvFile.Value.Basic

namespace EnvFile

/-- What an option on the command line asks for. -/
inductive Switch
  | help
  | root
  | file
  | tolerant
  | verbose
  | default
  | flat
  | json
deriving DecidableEq, Repr

def Switch.takesValue : Switch → Bool
  | root | file | default => true
  | _ => false

/-- The options of a command: words behind two dashes, and letters behind one, which take no value
and may stand together. -/
structure Options where
  letters : List (Char × Switch)
  words : List (Text × Switch)

/-- What an argument is by its form. -/
inductive Argument
  | operand
  /-- Two dashes: no options follow. -/
  | divider
  | letters (cs : List Char)
  | word (s : Switch) (value : Option Text)
  /-- An option of nobody. -/
  | stranger
  | ambiguous
deriving DecidableEq, Repr

/-- Why the reading of options ends. -/
inductive Stop
  | finished
  | refused
  | operand (t : Text) (after : List Text)
  | divider (after : List Text)
deriving DecidableEq, Repr

/-- Options in the order given, each with its value or null, and whether arguments among them belong
to none. -/
structure Reading where
  given : List (Switch × Value)
  strays : Bool
  stop : Stop
deriving DecidableEq

namespace Reading

def ended (stop : Stop) : Reading := ⟨[], false, stop⟩

def withGiven (r : Reading) (given : List (Switch × Value)) : Reading :=
  { r with given := given ++ r.given }

def withStray (r : Reading) : Reading := { r with strays := true }

def has (r : Reading) (s : Switch) : Bool := r.given.any (·.1 = s)

/-- All values of an option. -/
def values (r : Reading) (s : Switch) : List Value := (r.given.filter (·.1 = s)).map (·.2)

end Reading

namespace Options

/-- A number below zero; a line break at its end does not count. -/
def isNegative : Text → Bool
  | '-' :: t =>
    let t := if t.getLast? = some '\n' then t.dropLast else t
    match t.dropWhile Text.isDecimal with
    | [] => !t.isEmpty
    | c :: fraction => c = '.' && !fraction.isEmpty && fraction.all Text.isDecimal
  | _ => false

/-- An argument with a dash that is no option: negative numbers and phrases stand for themselves. -/
def unmatched (t : Text) : Argument :=
  if isNegative t || t.contains ' ' then .operand else .stranger

/-- The options that a word can mean: the one of that name, or else all that begin with it. -/
def matching (o : Options) (name : Text) : List Switch :=
  match o.words.lookup name with
  | some s => [s]
  | none => (o.words.filter fun w => name.isPrefixOf w.1).map (·.2)

/-- What stands behind the first letter of an argument: other letters, after an equals sign or not. -/
def behindLetter : Text → Text
  | '=' :: c :: cs => c :: cs
  | cs => cs

def classify (o : Options) (t : Text) : Argument :=
  match t with
  | ['-', '-'] => .divider
  | '-' :: '-' :: w =>
    match o.matching (w.takeWhile (· ≠ '=')) with
    | [] => unmatched t
    | [s] => .word s (w.dropWhile (· ≠ '=')).tail?
    | _ => .ambiguous
  | '-' :: c :: cs =>
    if (o.letters.lookup c).isSome then .letters (c :: behindLetter cs) else unmatched t
  | _ => .operand

/-- A value that is attached to its option. Two dashes are taken away, and an empty list is left. -/
def attached (t : Text) : Value := if t = "--".toList then .list [] else .text t

/-- Reads options up to the first operand, or past operands, which are strays then. -/
def read (o : Options) (past : Bool) : List Text → Reading
  | [] => .ended .finished
  | t :: ts =>
    match o.classify t with
    | .operand => if past then (o.read past ts).withStray else .ended (.operand t ts)
    | .divider => .ended (.divider ts)
    | .stranger => (o.read past ts).withStray
    | .ambiguous => .ended .refused
    | .letters cs =>
      match cs.mapM fun c => o.letters.lookup c with
      | none => .ended .refused
      | some switches => (o.read past ts).withGiven (switches.map (·, .null))
    | .word s value =>
      match s.takesValue, value with
      | false, none => (o.read past ts).withGiven [(s, .null)]
      | false, some _ => .ended .refused
      | true, some v => (o.read past ts).withGiven [(s, attached v)]
      | true, none =>
        match ts with
        | [] => .ended .refused
        | v :: ts =>
          if o.classify v = .operand then (o.read past ts).withGiven [(s, .text v)]
          else .ended .refused

/-- No argument in front of a divider can mean several options. -/
def isClear (o : Options) (args : List Text) : Bool :=
  (args.takeWhile (· ≠ "--".toList)).all fun t => o.classify t ≠ .ambiguous

example : isNegative "-.5\n".toList = true ∧ isNegative "-5.".toList = false := by decide

example : (Options.mk [] [("file".toList, .file), ("flat".toList, .flat)]).classify "--fi=a=b".toList =
    .word .file (some "a=b".toList) := by decide

example : (Options.mk [] [("file".toList, .file), ("flat".toList, .flat)]).classify "--f".toList =
    .ambiguous := by decide

end Options

end EnvFile
