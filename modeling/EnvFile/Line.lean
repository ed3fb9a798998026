import EnvFile.Fault
import EnvFile.Text.Characters

namespace EnvFile

/-- Whether a scan of a text stands between quotation marks. -/
inductive Quoting
  | bare
  | single
  | double
deriving DecidableEq, Repr

namespace Quoting

/-- A mark opens a quotation, or closes one that the same mark has opened. -/
def next : Quoting → Char → Quoting
  | bare, '\'' => single
  | bare, '"' => double
  | single, '\'' => bare
  | double, '"' => bare
  | q, _ => q

/-- The text before the first hash outside quotations. -/
def beforeHash? : Quoting → Text → Option Text
  | _, [] => none
  | q, c :: t =>
    if q = bare ∧ c = '#' then some []
    else ((q.next c).beforeHash? t).map (c :: ·)

end Quoting

/-- A text without its comment and the blanks before that. -/
def Text.uncommented (t : Text) : Text :=
  match Quoting.bare.beforeHash? t with
  | some before => Text.trimRight before
  | none => t

/-- Why a line declares nothing. -/
inductive LineProblem
  | missingSign
  | invalidKey (key : Text)
  | doubledSign (key : Text)
deriving DecidableEq, Repr

def LineProblem.reason : LineProblem → Text
  | missingSign => "missing '=' in declaration".toList
  | invalidKey key => "invalid key ".toList ++ Text.quoted key
  | doubledSign key => "unexpected '==' after key ".toList ++ key

namespace Declaration

/-- The line without the word that marks a variable for export. -/
def unexported (t : Text) : Text :=
  match Text.after? "export ".toList t with
  | some r => Text.trimLeft r
  | none => t

/-- The right-hand side begins with a second sign, and no quotation mark follows. -/
def doublesSign : Text → Bool
  | '=' :: '\'' :: _ => false
  | '=' :: '"' :: _ => false
  | '=' :: _ => true
  | _ => false

/-- The key and the right-hand side of a line. -/
def ofLine (line : Text) : Except LineProblem (Text × Text) :=
  let t := unexported (Text.trim line)
  let key := Text.trim (t.takeWhile (· != '='))
  match t.dropWhile (· != '=') with
  | [] => .error .missingSign
  | _ :: right =>
    if !Text.isKey key then .error (.invalidKey key)
    else if doublesSign right then .error (.doubledSign key)
    else .ok (key, right)

/-- The draft of a value: a right-hand side without comment, outer blanks and one pair of double
quotation marks. -/
def draft (right : Text) : Text :=
  let t := Text.trim (Text.uncommented (Text.trimLeft right))
  (Text.enclosed? '"' t).getD t

end Declaration

/-- Blank lines and comments say nothing. -/
def Text.isSilent (line : Text) : Bool :=
  match Text.trim line with
  | [] => true
  | c :: _ => c == '#'

/-- What a line of an env file says. -/
inductive Line
  | silent
  | broken (problem : LineProblem)
  | declaration (key draft : Text)
deriving DecidableEq, Repr

def Line.ofText (line : Text) : Line :=
  if Text.isSilent line then silent
  else match Declaration.ofLine line with
    | .error problem => broken problem
    | .ok (key, right) => declaration key (Declaration.draft right)

end EnvFile
