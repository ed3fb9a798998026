import EnvFile.Decimal.Numeral
import EnvFile.Decimal.Style
import EnvFile.Value.Basic

namespace EnvFile

namespace Value

mutual

/-- A value as it stands among the items of another one. -/
def literal : Value → Except Fault Text
  | null => .ok "None".toList
  | bool true => .ok "True".toList
  | bool false => .ok "False".toList
  | int n => Numeral.writeInt n
  | float x => .ok (DecimalStyle.plain.text x)
  | text t => .ok (Text.quoted t)
  | list items => do .ok ('[' :: Text.join ", ".toList (← literals items) ++ [']'])
  | dict entries => do .ok ('\x7b' :: Text.join ", ".toList (← literalEntries entries) ++ ['\x7d'])

def literals : List Value → Except Fault (List Text)
  | [] => .ok []
  | v :: vs => do
    let t ← literal v
    .ok (t :: (← literals vs))

def literalEntries : List (Text × Value) → Except Fault (List Text)
  | [] => .ok []
  | (k, v) :: es => do
    let t ← literal v
    .ok ((Text.quoted k ++ ": ".toList ++ t) :: (← literalEntries es))

end

/-- A value on its own; only a text differs from its literal. -/
def display : Value → Except Fault Text
  | text t => .ok t
  | v => literal v

/-- What takes the place of a placeholder: nothing for null, and the words of an env file. -/
def splice : Value → Except Fault Text
  | null => .ok []
  | bool true => .ok "true".toList
  | bool false => .ok "false".toList
  | v => display v

/-- The value for readers that know texts only: `1` for true, nothing for false and null. -/
def flat : Value → Except Fault Text
  | null => .ok []
  | bool true => .ok ['1']
  | bool false => .ok []
  | v => display v

@[simp] theorem splice_text (t : Text) : splice (text t) = .ok t := rfl

end Value

end EnvFile
