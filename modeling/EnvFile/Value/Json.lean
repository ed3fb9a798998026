import EnvFile.Decimal.Numeral
import EnvFile.Decimal.Style
import EnvFile.Value.Basic

namespace EnvFile

/-- Json has no words for the doubles that are no numbers; these are the common ones. -/
def DecimalStyle.json : DecimalStyle :=
  { plain with infinity := "Infinity".toList, notANumber := "NaN".toList }

namespace Text

/-- A character inside a Json string. Only quotes, backslashes and control characters change. -/
def jsonEscaped (c : Char) : Text :=
  match c with
  | '"' => "\\\"".toList
  | '\\' => "\\\\".toList
  | '\n' => "\\n".toList
  | '\r' => "\\r".toList
  | '\t' => "\\t".toList
  | '\x08' => "\\b".toList
  | '\x0c' => "\\f".toList
  | c => if c.toNat < 0x20 then "\\u".toList ++ hex 4 c.toNat else [c]

def jsonQuoted (t : Text) : Text := '"' :: t.flatMap jsonEscaped ++ ['"']

end Text

namespace Value

/-- Members between brackets, each on a line of its own two columns further in. -/
def jsonBlock (first last : Char) (depth : Nat) (members : List Text) : Text :=
  let newline := fun n => '\n' :: List.replicate (2 * n) ' '
  match members with
  | [] => [first, last]
  | ms => first :: newline (depth + 1) ++ Text.join (',' :: newline (depth + 1)) ms ++
      newline depth ++ [last]

mutual

def jsonAt (depth : Nat) : Value → Except Fault Text
  | null => .ok "null".toList
  | bool true => .ok "true".toList
  | bool false => .ok "false".toList
  | int n => Numeral.writeInt n
  | float x => .ok (DecimalStyle.json.text x)
  | text t => .ok (Text.jsonQuoted t)
  | list items => do .ok (jsonBlock '[' ']' depth (← jsonItems (depth + 1) items))
  | dict entries => do .ok (jsonBlock '\x7b' '\x7d' depth (← jsonEntries (depth + 1) entries))

def jsonItems (depth : Nat) : List Value → Except Fault (List Text)
  | [] => .ok []
  | v :: vs => do
    let t ← jsonAt depth v
    .ok (t :: (← jsonItems depth vs))

def jsonEntries (depth : Nat) : List (Text × Value) → Except Fault (List Text)
  | [] => .ok []
  | (k, v) :: es => do
    let t ← jsonAt depth v
    .ok ((Text.jsonQuoted k ++ ": ".toList ++ t) :: (← jsonEntries depth es))

end

/-- A value as Json. -/
def json (v : Value) : Except Fault Text := jsonAt 0 v

example : (dict [("A".toList, list [null, text "\"\n".toList]), ("B".toList, dict [])]).json =
    .ok "\x7b\n  \"A\": [\n    null,\n    \"\\\"\\n\"\n  ],\n  \"B\": \x7b\x7d\n\x7d".toList := rfl

end Value

end EnvFile
