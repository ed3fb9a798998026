import EnvFile.Decimal.Numeral
import EnvFile.Value.Basic

namespace EnvFile

namespace Value

def trueWords : List Text := ["true".toList, "yes".toList, "on".toList]

def falseWords : List Text := ["false".toList, "no".toList, "off".toList]

def nullWords : List Text := ["null".toList, []]

/-- The text between slashes, which is taken as it stands. -/
def forced? (t : Text) : Option Text := Text.enclosed? '/' (Text.trim t)

def ofNumeral : Numeral → Except Fault Value
  | .integer negative digits => (Numeral.readInt negative digits).map int
  | .decimal negative whole fraction => .ok (float (Numeral.readFloat negative whole fraction))

/-- The value that a text stands for: a text between slashes, a word for true, false or null in
capitals or not, a number, and else the text itself. Blanks around the first four do not count. -/
def ofText (t : Text) : Except Fault Value :=
  match forced? t with
  | some inner => .ok (text inner)
  | none =>
    let word := (Text.trim t).map Char.toLower
    if word ∈ trueWords then .ok (bool true)
    else if word ∈ falseWords then .ok (bool false)
    else if word ∈ nullWords then .ok null
    else match Numeral.ofText? (Text.trim t) with
      | some n => ofNumeral n
      | none => .ok (text t)

/-- A text is read; every other value is settled already. -/
def settle : Value → Except Fault Value
  | text t => ofText t
  | v => .ok v

@[simp] theorem settle_text (t : Text) : settle (text t) = ofText t := rfl

example : ofText " Off ".toList = .ok (bool false) := rfl

example : ofText "/off/".toList = .ok (text "off".toList) := rfl

example : Numeral.readFloat true [] "50".toList = -0.5 := by decide +kernel

end Value

end EnvFile
