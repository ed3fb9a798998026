import EnvFile.Fault
import EnvFile.Text.Characters

namespace EnvFile

/-- A written number: an integer, or a decimal with digits before and after its point. -/
inductive Numeral
  | integer (negative : Bool) (digits : Text)
  | decimal (negative : Bool) (whole fraction : Text)
deriving DecidableEq, Repr

namespace Numeral

/-- Digits, a point among or around them perhaps, and nothing else. -/
def unsigned? (negative : Bool) (t : Text) : Option Numeral :=
  let whole := t.takeWhile Text.isDecimal
  match t.dropWhile Text.isDecimal with
  | [] => if whole.isEmpty then none else some (.integer negative whole)
  | c :: fraction =>
    if c = '.' ∧ fraction.all Text.isDecimal ∧ ¬(whole.isEmpty ∧ fraction.isEmpty) then
      some (.decimal negative whole fraction)
    else none

/-- A number may have a sign. -/
def ofText? : Text → Option Numeral
  | '-' :: t => unsigned? true t
  | '+' :: t => unsigned? false t
  | t => unsigned? false t

/-- The integer that digits write, unless they are too many. -/
def readInt (negative : Bool) (digits : Text) : Except Fault Int :=
  if Fault.digitLimit < digits.length then .error (.numeralTooLong digits.length)
  else .ok (if negative then -Text.numberOf digits else Text.numberOf digits)

/-- The double nearest to a decimal. -/
def readFloat (negative : Bool) (whole fraction : Text) : Float :=
  let x := Float.ofScientific (Text.numberOf (whole ++ fraction)) true fraction.length
  if negative then -x else x

/-- The digits of an integer, unless they are too many. -/
def writeInt (n : Int) : Except Fault Text :=
  let digits := Text.ofNat n.natAbs
  if Fault.digitLimit < digits.length then .error .integerTooLong else .ok (Text.ofInt n)

end Numeral

end EnvFile
