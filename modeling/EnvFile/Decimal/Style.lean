import EnvFile.Decimal.Shortest

namespace EnvFile

/-- How a double is written once its digits are known. -/
structure DecimalStyle where
  /-- The least and the greatest power of ten of the first digit that need no exponent. -/
  leastPower : Int
  greatestPower : Int
  /-- The least number of digits of an exponent. -/
  exponentWidth : Nat
  infinity : Text
  notANumber : Text
deriving DecidableEq, Repr

namespace DecimalStyle

def zeros (n : Nat) : Text := List.replicate n '0'

/-- The digits with a point before the power of ten turns negative, and digits on both sides. -/
def positional (digits : Text) (power : Int) : Text :=
  if power < 0 then "0.".toList ++ zeros (-power - 1).toNat ++ digits
  else
    let before := power.toNat + 1
    let whole := digits.take before ++ zeros (before - digits.length)
    let fraction := digits.drop before
    whole ++ '.' :: (if fraction.isEmpty then ['0'] else fraction)

/-- The first digit, a point where more follow, and the power of ten. -/
def scientific (s : DecimalStyle) (digits : Text) (power : Int) : Text :=
  let mantissa := match digits with
    | d :: e :: r => d :: '.' :: e :: r
    | ds => ds
  let exponent := Text.ofNat power.natAbs
  mantissa ++ 'e' :: (if power < 0 then '-' else '+') ::
    (zeros (s.exponentWidth - exponent.length) ++ exponent)

def ofBinary (s : DecimalStyle) (b : Binary) : Text :=
  let (number, scale) := b.shortest
  let all := Text.ofNat number
  let digits := (all.reverse.dropWhile (· == '0')).reverse
  let power := all.length - 1 + scale
  if b.mantissa = 0 then positional ['0'] 0
  else if s.leastPower ≤ power ∧ power ≤ s.greatestPower then positional digits power
  else s.scientific digits power

def text (s : DecimalStyle) (x : Float) : Text :=
  let signed := fun t => if isNegative x then '-' :: t else t
  match Double.ofFloat x with
  | .notANumber => s.notANumber
  | .infinite => signed s.infinity
  | .finite b => signed (s.ofBinary b)

/-- Doubles are positional from one ten-thousandth to below ten to the sixteenth, and keep a digit
after the point; an exponent has a sign and two digits. -/
def plain : DecimalStyle := ⟨-4, 15, 2, "inf".toList, "nan".toList⟩

example : plain.text 0.1 = "0.1".toList := by decide +kernel

example : plain.text 9007199254740993.0 = "9007199254740992.0".toList := by decide +kernel

example : plain.text (-1e-7) = "-1e-07".toList := by decide +kernel

end DecimalStyle

end EnvFile
