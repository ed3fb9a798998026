import EnvFile.Fault

namespace EnvFile

/-- A positive double: `mantissa * 2 ^ exponent`. Below a `narrow` one the doubles lie twice as
close as above it. -/
structure Binary where
  mantissa : Nat
  exponent : Int
  narrow : Bool
deriving DecidableEq, Repr

namespace Binary

/-- The weight of the mantissa's unit, counted in units of `10 ^ scale`. -/
def unit (b : Binary) : Nat := Nat.pow 2 b.exponent.toNat * Nat.pow 5 (-b.exponent).toNat

def scale (b : Binary) : Int := min b.exponent 0

/-- The value in units of `10 ^ scale`, which is a whole number of them. -/
def whole (b : Binary) : Nat := b.mantissa * b.unit

/-- Four times the distance from the value to a decimal is within four times half a gap between
doubles; the end of the gap itself reads back only where the mantissa is even. -/
def reaches (b : Binary) (distance gap : Nat) : Bool :=
  if b.mantissa % 2 = 0 then distance ≤ gap else distance < gap

/-- The nearer neighbour of the value among the multiples of `10 ^ (scale + places)` that reads
back, if one does; of two that lie equally near the even one. -/
def neighbour? (b : Binary) (places : Nat) : Option Nat :=
  let grid := Nat.pow 10 places
  let below := b.whole / grid
  let excess := b.whole % grid
  let reachesBelow := b.reaches (4 * excess) (if b.narrow then b.unit else 2 * b.unit)
  let reachesAbove := b.reaches (4 * (grid - excess)) (2 * b.unit)
  if reachesBelow && reachesAbove then
    if excess < grid - excess ∨ (excess = grid - excess ∧ below % 2 = 0) then some below
    else some (below + 1)
  else if reachesBelow then some below
  else if reachesAbove then some (below + 1)
  else none

/-- The fewest digits that read back as the value, with the power of ten that they count. Seventeen
digits always do. -/
def shortest (b : Binary) : Nat × Int :=
  let length := (Text.ofNat b.whole).length
  let found := (List.range 17).findSome? fun n =>
    let places := length - (n + 1)
    (b.neighbour? places).map fun d => (d, places + b.scale)
  found.getD (b.whole, b.scale)

end Binary

/-- A double taken apart. -/
inductive Double
  | notANumber
  | infinite
  | finite (magnitude : Binary)
deriving DecidableEq, Repr

namespace Double

/-- The weight of the leading bit of a mantissa, which is not stored. -/
def hiddenBit : Nat := 0x10000000000000

def ofFloat (x : Float) : Double :=
  let bits := x.toBits.toNat
  let power : Nat := bits / hiddenBit % 2048
  let fraction := bits % hiddenBit
  if power = 2047 then if fraction = 0 then infinite else notANumber
  else if power = 0 then finite ⟨fraction, -1074, false⟩
  else finite ⟨fraction + hiddenBit, (power : Int) - 1075, fraction = 0 ∧ 1 < power⟩

end Double

def isNegative (x : Float) : Bool := 0x8000000000000000 ≤ x.toBits.toNat

end EnvFile
