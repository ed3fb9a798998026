import EnvFile.Text.Basic

namespace EnvFile

namespace Text

/-- The small Latin letter that a character stands for where case does not matter. Besides the
capitals these are the dotted and the dotless i, the long s and the Kelvin sign. -/
def foldCase (c : Char) : Char :=
  if c = '\u0130' ∨ c = '\u0131' then 'i'
  else if c = '\u017F' then 's'
  else if c = '\u212A' then 'k'
  else c.toLower

def isSmallLetter (c : Char) : Bool := 'a' ≤ c && c ≤ 'z'

/-- The characters of a variable's name where one is referred to. -/
def isNameChar (c : Char) : Bool := c.isAlphanum || c == '_'

/-- A declared name may start with a letter of either case or an underscore. -/
def opensKey (c : Char) : Bool := isSmallLetter (foldCase c) || c == '_'

def continuesKey (c : Char) : Bool := opensKey c || c.isDigit

/-- The names that a declaration may give to a variable. -/
def isKey : Text → Bool
  | [] => false
  | c :: r => opensKey c && r.all continuesKey

/-- The names that may be assigned: capitals, digits and underscores. -/
def isAssignable (key : Text) : Bool :=
  !key.isEmpty && key.all fun c => c.isUpper || c.isDigit || c == '_'

/-- The zeros of the decimal digits of Unicode; the other nine digits of a script follow its zero. -/
def zeros : List Nat :=
  [0x30, 0x660, 0x6F0, 0x7C0, 0x966, 0x9E6, 0xA66, 0xAE6, 0xB66, 0xBE6, 0xC66, 0xCE6, 0xD66, 0xDE6,
   0xE50, 0xED0, 0xF20, 0x1040, 0x1090, 0x17E0, 0x1810, 0x1946, 0x19D0, 0x1A80, 0x1A90, 0x1B50,
   0x1BB0, 0x1C40, 0x1C50, 0xA620, 0xA8D0, 0xA900, 0xA9D0, 0xA9F0, 0xAA50, 0xABF0, 0xFF10, 0x104A0,
   0x10D30, 0x11066, 0x110F0, 0x11136, 0x111D0, 0x112F0, 0x11450, 0x114D0, 0x11650, 0x116C0,
   0x11730, 0x118E0, 0x11950, 0x11C50, 0x11D50, 0x11DA0, 0x16A60, 0x16AC0, 0x16B50, 0x1D7CE,
   0x1D7D8, 0x1D7E2, 0x1D7EC, 0x1D7F6, 0x1E140, 0x1E2F0, 0x1E950, 0x1FBF0]

/-- The value of a decimal digit of any script. -/
def digitValue? (c : Char) : Option Nat :=
  (zeros.find? fun z => z ≤ c.toNat && c.toNat < z + 10).map (c.toNat - ·)

def isDecimal (c : Char) : Bool := (digitValue? c).isSome

/-- The number that a run of digits writes, the first digit weighing most. -/
def numberOf (digits : Text) : Nat :=
  digits.foldl (fun n c => 10 * n + (digitValue? c).getD 0) 0

theorem digitValue?_lt {c : Char} {n : Nat} (h : digitValue? c = some n) : n < 10 := by
  obtain ⟨z, hz, rfl⟩ := Option.map_eq_some_iff.mp h
  have hb := List.find?_some hz
  simp only [Bool.and_eq_true, decide_eq_true_eq] at hb
  omega

example : zeros.length = 66 := by decide

example : digitValue? '7' = some 7 ∧ digitValue? '\u0663' = some 3 ∧ digitValue? 'x' = none := by decide

end Text

end EnvFile
