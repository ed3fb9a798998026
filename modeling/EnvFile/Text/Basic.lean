namespace EnvFile

/-- Text is a list of characters, so that every reading of it follows the list. -/
abbrev Text := List Char

instance : LawfulBEq Text := inferInstance

namespace Text

/-- The white space of Unicode, with the four information separators U+001C to U+001F. -/
def isBlank (c : Char) : Bool :=
  let n := c.toNat
  (0x09 ≤ n && n ≤ 0x0D) || (0x1C ≤ n && n ≤ 0x20) || n == 0x85 || n == 0xA0 || n == 0x1680 ||
    (0x2000 ≤ n && n ≤ 0x200A) || n == 0x2028 || n == 0x2029 || n == 0x202F || n == 0x205F ||
    n == 0x3000

def trimLeft (t : Text) : Text := t.dropWhile isBlank

def trimRight (t : Text) : Text := (t.reverse.dropWhile isBlank).reverse

def trim (t : Text) : Text := trimRight (trimLeft t)

/-- What follows `start` in a text that begins with it. -/
def after? : (start t : Text) → Option Text
  | [], t => some t
  | _ :: _, [] => none
  | s :: start, c :: t => if s = c then after? start t else none

/-- `part` stands somewhere in the text, as one piece. -/
def holds (part : Text) : Text → Bool
  | [] => part.isEmpty
  | c :: t => part.isPrefixOf (c :: t) || holds part t

/-- The pieces with `mark` between each two. -/
def join {α : Type} (mark : List α) : List (List α) → List α
  | [] => []
  | [t] => t
  | t :: ts => t ++ mark ++ join mark ts

/-- The pieces between the marks; one more than there are marks. -/
def pieces (mark : Char) : Text → List Text
  | [] => [[]]
  | c :: t =>
    if c = mark then [] :: pieces mark t
    else match pieces mark t with
      | [] => [[c]]
      | p :: ps => (c :: p) :: ps

/-- What stands between a mark at the start and another at the end. -/
def enclosed? (mark : Char) : Text → Option Text
  | [] => none
  | c :: r => if c = mark ∧ r.getLast? = some mark then some r.dropLast else none

/-- The characters that end a line when a text is cut into lines. -/
def endsLine (c : Char) : Bool :=
  let n := c.toNat
  (0x0A ≤ n && n ≤ 0x0D) || (0x1C ≤ n && n ≤ 0x1E) || n == 0x85 || n == 0x2028 || n == 0x2029

/-- A carriage return, with the line feed after it if there is one, becomes a line feed. -/
def unifyNewlines : Text → Text
  | '\r' :: '\n' :: t => '\n' :: unifyNewlines t
  | '\r' :: t => '\n' :: unifyNewlines t
  | c :: t => c :: unifyNewlines t
  | [] => []

/-- The lines without the characters that end them; the last line needs none. -/
def lines : Text → List Text
  | [] => []
  | c :: t =>
    if endsLine c then [] :: lines t
    else match lines t with
      | [] => [[c]]
      | l :: ls => (c :: l) :: ls

theorem after?_eq_some_iff {start t rest : Text} :
    after? start t = some rest ↔ t = start ++ rest := by
  induction start generalizing t with
  | nil => simp [after?]
  | cons s start ih =>
    cases t with
    | nil => simp [after?]
    | cons c t =>
      by_cases h : s = c
      · simp [after?, h, ih]
      · simp [after?, h, Ne.symm h]

theorem enclosed?_eq_some_iff {mark : Char} {t inner : Text} :
    enclosed? mark t = some inner ↔ t = mark :: inner ++ [mark] := by
  cases t with
  | nil => simp [enclosed?]
  | cons c r =>
    simp only [enclosed?, Option.ite_none_right_eq_some, Option.some.injEq, List.cons_append,
      List.cons.injEq, and_assoc, and_congr_right_iff]
    intro _
    constructor
    · rintro ⟨hl, rfl⟩
      obtain ⟨init, rfl⟩ := List.getLast?_eq_some_iff.mp hl
      simp
    · rintro rfl
      simp

theorem isBlank_of_endsLine {c : Char} (h : endsLine c) : isBlank c := by
  simp only [endsLine, isBlank, Bool.or_eq_true, Bool.and_eq_true, decide_eq_true_eq,
    beq_iff_eq] at h ⊢
  omega

end Text

end EnvFile
