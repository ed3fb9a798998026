import EnvFile.Text.Characters

namespace EnvFile

/-- When the value of a variable is used: if it has one, or only if that is not empty. -/
inductive Enough
  | defined
  | nonempty
deriving DecidableEq, Repr

def Enough.met : Enough → Text → Bool
  | defined, _ => true
  | nonempty, t => !t.isEmpty

/-- A piece of a value: text that stands for itself, or a reference to a variable. A broken
reference is a piece too; it fails when its turn comes. -/
inductive Item
  | literal (t : Text)
  | value (name : Text)
  | withDefault (name : Text) (enough : Enough) (default : List Item)
  | required (name : Text) (enough : Enough) (message : Text)
  | broken (placeholder detail : Text)
deriving Inhabited

abbrev Template := List Item

/-- What a placeholder asks for after the name of its variable. -/
inductive Operator
  | plain
  | orDefault (enough : Enough)
  | orFail (enough : Enough)
deriving DecidableEq, Repr

namespace Operator

/-- The operator at the start of a text, and the rest. -/
def take : Text → Operator × Text
  | ':' :: '-' :: t => (orDefault .nonempty, t)
  | '-' :: t => (orDefault .defined, t)
  | ':' :: '?' :: t => (orFail .defined, t)
  | '?' :: t => (orFail .nonempty, t)
  | t => (plain, t)

theorem take_length_le (t : Text) : (take t).2.length ≤ t.length := by
  unfold take
  split <;> simp <;> omega

end Operator

namespace Template

/-- The body of a placeholder and what follows its closing brace. Inside the body `depth`
placeholders are open. -/
def body? : (depth : Nat) → Text → Option (Text × Text)
  | depth, '$' :: '{' :: t => (body? (depth + 1) t).map fun (b, r) => ('$' :: '{' :: b, r)
  | 0, '}' :: t => some ([], t)
  | depth + 1, '}' :: t => (body? depth t).map fun (b, r) => ('}' :: b, r)
  | depth, c :: t => (body? depth t).map fun (b, r) => (c :: b, r)
  | _, [] => none

theorem body?_length {depth : Nat} {t b r : Text} (h : body? depth t = some (b, r)) :
    b.length + r.length < t.length := by
  fun_induction body? depth t generalizing b with
  | case1 depth t ih =>
    obtain ⟨⟨b', r'⟩, hb, he⟩ := Option.map_eq_some_iff.mp h
    cases he
    have := ih hb
    simp only [List.length_cons]
    omega
  | case2 t => simp at h; obtain ⟨rfl, rfl⟩ := h; simp
  | case3 depth t ih =>
    obtain ⟨⟨b', r'⟩, hb, he⟩ := Option.map_eq_some_iff.mp h
    cases he
    have := ih hb
    simp only [List.length_cons]
    omega
  | case4 depth c t _ _ _ ih =>
    obtain ⟨⟨b', r'⟩, hb, he⟩ := Option.map_eq_some_iff.mp h
    cases he
    have := ih hb
    simp only [List.length_cons]
    omega
  | case5 => simp at h

/-- The name at the start of a text, the operator after it, and the rest. -/
def head (t : Text) : Text × Operator × Text :=
  (t.takeWhile Text.isNameChar, Operator.take (t.dropWhile Text.isNameChar))

theorem head_length_le (t : Text) : (head t).2.2.length ≤ t.length :=
  Nat.le_trans (Operator.take_length_le _) (List.dropWhile_sublist Text.isNameChar).length_le

/-- The reference that a body in braces makes, if its default reads as `default`. -/
def reference (body : Text) (default : Template) : Item :=
  let placeholder := '$' :: '{' :: body ++ ['}']
  match head body with
  | ([], _, _) => .broken placeholder "invalid placeholder".toList
  | (name, .plain, []) => .value name
  | (_, .plain, _ :: _) => .broken placeholder "invalid substitution operator".toList
  | (name, .orDefault enough, _) => .withDefault name enough default
  | (name, .orFail enough, message) => .required name enough message

/-- The template of a text without dollar signs. -/
def verbatim : Text → Template
  | [] => []
  | t => [.literal t]

/-- The default of a placeholder without braces ends at a blank or at the next dollar sign. -/
def isBareDefault (c : Char) : Bool := !Text.isBlank c && c != '$'

/-- The reference at the start of a text that follows a bare dollar sign, and the rest. -/
def bare? (t : Text) : Option (Item × Text) :=
  match t.takeWhile Text.isNameChar, t.dropWhile Text.isNameChar with
  | [], _ => none
  | name, '-' :: r =>
    some (.withDefault name .defined (verbatim (r.takeWhile isBareDefault)), r.dropWhile isBareDefault)
  | name, r => some (.value name, r)

theorem bare?_length_le {t r : Text} {item : Item} (h : bare? t = some (item, r)) :
    r.length ≤ t.length := by
  have ht := (List.dropWhile_sublist (l := t) Text.isNameChar).length_le
  unfold bare? at h
  split at h
  next => simp at h
  next r' hr _ =>
    cases h
    have hs := (List.dropWhile_sublist (l := r') isBareDefault).length_le
    rw [hr, List.length_cons] at ht
    omega
  next => cases h; exact ht

/-- The pieces of a value, from left to right. A dollar sign that opens no reference is text. -/
def ofText : Text → Template
  | [] => []
  | '$' :: '{' :: t =>
    match _h : body? 0 t with
    | none => [.broken ('$' :: '{' :: t) "unterminated placeholder".toList]
    | some (b, r) => reference b (ofText (head b).2.2) :: ofText r
  | '$' :: t =>
    match _h : bare? t with
    | none => .literal ['$'] :: ofText t
    | some (item, r) => item :: ofText r
  | c :: t => .literal (c :: t.takeWhile (· != '$')) :: ofText (t.dropWhile (· != '$'))
termination_by t => t.length
decreasing_by
  · have := body?_length _h
    have := head_length_le b
    simp only [List.length_cons]
    omega
  · have := body?_length _h
    simp only [List.length_cons]
    omega
  · simp
  · have := bare?_length_le _h
    simp only [List.length_cons]
    omega
  · have := (List.dropWhile_sublist (l := t) (· != '$')).length_le
    simp only [List.length_cons]
    omega

end Template

end EnvFile
