import Mathlib.Data.List.TakeWhile
import EnvFile.Template.Basic

namespace EnvFile

/-- A reference as it stands in a text: the name, what is asked for after it, and with what text. -/
structure Reference where
  name : Text
  operator : Operator
  argument : Text
deriving DecidableEq, Repr

/-- The reference as an item of a template, its argument read as a default where it is one. -/
def Reference.item (ref : Reference) : Item :=
  match ref.operator with
  | .plain => .value ref.name
  | .orDefault enough => .withDefault ref.name enough (Template.ofText ref.argument)
  | .orFail enough => .required ref.name enough ref.argument

/-- What a dollar sign begins: nothing, a broken placeholder, or a reference that a rest follows. -/
inductive Opened
  | nothing
  | broken (placeholder detail : Text)
  | reference (ref : Reference) (rest : Text)
deriving DecidableEq, Repr

namespace Opened

/-- What a body in braces refers to, where `rest` follows the closing brace. -/
def ofBody (body rest : Text) : Opened :=
  let placeholder := '$' :: '{' :: body ++ ['}']
  match Template.head body with
  | ([], _, _) => .broken placeholder "invalid placeholder".toList
  | (_, .plain, _ :: _) => .broken placeholder "invalid substitution operator".toList
  | (name, operator, argument) => .reference ⟨name, operator, argument⟩ rest

/-- What a dollar sign begins before a text that no brace opens. -/
def ofBare (t : Text) : Opened :=
  match t.takeWhile Text.isNameChar, t.dropWhile Text.isNameChar with
  | [], _ => .nothing
  | name, '-' :: r =>
    .reference ⟨name, .orDefault .defined, r.takeWhile Template.isBareDefault⟩
      (r.dropWhile Template.isBareDefault)
  | name, r => .reference ⟨name, .plain, []⟩ r

def ofText : Text → Opened
  | '{' :: t =>
    match Template.body? 0 t with
    | none => .broken ('$' :: '{' :: t) "unterminated placeholder".toList
    | some (body, rest) => ofBody body rest
  | t => ofBare t

/-- The items begin with what a dollar sign has opened before a text. After a broken placeholder it
does not matter what comes. -/
def Begins (t : Text) (items : Template) : Opened → Prop
  | nothing => items = .literal ['$'] :: Template.ofText t
  | broken placeholder detail => ∃ more, items = .broken placeholder detail :: more
  | reference ref rest => items = ref.item :: Template.ofText rest

end Opened

namespace Text

variable {p : Char → Bool} {c : Char}

theorem takeWhile_append_stop (hc : p c = false) (t u : Text) :
    (t ++ c :: u).takeWhile p = t.takeWhile p := by
  induction t with
  | nil => simp [hc]
  | cons d t ih => rw [List.cons_append, List.takeWhile_cons, List.takeWhile_cons, ih]

theorem dropWhile_append_stop (hc : p c = false) (t u : Text) :
    (t ++ c :: u).dropWhile p = t.dropWhile p ++ c :: u := by
  induction t with
  | nil => simp [hc]
  | cons d t ih =>
    rw [List.cons_append, List.dropWhile_cons, List.dropWhile_cons, ih]
    split <;> rfl

end Text

namespace Template

theorem ofText_of_not_mem {t : Text} (h : '$' ∉ t) : ofText t = verbatim t := by
  cases t with
  | nil => rw [verbatim, ofText]
  | cons c t =>
    rw [List.mem_cons, not_or] at h
    have hall : ∀ d ∈ t, (d != '$') = true := fun d hd => by
      simpa using ne_of_mem_of_not_mem hd h.2
    have htake : t.takeWhile (· != '$') = t := List.takeWhile_eq_self_iff.mpr hall
    have hdrop : t.dropWhile (· != '$') = [] := List.dropWhile_eq_nil_iff.mpr hall
    rw [ofText.eq_4 c t (fun _ he => absurd he.symm h.1) (fun he => h.1 he.symm), htake, hdrop, ofText]
    rfl

theorem begins_reference (t body rest : Text) :
    (Opened.ofBody body rest).Begins t
      (reference body (ofText (head body).2.2) :: ofText rest) := by
  unfold Opened.ofBody reference
  rcases head body with ⟨name, operator, argument⟩
  cases name with
  | nil => exact ⟨_, rfl⟩
  | cons c name =>
    cases operator with
    | plain =>
      cases argument with
      | nil => rfl
      | cons d argument => exact ⟨_, rfl⟩
    | orDefault enough => rfl
    | orFail enough => rfl

theorem not_mem_takeWhile_isBareDefault (t : Text) : '$' ∉ t.takeWhile isBareDefault := by
  intro h
  have hd := List.all_eq_true.mp (List.all_takeWhile (p := isBareDefault) (l := t)) '$' h
  simp [isBareDefault] at hd

theorem ofBare_of_nil {t : Text} (h : t.takeWhile Text.isNameChar = []) :
    Opened.ofBare t = .nothing := by
  unfold Opened.ofBare
  rw [h]

theorem ofBare_of_minus {t r : Text} (h : t.takeWhile Text.isNameChar ≠ [])
    (hr : t.dropWhile Text.isNameChar = '-' :: r) :
    Opened.ofBare t = .reference
      ⟨t.takeWhile Text.isNameChar, .orDefault .defined, r.takeWhile isBareDefault⟩
      (r.dropWhile isBareDefault) := by
  unfold Opened.ofBare
  split
  next hnil => exact absurd hnil h
  next hr' _ =>
    rw [hr] at hr'
    cases hr'
    rfl
  next hne => exact absurd hr (hne _)

theorem ofBare_of_not_minus {t : Text} (h : t.takeWhile Text.isNameChar ≠ [])
    (hr : ∀ r, t.dropWhile Text.isNameChar ≠ '-' :: r) :
    Opened.ofBare t = .reference ⟨t.takeWhile Text.isNameChar, .plain, []⟩
      (t.dropWhile Text.isNameChar) := by
  unfold Opened.ofBare
  split
  next hnil => exact absurd hnil h
  next hr' _ => exact absurd hr' (hr _)
  next => rfl

theorem ofBare_eq_nothing {t : Text} (h : bare? t = none) : Opened.ofBare t = .nothing := by
  unfold bare? at h
  split at h
  next hname => exact ofBare_of_nil hname
  next => simp at h
  next => simp at h

theorem ofBare_eq_reference {t rest : Text} {item : Item} (h : bare? t = some (item, rest)) :
    ∃ ref, Opened.ofBare t = .reference ref rest ∧ ref.item = item := by
  unfold bare? at h
  split at h
  next => simp at h
  next r hr hname =>
    cases h
    refine ⟨_, ofBare_of_minus hname hr, ?_⟩
    rw [← ofText_of_not_mem (not_mem_takeWhile_isBareDefault r)]
    rfl
  next hname hne =>
    cases h
    exact ⟨_, ofBare_of_not_minus hname hne, rfl⟩

/-- A dollar sign opens in a template what it begins in the text. -/
theorem begins_ofText (t : Text) : (Opened.ofText t).Begins t (ofText ('$' :: t)) := by
  unfold Opened.ofText
  split
  next t =>
    rw [ofText.eq_2]
    split
    next h =>
      rw [h]
      exact ⟨_, rfl⟩
    next body rest h =>
      rw [h]
      exact begins_reference _ body rest
  next hne =>
    rw [ofText.eq_3 _ hne]
    split
    next h =>
      rw [ofBare_eq_nothing h]
      rfl
    next item rest h =>
      obtain ⟨ref, hopen, rfl⟩ := ofBare_eq_reference h
      rw [hopen]
      rfl

end Template

namespace Opened

variable {ref : Reference} {body rest t : Text}

theorem ofBody_eq_reference (h : ofBody body rest = .reference ref t) :
    t = rest ∧ ref.argument = (Template.head body).2.2 := by
  unfold ofBody at h
  simp only at h
  split at h
  next => simp at h
  next => simp at h
  next hhead =>
    cases h
    exact ⟨rfl, by rw [hhead]⟩

/-- The argument of a reference and what follows it are parts of the text. -/
theorem length_le_of_ofText (h : ofText t = .reference ref rest) :
    ref.argument.length ≤ t.length ∧ rest.length ≤ t.length := by
  unfold ofText at h
  split at h
  next t =>
    split at h
    next => simp at h
    next body after hbody =>
      obtain ⟨rfl, harg⟩ := ofBody_eq_reference h
      have hlength := Template.body?_length hbody
      have hhead := Template.head_length_le body
      rw [harg, List.length_cons]
      omega
  next =>
    have hdrop := (List.dropWhile_sublist (l := t) Text.isNameChar).length_le
    unfold ofBare at h
    split at h
    next => simp at h
    next r hr _ =>
      cases h
      have hargument := (List.takeWhile_sublist (l := r) Template.isBareDefault).length_le
      have hrest := (List.dropWhile_sublist (l := r) Template.isBareDefault).length_le
      rw [hr, List.length_cons] at hdrop
      simp only
      omega
    next =>
      cases h
      exact ⟨Nat.zero_le _, hdrop⟩

end Opened

end EnvFile
