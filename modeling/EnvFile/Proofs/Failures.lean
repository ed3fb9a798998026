import EnvFile.Proofs.Numerals

namespace EnvFile

/-- Whatever a result fails with has a property. -/
def FailsOnly {α : Type} (P : Fault → Prop) (x : Except Fault α) : Prop :=
  ∀ fault, x = .error fault → P fault

namespace FailsOnly

variable {α β : Type} {P Q : Fault → Prop} {x : Except Fault α}

theorem ok (a : α) : FailsOnly P (Except.ok a : Except Fault α) := by
  intro fault h
  cases h

theorem error {fault : Fault} (h : P fault) : FailsOnly P (.error fault : Except Fault α) := by
  intro fault' h'
  cases h'
  exact h

theorem bind_of_ok {f : α → Except Fault β} (hx : FailsOnly P x)
    (hf : ∀ a, x = .ok a → FailsOnly P (f a)) : FailsOnly P (x >>= f) := by
  intro fault h
  rcases Results.bind_eq_error.mp h with h | ⟨a, ha, h⟩
  · exact hx fault h
  · exact hf a ha fault h

theorem bind {f : α → Except Fault β} (hx : FailsOnly P x) (hf : ∀ a, FailsOnly P (f a)) :
    FailsOnly P (x >>= f) :=
  hx.bind_of_ok fun a _ => hf a

theorem map (hx : FailsOnly P x) (f : α → β) : FailsOnly P (x.map f) := by
  cases x with
  | ok a => exact ok (f a)
  | error fault => exact error (hx fault rfl)

theorem mono (hx : FailsOnly P x) (h : ∀ fault, P fault → Q fault) : FailsOnly Q x :=
  fun fault he => h fault (hx fault he)

end FailsOnly

theorem Numeral.writeInt_fails (n : Int) : FailsOnly (· = .integerTooLong) (writeInt n) := by
  unfold writeInt
  simp only
  split
  · exact .error rfl
  · exact .ok _

theorem Numeral.readInt_fails (negative : Bool) (digits : Text) :
    FailsOnly (fun fault => Fault.digitLimit < digits.length ∧ fault = .numeralTooLong digits.length)
      (readInt negative digits) := by
  unfold readInt
  split
  next h => exact .error ⟨h, rfl⟩
  next => exact .ok _

namespace Value

mutual

theorem literal_fails : (v : Value) → FailsOnly (· = .integerTooLong) v.literal
  | .null | .bool true | .bool false | .float _ | .text _ => .ok _
  | .int n => Numeral.writeInt_fails n
  | .list items => by
    unfold literal
    exact (literals_fails items).bind fun _ => .ok _
  | .dict entries => by
    unfold literal
    exact (literalEntries_fails entries).bind fun _ => .ok _

theorem literals_fails : (vs : List Value) → FailsOnly (· = .integerTooLong) (literals vs)
  | [] => .ok _
  | v :: vs => by
    unfold literals
    exact (literal_fails v).bind fun _ => (literals_fails vs).bind fun _ => .ok _

theorem literalEntries_fails :
    (es : List (Text × Value)) → FailsOnly (· = .integerTooLong) (literalEntries es)
  | [] => .ok _
  | (_, v) :: es => by
    unfold literalEntries
    exact (literal_fails v).bind fun _ => (literalEntries_fails es).bind fun _ => .ok _

end

theorem splice_fails (v : Value) : FailsOnly (· = .integerTooLong) v.splice := by
  unfold splice
  split
  · exact .ok _
  · exact .ok _
  · exact .ok _
  · unfold display
    split
    · exact .ok _
    · exact literal_fails _

/-- The fault of reading a text: it is an integer, and has too many digits. -/
def Overlong (t : Text) (fault : Fault) : Prop :=
  ∃ negative digits, Numeral.ofText? (Text.trim t) = some (.integer negative digits) ∧
    Fault.digitLimit < digits.length ∧ fault = .numeralTooLong digits.length

theorem ofText_fails (t : Text) : FailsOnly (Overlong t) (ofText t) := by
  unfold ofText
  split
  next => exact .ok _
  next =>
    simp only
    split
    next => exact .ok _
    split
    next => exact .ok _
    split
    next => exact .ok _
    split
    next n hn =>
      cases n with
      | integer negative digits =>
        have hread := (Numeral.readInt_fails negative digits).map int
        exact hread.mono fun _ ⟨hlong, hfault⟩ => ⟨negative, digits, hn, hlong, hfault⟩
      | decimal negative whole fraction => exact .ok _
    next => exact .ok _

theorem ofText_of_overlong {t : Text} {fault : Fault} (h : Overlong t fault) :
    ofText t = .error fault := by
  obtain ⟨negative, digits, hnumeral, hlong, rfl⟩ := h
  rw [ofText_of_numeral hnumeral]
  simp [ofNumeral, Numeral.readInt, hlong, Except.map]

/-- More ones than an integer may have digits. -/
theorem overlong_ones {n : Nat} (hn : Fault.digitLimit < n) :
    Overlong (List.replicate n '1') (.numeralTooLong n) := by
  have htrim : Text.trim (List.replicate n '1') = List.replicate n '1' :=
    Text.trim_of_not_blank fun c hc => by rw [List.eq_of_mem_replicate hc]; rfl
  have hne : List.replicate n '1' ≠ [] := by
    rw [Ne, List.replicate_eq_nil_iff]
    omega
  refine ⟨false, List.replicate n '1', ?_, ?_, ?_⟩
  · rw [htrim]
    exact Numeral.ofText?_of_digits false (Text.isDigit_of_mem_ones n) hne
  · rwa [List.length_replicate]
  · rw [List.length_replicate]

end Value

end EnvFile
