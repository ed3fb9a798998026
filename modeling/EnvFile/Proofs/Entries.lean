import EnvFile.Proofs.DeclarationOrder
import EnvFile.Proofs.Failures

namespace EnvFile

/-- A fault of finding or opening files, and not of what they say. -/
def Fault.isOfPlaces : Fault → Bool
  | access .. | noFile .. => true
  | _ => false

/-- A result that no file kept from being there. -/
def Textual {α : Type} (x : Except Fault α) : Prop :=
  ∀ fault, x = .error fault → fault.isOfPlaces = false

theorem FailsOnly.textual {α : Type} {P : Fault → Prop} {x : Except Fault α} (hx : FailsOnly P x)
    (h : ∀ fault, P fault → fault.isOfPlaces = false) : Textual x :=
  hx.mono h

namespace Textual

variable {α : Type}

theorem ok (a : α) : Textual (Except.ok a : Except Fault α) := FailsOnly.ok a

theorem error {fault : Fault} (h : fault.isOfPlaces = false) :
    Textual (.error fault : Except Fault α) :=
  FailsOnly.error h

end Textual

namespace Value

theorem splice_textual (v : Value) : Textual v.splice := by
  apply v.splice_fails.textual
  rintro _ rfl
  rfl

theorem ofText_textual (t : Text) : Textual (ofText t) := by
  apply (ofText_fails t).textual
  rintro _ ⟨_, _, _, _, rfl⟩
  rfl

end Value

/-- A fault of a template, or a hazard that it meets. -/
def Fault.isOfExpansion : Fault → Bool
  | dangerous _ | expansion _ | recursive _ | tooDeep .. | required .. | badPlaceholder .. => true
  | _ => false

theorem Fault.not_isOfPlaces (fault : Fault) (h : fault.isOfExpansion) :
    fault.isOfPlaces = false := by
  cases fault with
  | access | noFile => simp [isOfExpansion] at h
  | _ => rfl

namespace Scope

variable {P : Fault → Prop} {s : Scope} {expand : List Text → Text → Except Fault Text}
  {chain : List Text}

theorem screen_fails (hP : ∀ fault, fault.isOfExpansion → P fault) (chain : List Text)
    (name t : Text) : FailsOnly P (screen chain name t) := by
  unfold screen
  split
  · exact .error (hP _ rfl)
  · exact .ok _

theorem lookUp_fails (hP : ∀ fault, fault.isOfExpansion → P fault)
    (hv : ∀ name v, s.value? name = some v → FailsOnly P v.splice) {name : Text}
    (hd : ∀ draft, s.drafts.get? name = some draft → FailsOnly P (expand (chain ++ [name]) draft) ∧
      ∀ t, expand (chain ++ [name]) draft = .ok t → FailsOnly P (Value.ofText t)) :
    FailsOnly P (s.lookUp expand chain name) := by
  unfold lookUp
  split
  next => exact .error (hP _ rfl)
  split
  next => exact .error (hP _ rfl)
  split
  next v hfound => exact (hv name v hfound).map some
  split
  next draft hdraft =>
    obtain ⟨hexpand, hread⟩ := hd draft hdraft
    refine hexpand.bind_of_ok fun t ht => (hread t ht).bind_of_ok fun v hv => ?_
    obtain ⟨u, hu⟩ := Value.splice_of_ofText hv
    rw [hu]
    exact .ok _
  next => exact .ok _

mutual

theorem expandItem_fails (hP : ∀ fault, fault.isOfExpansion → P fault)
    (hl : ∀ name, FailsOnly P (s.lookUp expand chain name)) :
    (item : Item) → FailsOnly P (s.expandItem expand chain item)
  | .literal t => .ok _
  | .value name => (hl name).bind fun _ => screen_fails hP _ _ _
  | .withDefault name enough default => by
    rw [expandItem_withDefault]
    refine (hl name).bind fun found => ?_
    split
    · exact screen_fails hP _ _ _
    · exact (expandItems_fails hP hl default).bind fun _ => screen_fails hP _ _ _
  | .required name enough message => by
    rw [expandItem_required]
    refine (hl name).bind fun found => ?_
    split
    · exact screen_fails hP _ _ _
    · exact .error (hP _ rfl)
  | .broken _ _ => .error (hP _ rfl)

theorem expandItems_fails (hP : ∀ fault, fault.isOfExpansion → P fault)
    (hl : ∀ name, FailsOnly P (s.lookUp expand chain name)) :
    (items : Template) → FailsOnly P (s.expandItems expand chain items)
  | [] => .ok _
  | item :: items =>
    (expandItem_fails hP hl item).bind fun _ => (expandItems_fails hP hl items).bind fun _ => .ok _

end

/-- Besides its own faults, expanding meets those of values that have no text, and of what drafts
expand to. -/
theorem expandIn_fails (hP : ∀ fault, fault.isOfExpansion → P fault)
    (hv : ∀ name v, s.value? name = some v → FailsOnly P v.splice)
    (hd : ∀ name draft room chain t, s.drafts.get? name = some draft →
      s.expandIn room chain draft = .ok t → FailsOnly P (Value.ofText t))
    (room : Nat) (chain : List Text) (t : Text) : FailsOnly P (s.expandIn room chain t) := by
  induction room generalizing chain t with
  | zero =>
    refine expandItems_fails hP (fun name => lookUp_fails hP hv fun draft _ => ⟨?_, ?_⟩) _
    · exact .error (hP _ rfl)
    · intro u hu
      simp at hu
  | succ room ih =>
    exact expandItems_fails hP (fun name => lookUp_fails hP hv fun draft hdraft =>
      ⟨ih _ draft, fun u hu => hd name draft room _ u hdraft hu⟩) _

end Scope

namespace Listing

theorem value_fails {P : Fault → Prop} (hP : ∀ fault, fault.isOfExpansion → P fault) {s : Scope}
    (hv : ∀ name v, s.value? name = some v → FailsOnly P v.splice)
    (hd : ∀ name draft room chain t, s.drafts.get? name = some draft →
      s.expandIn room chain draft = .ok t → FailsOnly P (Value.ofText t)) {draft : Text}
    (ht : ∀ room chain t, s.expandIn room chain draft = .ok t → FailsOnly P (Value.ofText t))
    (key : Text) : FailsOnly P (value s key draft) := by
  refine (Scope.expandIn_fails hP hv hd _ _ draft).bind_of_ok fun t hexpand => ?_
  split
  · exact .error (hP _ rfl)
  · split
    · exact .ok _
    · exact ht _ _ t hexpand

theorem value_textual (s : Scope) (key draft : Text) : Textual (value s key draft) :=
  value_fails Fault.not_isOfPlaces (fun _ v _ => v.splice_textual)
    (fun _ _ _ _ t _ _ => Value.ofText_textual t) (fun _ _ t _ => Value.ofText_textual t) key

theorem splice_of_value {s : Scope} {key draft : Text} {v : Value} (h : value s key draft = .ok v) :
    ∃ u, v.splice = .ok u := by
  obtain ⟨_, _, _, hs⟩ := value_eq_ok.mp h
  obtain ⟨_, u, _, _, hu⟩ := splice_of_settled hs
  exact ⟨u, hu⟩

variable {s : Scope} {m : Manner} {number : Nat} {lines : List Text} {staged values : Table Text Value}

theorem entriesFrom_textual (s : Scope) (m : Manner) (number : Nat) (lines : List Text)
    (staged : Table Text Value) : Textual (entriesFrom s m number lines staged).1 := by
  induction lines generalizing number staged with
  | nil => exact .ok _
  | cons line lines ih =>
    unfold entriesFrom
    split
    next => exact ih _ _
    next =>
      simp only
      split
      · exact ih _ _
      · exact .error rfl
    next key draft _ =>
      split
      next =>
        split
        next fault hv => exact .error (value_textual _ key draft fault hv)
        next => exact ih _ _
      next => exact ih _ _

theorem entries_textual (cache ambient : Table Text Value) (m : Manner) (lines : List Text) :
    Textual (entries cache ambient m lines).1 :=
  entriesFrom_textual _ _ _ _ _

/-- Whatever lines are read as can be put into other values. -/
theorem splice_of_entries {cache ambient : Table Text Value}
    (h : (entries cache ambient m lines).1 = .ok values) :
    ∀ e ∈ values.entries, ∃ u, e.2.splice = .ok u := by
  have hall : ∀ key v, values.get? key = some v → ∃ u, v.splice = .ok u :=
    forall_of_entriesFrom splice_of_value (by simp) h
  rintro ⟨key, v⟩ he
  exact hall key v (Table.mem_entries_iff.mp he)

end Listing

end EnvFile
