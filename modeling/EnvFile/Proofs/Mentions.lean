import EnvFile.Listing

namespace EnvFile

namespace Template

mutual

/-- The names that stand in an item, those of defaults that may never be used included. -/
def itemNames : Item → List Text
  | .literal _ => []
  | .value name => [name]
  | .withDefault name _ default => name :: names default
  | .required name _ _ => [name]
  | .broken .. => []
termination_by structural item => item

def names : Template → List Text
  | [] => []
  | item :: items => itemNames item ++ names items
termination_by structural template => template

end

end Template

/-- What a name stands for where it is first found: the text of a value, or else a draft, or nothing. -/
inductive Definition
  | value (text : Except Fault Text)
  | draft (draft : Text)
  | missing

namespace Scope

open Template

def definition (s : Scope) (name : Text) : Definition :=
  match s.value? name, s.drafts.get? name with
  | some v, _ => .value v.splice
  | none, some draft => .draft draft
  | none, none => .missing

/-- Two scopes find names with a property alike, and drafts lead to no other names. Nothing is asked
of the names in `chain`, which are not looked up again. -/
structure FindsAlike (chain : List Text) (P : Text → Prop) (s s' : Scope) : Prop where
  limit : s.limit = s'.limit
  definition : ∀ name, P name → name ∉ chain → s.definition name = s'.definition name
  closed : ∀ name draft, P name → name ∉ chain → s.definition name = .draft draft →
    ∀ n ∈ names (Template.ofText draft), P n

/-- Two scopes are the same for names with a property, and their drafts lead to no other names. -/
structure AgreesOn (P : Text → Prop) (s s' : Scope) : Prop where
  limit : s.limit = s'.limit
  value : ∀ name, P name → s.value? name = s'.value? name
  draft : ∀ name, P name → s.drafts.get? name = s'.drafts.get? name
  closed : ∀ name draft, P name → s.drafts.get? name = some draft →
    ∀ n ∈ names (Template.ofText draft), P n

variable {P : Text → Prop} {s s' : Scope} {expand expand' : List Text → Text → Except Fault Text}
  {chain first : List Text}

theorem definition_congr {name : Text} (hv : s.value? name = s'.value? name)
    (hd : s.drafts.get? name = s'.drafts.get? name) : s.definition name = s'.definition name := by
  unfold definition
  rw [hv, hd]

theorem definition_eq_draft {name draft : Text} :
    s.definition name = .draft draft ↔ s.value? name = none ∧ s.drafts.get? name = some draft := by
  unfold definition
  cases s.value? name with
  | some v => simp
  | none => cases s.drafts.get? name <;> simp

theorem AgreesOn.findsAlike (h : AgreesOn P s s') (chain : List Text) : FindsAlike chain P s s' :=
  ⟨h.limit, fun name hn _ => definition_congr (h.value name hn) (h.draft name hn),
    fun name draft hn _ hd => h.closed name draft hn (definition_eq_draft.mp hd).2⟩

/-- What a look-up finds hangs on the definition of the name, unless the chain forbids it. -/
theorem lookUp_of_definition (s : Scope) (expand : List Text → Text → Except Fault Text)
    {name : Text} (hc : name ∉ chain) (hroom : ¬s.limit ≤ chain.length) :
    s.lookUp expand chain name = match s.definition name with
      | .value text => text.map some
      | .draft draft => do
        let v ← Value.ofText (← expand (chain ++ [name]) draft)
        v.splice.map some
      | .missing => .ok none := by
  unfold lookUp definition
  rw [if_neg hc, if_neg hroom]
  cases s.value? name with
  | some v => rfl
  | none => cases s.drafts.get? name <;> rfl

theorem lookUp_alike (h : FindsAlike first P s s') (hfirst : ∀ n ∈ first, n ∈ chain)
    (he : ∀ chain draft, (∀ n ∈ first, n ∈ chain) → (∀ n ∈ names (Template.ofText draft), P n) →
      expand chain draft = expand' chain draft)
    {name : Text} (hn : P name) : s.lookUp expand chain name = s'.lookUp expand' chain name := by
  by_cases hc : name ∈ chain
  · rw [lookUp, lookUp, if_pos hc, if_pos hc]
  by_cases hroom : s.limit ≤ chain.length
  · rw [lookUp, lookUp, if_neg hc, if_neg hc, if_pos hroom, if_pos (h.limit ▸ hroom), h.limit]
  have hfree : name ∉ first := fun hmem => hc (hfirst name hmem)
  rw [lookUp_of_definition s expand hc hroom, lookUp_of_definition s' expand' hc (h.limit ▸ hroom),
    ← h.definition name hn hfree]
  cases hd : s.definition name with
  | value text => rfl
  | missing => rfl
  | draft draft =>
    have hexpand := he (chain ++ [name]) draft
      (fun n hmem => List.mem_append_left _ (hfirst n hmem)) (h.closed name draft hn hfree hd)
    simp only [hexpand]

theorem lookUp_congr (h : AgreesOn P s s')
    (he : ∀ chain draft, (∀ n ∈ names (Template.ofText draft), P n) →
      expand chain draft = expand' chain draft)
    {name : Text} (hn : P name) : s.lookUp expand chain name = s'.lookUp expand' chain name :=
  lookUp_alike (h.findsAlike []) (by simp) (fun chain draft _ => he chain draft) hn

mutual

theorem expandItem_congr (hl : ∀ name, P name → s.lookUp expand chain name = s'.lookUp expand' chain name) :
    (item : Item) → (∀ n ∈ itemNames item, P n) →
      s.expandItem expand chain item = s'.expandItem expand' chain item
  | .literal _, _ => rfl
  | .value name, hn => by
    unfold expandItem
    rw [hl name (hn name (by simp [itemNames]))]
  | .withDefault name enough default, hn => by
    have hd := expandItems_congr hl default fun n hm => hn n (by simp [itemNames, hm])
    unfold expandItem
    rw [hl name (hn name (by simp [itemNames])), hd]
  | .required name enough message, hn => by
    unfold expandItem
    rw [hl name (hn name (by simp [itemNames]))]
  | .broken _ _, _ => rfl

theorem expandItems_congr (hl : ∀ name, P name → s.lookUp expand chain name = s'.lookUp expand' chain name) :
    (items : Template) → (∀ n ∈ names items, P n) →
      s.expandItems expand chain items = s'.expandItems expand' chain items
  | [], _ => rfl
  | item :: items, hn => by
    have hi := expandItem_congr hl item fun n hm => hn n (by simp [names, hm])
    have his := expandItems_congr hl items fun n hm => hn n (by simp [names, hm])
    unfold expandItems
    rw [hi, his]

end

/-- A text expands alike in two scopes that find alike its names and all that these lead to. -/
theorem expandIn_alike (h : FindsAlike first P s s') (hfirst : ∀ n ∈ first, n ∈ chain) {room : Nat}
    {draft : Text} (hn : ∀ n ∈ names (Template.ofText draft), P n) :
    s.expandIn room chain draft = s'.expandIn room chain draft := by
  induction room generalizing chain draft with
  | zero =>
    unfold expandIn
    rw [h.limit]
    exact expandItems_congr (fun _ => lookUp_alike h hfirst fun _ _ _ _ => rfl) _ hn
  | succ room ih =>
    unfold expandIn
    exact expandItems_congr (fun _ => lookUp_alike h hfirst fun _ _ hsub hd => ih hsub hd) _ hn

theorem expandIn_congr (h : AgreesOn P s s') {room : Nat} {chain : List Text} {draft : Text}
    (hn : ∀ n ∈ names (Template.ofText draft), P n) :
    s.expandIn room chain draft = s'.expandIn room chain draft :=
  expandIn_alike (h.findsAlike []) (by simp) hn

theorem expand_congr (h : AgreesOn P s s') (owner : Option Text) {draft : Text}
    (hn : ∀ n ∈ names (Template.ofText draft), P n) : s.expand owner draft = s'.expand owner draft := by
  unfold expand
  rw [h.limit]
  exact expandIn_congr h hn

end Scope

namespace Listing

theorem value_congr {P : Text → Prop} {s s' : Scope} (h : Scope.AgreesOn P s s') (key : Text)
    {draft : Text} (hn : ∀ n ∈ Template.names (Template.ofText draft), P n) :
    value s key draft = value s' key draft := by
  unfold value
  rw [Scope.expand_congr h _ hn]

end Listing

end EnvFile
