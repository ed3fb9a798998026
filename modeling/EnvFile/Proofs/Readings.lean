import EnvFile.Proofs.Declarations
import EnvFile.Proofs.Mentions

namespace EnvFile

namespace Scope

variable {P : Text → Prop} {s s' : Scope}

theorem value?_insert (s : Scope) (key name : Text) (v : Value) :
    Scope.value? { s with overlay := s.overlay.insert key v } name =
      if key = name then some v else s.value? name := by
  unfold Scope.value?
  rw [Table.get?_insert]
  split <;> simp

theorem AgreesOn.insert (h : AgreesOn P s s') (key : Text) (v : Value) :
    AgreesOn P { s with overlay := s.overlay.insert key v }
      { s' with overlay := s'.overlay.insert key v } := by
  refine ⟨h.limit, fun name hn => ?_, h.draft, h.closed⟩
  rw [value?_insert, value?_insert, h.value name hn]

theorem AgreesOn.insert_left (h : AgreesOn P s s') {key : Text} (hk : ¬P key) (v : Value) :
    AgreesOn P { s with overlay := s.overlay.insert key v } s' := by
  refine ⟨h.limit, fun name hn => ?_, h.draft, h.closed⟩
  have hne : key ≠ name := fun he => hk (he ▸ hn)
  rw [value?_insert, if_neg hne, h.value name hn]

theorem AgreesOn.insert_right (h : AgreesOn P s s') {key : Text} (hk : ¬P key) (v : Value) :
    AgreesOn P s { s' with overlay := s'.overlay.insert key v } := by
  refine ⟨h.limit, fun name hn => ?_, h.draft, h.closed⟩
  have hne : key ≠ name := fun he => hk (he ▸ hn)
  rw [value?_insert, if_neg hne, h.value name hn]

end Scope

namespace Listing

open Scope

variable {P : Text → Prop} {s s' : Scope} {staged staged' t : Table Text Value}
  {es : List (Text × Text)}

theorem foldlM_cons_eq_ok {e : Text × Text} :
    (e :: es).foldlM (stage s) staged = .ok t ↔
      ∃ v, value { s with overlay := staged } e.1 e.2 = .ok v ∧
        es.foldlM (stage s) (staged.insert e.1 v) = .ok t := by
  rw [List.foldlM_cons, Results.bind_eq_ok]
  constructor
  · rintro ⟨next, hn, h⟩
    obtain ⟨v, hv, rfl⟩ := Results.map_eq_ok.mp hn
    exact ⟨v, hv, h⟩
  · rintro ⟨v, hv, h⟩
    exact ⟨_, Results.map_eq_ok.mpr ⟨v, hv, rfl⟩, h⟩

theorem get?_of_foldlM_none {key : Text} (h : es.foldlM (stage s) staged = .ok t)
    (hk : key ∉ es.map Prod.fst) : t.get? key = staged.get? key := by
  induction es generalizing staged with
  | nil =>
    cases h
    rfl
  | cons e es ih =>
    rw [List.map_cons, List.mem_cons, not_or] at hk
    obtain ⟨v, _, h⟩ := foldlM_cons_eq_ok.mp h
    rw [ih h hk.2, Table.get?_insert, if_neg (Ne.symm hk.1)]

/-- The value of a key is what its last declaration gives it. -/
theorem get?_of_foldlM {key draft : Text} (h : es.foldlM (stage s) staged = .ok t)
    (hd : Table.find? key es.reverse = some draft) :
    ∃ before v, value { s with overlay := before } key draft = .ok v ∧ t.get? key = some v := by
  induction es generalizing staged with
  | nil => simp [Table.find?] at hd
  | cons e es ih =>
    obtain ⟨v, hv, h⟩ := foldlM_cons_eq_ok.mp h
    rw [List.reverse_cons, Table.find?_append, Option.or_eq_some_iff] at hd
    rcases hd with hd | ⟨hnone, hd⟩
    · exact ih h hd
    · obtain ⟨k, d⟩ := e
      obtain ⟨rfl, rfl⟩ : k = key ∧ d = draft := by
        have hmem := Table.mem_of_find? hd
        simpa [eq_comm] using hmem
      refine ⟨staged, v, hv, ?_⟩
      have hrest : k ∉ es.map Prod.fst := by
        rw [Table.find?_eq_none_iff, List.map_reverse, List.mem_reverse] at hnone
        exact hnone
      rw [get?_of_foldlM_none h hrest]
      simp

/-- A row of declarations fails only where the value of one of them does. -/
theorem exists_value_of_foldlM_error {fault : Fault} (h : es.foldlM (stage s) staged = .error fault) :
    ∃ e ∈ es, ∃ before, value { s with overlay := before } e.1 e.2 = .error fault := by
  induction es generalizing staged with
  | nil => simp [pure, Except.pure] at h
  | cons e es ih =>
    rw [List.foldlM_cons, Results.bind_eq_error] at h
    rcases h with h | ⟨next, _, h⟩
    · refine ⟨e, List.mem_cons_self, staged, ?_⟩
      unfold stage at h
      cases hv : value { s with overlay := staged } e.1 e.2 with
      | error fault' =>
        rw [hv] at h
        cases h
        rfl
      | ok v => simp [hv, Except.map] at h
    · obtain ⟨e', he', hv⟩ := ih h
      exact ⟨e', List.mem_cons_of_mem _ he', hv⟩

/-- Declarations that can be read in one scope can be read in another one that agrees with it on
all names that they mention, and the two agree still. -/
theorem foldlM_agree (ha : AgreesOn P { s with overlay := staged } { s' with overlay := staged' })
    (hes : ∀ e ∈ es, ∀ n ∈ Template.names (Template.ofText e.2), P n)
    (h : es.foldlM (stage s) staged = .ok t) :
    ∃ t', es.foldlM (stage s') staged' = .ok t' ∧
      AgreesOn P { s with overlay := t } { s' with overlay := t' } := by
  induction es generalizing staged staged' with
  | nil =>
    cases h
    exact ⟨staged', rfl, ha⟩
  | cons e es ih =>
    obtain ⟨he, hes⟩ := List.forall_mem_cons.mp hes
    obtain ⟨v, hv, h⟩ := foldlM_cons_eq_ok.mp h
    obtain ⟨t', ht', ha'⟩ := ih (ha.insert e.1 v) hes h
    rw [value_congr ha e.1 he] at hv
    exact ⟨t', foldlM_cons_eq_ok.mpr ⟨v, hv, ht'⟩, ha'⟩

/-- Declarations of keys that do not count leave two scopes in agreement. -/
theorem agree_of_foldlM (ha : AgreesOn P { s with overlay := staged } { s' with overlay := staged' })
    (hes : ∀ e ∈ es, ¬P e.1) (h : es.foldlM (stage s) staged = .ok t) :
    AgreesOn P { s with overlay := t } { s' with overlay := staged' } := by
  induction es generalizing staged with
  | nil =>
    cases h
    exact ha
  | cons e es ih =>
    obtain ⟨he, hes⟩ := List.forall_mem_cons.mp hes
    obtain ⟨v, _, h⟩ := foldlM_cons_eq_ok.mp h
    exact ih (ha.insert_left he v) hes h

/-- Lines among which no reader passes one over read only if none of them is broken. -/
theorem not_broken_of_entriesFrom {m : Manner} {number : Nat} {lines : List Text}
    (hm : m.tolerant = false) (h : (entriesFrom s m number lines staged).1 = .ok t) :
    ∀ line ∈ lines, ∀ problem, Line.ofText line ≠ .broken problem := by
  induction lines generalizing number staged with
  | nil => simp
  | cons line lines ih =>
    unfold entriesFrom at h
    rw [List.forall_mem_cons]
    split at h
    next hl => exact ⟨by simp [hl], ih h⟩
    next => simp [hm] at h
    next hl =>
      refine ⟨by simp [hl], ?_⟩
      split at h
      next =>
        split at h
        next => simp at h
        next => exact ih h
      next => exact ih h

end Listing

end EnvFile
