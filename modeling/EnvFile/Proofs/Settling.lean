import Mathlib.Logic.Relation
import EnvFile.Proofs.Filling

namespace EnvFile

namespace Scope

/-- The text of a name, if it has one, among known values and drafts: that of its known value, or
else what its draft comes to once the names that the draft asks for have come to their own texts. -/
inductive Settles (known : Text → Option Value) (drafts : Text → Option Text) :
    Text → Option Text → Prop
  | known {name v t} : known name = some v → v.splice = .ok t → Settles known drafts name (some t)
  | drafted {name draft t names v u} (given : Text → Option Text) : known name = none →
      drafts name = some draft → Template.fill? given (Template.ofText draft) = some (t, names) →
      (∀ n ∈ names, Settles known drafts n (given n)) → Value.ofText t = .ok v → v.splice = .ok u →
      Settles known drafts name (some u)
  | absent {name} : known name = none → drafts name = none → Settles known drafts name none

/-- The text that a draft comes to, whatever chain of names leads to it. -/
def ComesTo (known : Text → Option Value) (drafts : Text → Option Text) (draft t : Text)
    (names : List Text) : Prop :=
  ∃ given, Template.fill? given (Template.ofText draft) = some (t, names) ∧
    ∀ n ∈ names, Settles known drafts n (given n)

/-- The draft of a name, where nothing else is known of the name, asks for another one. -/
def NeededBy (known : Text → Option Value) (drafts : Text → Option Text) (n name : Text) : Prop :=
  known name = none ∧ ∃ draft t names, drafts name = some draft ∧
    ComesTo known drafts draft t names ∧ n ∈ names

variable {known : Text → Option Value} {drafts : Text → Option Text}

theorem Settles.unique {name : Text} {x y : Option Text} (h : Settles known drafts name x)
    (h' : Settles known drafts name y) : x = y := by
  induction h generalizing y with
  | known hk hs =>
    cases h' with
    | known hk' hs' =>
      rw [hk] at hk'
      cases hk'
      rw [hs] at hs'
      cases hs'
      rfl
    | drafted _ hk' => simp [hk] at hk'
    | absent hk' => simp [hk] at hk'
  | drafted given hk hd hf hn hv hs ih =>
    cases h' with
    | known hk' => simp [hk] at hk'
    | drafted given' hk' hd' hf' hn' hv' hs' =>
      rw [hd] at hd'
      cases hd'
      obtain ⟨rfl, rfl⟩ := Template.fill?_agree _ _ _ _ _ hf hf' (fun n hm hm' => ih n hm (hn' n hm'))
      rw [hv] at hv'
      cases hv'
      rw [hs] at hs'
      cases hs'
      rfl
    | absent _ hd' => simp [hd] at hd'
  | absent hk hd =>
    cases h' with
    | known hk' => simp [hk] at hk'
    | drafted _ _ hd' => simp [hd] at hd'
    | absent => rfl

theorem ComesTo.unique {draft t u : Text} {names asked : List Text}
    (h : ComesTo known drafts draft t names) (h' : ComesTo known drafts draft u asked) :
    t = u ∧ names = asked := by
  obtain ⟨given, hf, hn⟩ := h
  obtain ⟨other, hf', hn'⟩ := h'
  exact Template.fill?_agree _ _ _ _ _ hf hf' (fun n hm hm' => (hn n hm).unique (hn' n hm'))

/-- Settled names need one another in no endless order. -/
theorem Settles.acc {name : Text} {x : Option Text} (h : Settles known drafts name x) :
    Acc (NeededBy known drafts) name := by
  induction h with
  | known hk _ =>
    refine Acc.intro _ fun n hn => ?_
    simp [hn.1] at hk
  | drafted given hk hd hf hn hv hs ih =>
    refine Acc.intro _ fun n hneeded => ?_
    obtain ⟨_, draft', t', names', hd', hc, hm⟩ := hneeded
    rw [hd] at hd'
    cases hd'
    obtain ⟨_, rfl⟩ := hc.unique ⟨given, hf, hn⟩
    exact ih n hm
  | absent _ hd =>
    refine Acc.intro _ fun n hn => ?_
    obtain ⟨_, draft, _, _, hd', _⟩ := hn
    simp [hd] at hd'

theorem not_rel_self_of_acc {α : Type} {r : α → α → Prop} {a : α} (h : Acc r a) : ¬r a a := by
  induction h with
  | intro a _ ih => exact fun haa => ih a haa haa

/-- No settled name needs itself, however far around. -/
theorem Settles.not_needs_self {name : Text} {x : Option Text} (h : Settles known drafts name x) :
    ¬Relation.TransGen (NeededBy known drafts) name name :=
  not_rel_self_of_acc h.acc.transGen

/-- A scope that knows and drafts the given texts, and whose overlay holds settled names only. -/
structure Sees (s : Scope) (known : Text → Option Value) (drafts : Text → Option Text) : Prop where
  known_eq : ∀ name, (s.cache.get? name).or (s.ambient.get? name) = known name
  drafts_eq : ∀ name, s.drafts.get? name = drafts name
  settled : ∀ name v, s.overlay.get? name = some v →
    ∃ t, v.splice = .ok t ∧ Settles known drafts name (some t)

variable {s : Scope} {expand : List Text → Text → Except Fault Text} {chain : List Text}

theorem settles_of_lookUp (hs : s.Sees known drafts) {name : Text} {x : Option Text}
    (he : ∀ chain draft t, expand chain draft = .ok t → ∃ names, ComesTo known drafts draft t names)
    (h : s.lookUp expand chain name = .ok x) : Settles known drafts name x := by
  unfold lookUp at h
  split at h
  next => simp at h
  split at h
  next => simp at h
  split at h
  next v hv =>
    obtain ⟨t, ht, rfl⟩ := Results.map_eq_ok.mp h
    rcases Option.or_eq_some_iff.mp hv with hv | ⟨_, hv⟩
    · obtain ⟨u, hu, hset⟩ := hs.settled name v hv
      rw [ht] at hu
      cases hu
      exact hset
    · exact .known ((hs.known_eq name).symm.trans hv) ht
  next hv =>
    have hk : known name = none := by
      rw [← hs.known_eq name]
      exact (Option.or_eq_none_iff.mp hv).2
    split at h
    next draft hd =>
      rw [hs.drafts_eq] at hd
      obtain ⟨t, ht, h⟩ := Results.bind_eq_ok.mp h
      obtain ⟨v, hvt, h⟩ := Results.bind_eq_ok.mp h
      obtain ⟨u, hu, rfl⟩ := Results.map_eq_ok.mp h
      obtain ⟨names, given, hf, hn⟩ := he _ draft t ht
      exact .drafted given hk hd hf hn hvt hu
    next hd =>
      cases h
      exact .absent hk (hs.drafts_eq name ▸ hd)

/-- A text that a scope expands comes to the same text without any chain. -/
theorem comesTo_of_expandIn (hs : s.Sees known drafts) {room : Nat} {draft t : Text}
    (h : s.expandIn room chain draft = .ok t) : ∃ names, ComesTo known drafts draft t names := by
  have fills {expand : List Text → Text → Except Fault Text} {chain : List Text} {draft t : Text}
      (he : ∀ chain draft t, expand chain draft = .ok t →
        ∃ names, ComesTo known drafts draft t names)
      (h : s.expandItems expand chain (Template.ofText draft) = .ok t) :
      ∃ names, ComesTo known drafts draft t names := by
    let given := fun name => (s.lookUp expand chain name).toOption.join
    have hg : ∀ name x, s.lookUp expand chain name = .ok x → given name = x := by
      intro name x hx
      simp [given, hx, Except.toOption]
    obtain ⟨names, hf, hn⟩ := fill?_of_expandItems hg _ t h
    exact ⟨names, given, hf, fun n hm => settles_of_lookUp hs he (hn n hm)⟩
  -- a draft that is expanded on the way has one place less in its chain
  induction room generalizing chain draft t with
  | zero => exact fills (fun _ _ _ he => by simp at he) h
  | succ room ih => exact fills (fun _ _ _ he => ih he) h

theorem lookUp_of_settles (hs : s.Sees known drafts) {name : Text} {x : Option Text}
    (hn : Settles known drafts name x) (hc : name ∉ chain)
    (he : ∀ draft t names, known name = none → drafts name = some draft →
      ComesTo known drafts draft t names → OrTooDeep (expand (chain ++ [name]) draft) t) :
    OrTooDeep (s.lookUp expand chain name) x := by
  unfold lookUp
  rw [if_neg hc]
  split
  next => exact Or.inr ⟨_, _, rfl⟩
  split
  next v hv =>
    have hset : ∃ t, v.splice = .ok t ∧ Settles known drafts name (some t) := by
      rcases Option.or_eq_some_iff.mp hv with hv | ⟨_, hv⟩
      · exact hs.settled name v hv
      · have hk : known name = some v := (hs.known_eq name).symm.trans hv
        cases hn with
        | @known _ w t hk' hw =>
          rw [hk] at hk'
          cases hk'
          exact ⟨t, hw, .known hk hw⟩
        | drafted _ hk' => simp [hk] at hk'
        | absent hk' => simp [hk] at hk'
    obtain ⟨t, ht, hset⟩ := hset
    obtain rfl := hn.unique hset
    exact Or.inl (Results.map_eq_ok.mpr ⟨t, ht, rfl⟩)
  next hv =>
    have hk : known name = none := by
      rw [← hs.known_eq name]
      exact (Option.or_eq_none_iff.mp hv).2
    rw [hs.drafts_eq]
    cases hn with
    | known hk' => simp [hk] at hk'
    | @drafted _ draft t names v u given _ hd hf hgiven hv hu =>
      rw [hd]
      refine (he draft t names hk hd ⟨given, hf, hgiven⟩).bind ?_
      exact Or.inl (Results.bind_eq_ok.mpr ⟨v, hv, Results.map_eq_ok.mpr ⟨u, hu, rfl⟩⟩)
    | absent _ hd =>
      rw [hd]
      exact Or.inl rfl

/-- What a text comes to is what a scope expands it to, unless the chain gets too deep. -/
theorem expandIn_of_comesTo (hs : s.Sees known drafts) {room : Nat} {draft t : Text}
    {names : List Text} (h : ComesTo known drafts draft t names)
    (hc : ∀ c ∈ chain, ∀ n ∈ names, Relation.TransGen (NeededBy known drafts) n c) :
    OrTooDeep (s.expandIn room chain draft) t := by
  have expands {expand : List Text → Text → Except Fault Text} {chain : List Text} {draft t : Text}
      {names : List Text} (h : ComesTo known drafts draft t names)
      (hc : ∀ c ∈ chain, ∀ n ∈ names, Relation.TransGen (NeededBy known drafts) n c)
      (he : ∀ name ∈ names, ∀ draft' t' names', known name = none → drafts name = some draft' →
        ComesTo known drafts draft' t' names' → OrTooDeep (expand (chain ++ [name]) draft') t') :
      OrTooDeep (s.expandItems expand chain (Template.ofText draft)) t := by
    obtain ⟨given, hf, hn⟩ := h
    refine expandItems_of_fill? _ t names hf fun n hm => ?_
    exact lookUp_of_settles hs (hn n hm) (fun hmem => (hn n hm).not_needs_self (hc n hmem n hm))
      (he n hm)
  -- no name of the chain is met again: each of them needs all the names that the text asks for
  induction room generalizing chain draft t names with
  | zero => exact expands h hc fun _ _ _ _ _ _ _ _ => Or.inr ⟨_, _, rfl⟩
  | succ room ih =>
    refine expands h hc fun name hm draft' t' names' hk hd hcomes => ih hcomes ?_
    intro c hmem n hn
    have hnext : NeededBy known drafts n name := ⟨hk, draft', t', names', hd, hcomes, hn⟩
    rcases List.mem_append.mp hmem with hmem | hmem
    · exact Relation.TransGen.head hnext (hc c hmem name hm)
    · obtain rfl := List.mem_singleton.mp hmem
      exact Relation.TransGen.single hnext

end Scope

end EnvFile
