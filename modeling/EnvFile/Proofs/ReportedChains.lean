import EnvFile.Proofs.Chains
import EnvFile.Proofs.Failures

namespace EnvFile

/-- The chain of names that a fault reports. -/
def Fault.chain? : Fault → Option (List Text)
  | recursive chain | tooDeep chain _ => some chain
  | _ => none

namespace Scope

open Template

/-- A walk along references: the first name stands in a text, each next one in the draft of the name
before it, and `last` in the draft of the last of them. -/
inductive Walk (s : Scope) : Text → List Text → Text → Prop
  | stop {t last} : last ∈ names (ofText t) → Walk s t [] last
  | step {t name draft others last} : name ∈ names (ofText t) → s.drafts.get? name = some draft →
      Walk s draft others last → Walk s t (name :: others) last

variable {s : Scope} {expand : List Text → Text → Except Fault Text} {chain full first : List Text}
  {fault : Fault} {t : Text}

theorem chain?_of_screen {name : Text} (h : screen chain name t = .error fault) :
    fault.chain? = none := by
  unfold screen at h
  split at h
  next =>
    cases h
    rfl
  next => simp at h

mutual

/-- An item that fails with a chain fails at the look-up of one of its names. -/
theorem expandItem_fault (hc : fault.chain? = some full) :
    (item : Item) → s.expandItem expand chain item = .error fault →
      ∃ name ∈ itemNames item, s.lookUp expand chain name = .error fault
  | .literal _, h => by cases h
  | .value name, h => by
    rcases Results.bind_eq_error.mp h with h | ⟨_, _, h⟩
    · exact ⟨name, by simp [itemNames], h⟩
    · simp [chain?_of_screen h] at hc
  | .withDefault name enough default, h => by
    rw [expandItem_withDefault] at h
    rcases Results.bind_eq_error.mp h with h | ⟨_, _, h⟩
    · exact ⟨name, by simp [itemNames], h⟩
    · split at h
      next => simp [chain?_of_screen h] at hc
      next =>
        rcases Results.bind_eq_error.mp h with h | ⟨_, _, h⟩
        · obtain ⟨other, hother, hfault⟩ := expandItems_fault hc default h
          exact ⟨other, by simp [itemNames, hother], hfault⟩
        · simp [chain?_of_screen h] at hc
  | .required name enough message, h => by
    rw [expandItem_required] at h
    rcases Results.bind_eq_error.mp h with h | ⟨_, _, h⟩
    · exact ⟨name, by simp [itemNames], h⟩
    · split at h
      next => simp [chain?_of_screen h] at hc
      next =>
        have hnone : (Fault.requiring name message).chain? = none := rfl
        rw [Except.error.inj h, hc] at hnone
        simp at hnone
  | .broken _ _, h => by
    cases h
    simp [Fault.chain?] at hc

theorem expandItems_fault (hc : fault.chain? = some full) :
    (items : Template) → s.expandItems expand chain items = .error fault →
      ∃ name ∈ names items, s.lookUp expand chain name = .error fault
  | [], h => by cases h
  | item :: items, h => by
    rcases Results.bind_eq_error.mp h with h | ⟨_, _, h⟩
    · obtain ⟨name, hname, hfault⟩ := expandItem_fault hc item h
      exact ⟨name, by simp [names, hname], hfault⟩
    · rcases Results.bind_eq_error.mp h with h | ⟨_, _, h⟩
      · obtain ⟨name, hname, hfault⟩ := expandItems_fault hc items h
        exact ⟨name, by simp [names, hname], hfault⟩
      · simp at h

end

/-- Why a look-up fails with a chain: the name is in the chain, or the chain is full, or the draft of
the name fails so. -/
theorem lookUp_fault {name : Text} (hc : fault.chain? = some full)
    (h : s.lookUp s.resolve chain name = .error fault) :
    (name ∈ chain ∧ fault = .recursive (chain ++ [name])) ∨
    (name ∉ chain ∧ s.limit ≤ chain.length ∧ fault = .tooDeep (chain ++ [name]) s.limit) ∨
    (name ∉ chain ∧ chain.length < s.limit ∧ s.Drafted name ∧
      ∃ draft, s.drafts.get? name = some draft ∧ s.resolve (chain ++ [name]) draft = .error fault) := by
  have hsplice (v : Value) : v.splice ≠ .error fault := by
    intro he
    obtain rfl := v.splice_fails fault he
    simp [Fault.chain?] at hc
  by_cases hmem : name ∈ chain
  · rw [lookUp, if_pos hmem] at h
    exact Or.inl ⟨hmem, (Except.error.inj h).symm⟩
  by_cases hroom : chain.length < s.limit
  · rw [lookUp_of_room hmem hroom, found] at h
    refine Or.inr (Or.inr ⟨hmem, hroom, ?_⟩)
    cases hv : s.value? name with
    | some v =>
      rw [hv] at h
      cases hs : v.splice with
      | ok u => simp [hs, Except.map] at h
      | error other =>
        simp only [hs, Except.map, Except.error.injEq] at h
        exact absurd (h ▸ hs) (hsplice v)
    | none =>
      rw [hv] at h
      cases hd : s.drafts.get? name with
      | none => simp [hd] at h
      | some draft =>
        rw [hd] at h
        refine ⟨drafted_of_value? hv hd, draft, rfl, ?_⟩
        rcases Results.bind_eq_error.mp h with h | ⟨u, _, h⟩
        · exact h
        rcases Results.bind_eq_error.mp h with h | ⟨v, _, h⟩
        · obtain ⟨_, _, _, _, rfl⟩ := Value.ofText_fails u fault h
          simp [Fault.chain?] at hc
        · cases hs : v.splice with
          | ok w => simp [hs, Except.map] at h
          | error other =>
            simp only [hs, Except.map, Except.error.injEq] at h
            exact absurd (h ▸ hs) (hsplice v)
  · have hdeep : s.limit ≤ chain.length := Nat.not_lt.mp hroom
    rw [lookUp, if_neg hmem, if_pos hdeep] at h
    exact Or.inr (Or.inl ⟨hmem, hdeep, (Except.error.inj h).symm⟩)

/-- A chain that is reported goes on from the one that the expansion began with, along references. -/
theorem resolve_fault (hg : s.Grows first chain) (hc : fault.chain? = some full)
    (h : s.resolve chain t = .error fault) :
    ∃ others last, full = chain ++ others ++ [last] ∧ s.Walk t others last ∧
      s.Grows first (chain ++ others) ∧
      (fault = .recursive full ∧ last ∈ chain ++ others ∨
        fault = .tooDeep full s.limit ∧ last ∉ chain ++ others ∧
          (chain ++ others).length = s.limit) := by
  -- the draft of a name is expanded in a chain that has less room left
  induction hroom : s.limit - chain.length using Nat.strongRecOn generalizing chain t with
  | ind room ih =>
    rw [resolve_eq] at h
    obtain ⟨name, hname, h⟩ := expandItems_fault hc _ h
    rcases lookUp_fault hc h with
      ⟨hmem, hfault⟩ | ⟨hfree, hdeep, hfault⟩ | ⟨hfree, hlt, hdrafted, draft, hdraft, h⟩
    · have hfull : full = chain ++ [name] := by
        rw [hfault] at hc
        exact (Option.some.inj hc).symm
      refine ⟨[], name, by simpa using hfull, .stop hname, by simpa using hg, Or.inl ?_⟩
      exact ⟨hfull ▸ hfault, by simpa using hmem⟩
    · have hfull : full = chain ++ [name] := by
        rw [hfault] at hc
        exact (Option.some.inj hc).symm
      have hlength : chain.length = s.limit := Nat.le_antisymm hg.length_le hdeep
      refine ⟨[], name, by simpa using hfull, .stop hname, by simpa using hg, Or.inr ?_⟩
      exact ⟨hfull ▸ hfault, by simpa using hfree, by simpa using hlength⟩
    · have hnext := hg.append hfree hlt hdrafted
      have hless : s.limit - (chain ++ [name]).length < room := by
        rw [List.length_append, List.length_singleton]
        omega
      obtain ⟨others, last, hfull, hwalk, hgrows, hcause⟩ := ih _ hless hnext h rfl
      rw [List.append_assoc chain [name] others, List.singleton_append] at hfull hgrows hcause
      exact ⟨name :: others, last, hfull, .step hname hdraft hwalk, hgrows, hcause⟩

/-- A chain that an expansion fails with begins with the owner of the text, for which an empty name
counts as none, and follows references: all its names but the last one are different, and beyond the
owner they are drafted and have no value. It is reported as recursive where the last one is among the
others, and as too deep where it is not and the others are as many as a chain may hold. -/
theorem expand_fault_walks {n : Int} {owner : Option Text} (hn : limit? n = .ok s.limit)
    (hc : fault.chain? = some full) (h : s.expand owner t = .error fault) :
    2 ≤ full.length ∧ (∀ key, owner = some key → key ≠ [] → full.head? = some key) ∧
    ∃ others last, full = start owner ++ others ++ [last] ∧ (start owner ++ others).Nodup ∧
      (∀ name ∈ others, s.Drafted name) ∧ s.Walk t others last ∧
      (fault = .recursive full ∧ last ∈ start owner ++ others ∨
        fault = .tooDeep full n ∧ last ∉ start owner ++ others ∧
          ((start owner ++ others).length : Int) = n) := by
  have hlimit : 1 ≤ n ∧ (s.limit : Int) = n := by
    unfold limit? at hn
    split at hn
    next => simp at hn
    next hle =>
      have hcast : n.toNat = s.limit := Except.ok.inj hn
      omega
  have hone : 1 ≤ s.limit := by omega
  rw [expand_eq_resolve] at h
  obtain ⟨others, last, hfull, hwalk, hgrows, hcause⟩ :=
    resolve_fault (grows_start hone owner) hc h
  have hdrafted : ∀ name ∈ others, s.Drafted name := by
    obtain ⟨names, he, hnames⟩ := hgrows.eq_append
    rwa [← List.append_cancel_left he] at hnames
  have hpos : 0 < (start owner ++ others).length := by
    rcases hcause with ⟨_, hmem⟩ | ⟨_, _, hlength⟩
    · exact List.length_pos_of_mem hmem
    · omega
  have hlength : full.length = (start owner ++ others).length + 1 := by
    rw [hfull, List.length_append, List.length_singleton]
  refine ⟨by omega, ?_, others, last, hfull, hgrows.nodup, hdrafted, hwalk, ?_⟩
  · rintro key rfl hkey
    obtain ⟨c, rest, rfl⟩ := List.exists_cons_of_ne_nil hkey
    rw [hfull]
    rfl
  · rcases hcause with hrecursive | ⟨hfault, hfree, hlength⟩
    · exact Or.inl hrecursive
    · refine Or.inr ⟨?_, hfree, by rw [hlength]; exact hlimit.2⟩
      rw [hfault, hlimit.2]

/-- A cycle that closes in a default, and a chain that ends before it closes. -/
theorem expand_fault_walks_cyclic :
    let cycle := ["A".toList, "B".toList, "A".toList]
    let deep := ["D".toList, "A".toList, "B".toList]
    (limit? 3 = .ok cyclic.limit ∧ (Fault.recursive cycle).chain? = some cycle ∧
      cyclic.expand (some "A".toList) "${B}".toList = .error (.recursive cycle) ∧
      ∃ others last, cycle = ["A".toList] ++ others ++ [last] ∧
        cyclic.Walk "${B}".toList others last ∧ last ∈ ["A".toList] ++ others) ∧
    let shallow := { cyclic with limit := 2 }
    limit? 2 = .ok shallow.limit ∧ (Fault.tooDeep deep 2).chain? = some deep ∧
      shallow.expand (some "D".toList) "${A}".toList = .error (.tooDeep deep 2) ∧
      ∃ others last, deep = ["D".toList] ++ others ++ [last] ∧
        shallow.Walk "${A}".toList others last ∧ last ∉ ["D".toList] ++ others := by
  intro cycle deep
  refine ⟨⟨rfl, rfl, by decide +kernel, ?_⟩, rfl, rfl, by decide +kernel, ?_⟩
  · have h : cyclic.expand (some "A".toList) "${B}".toList = .error (.recursive cycle) := by
      decide +kernel
    obtain ⟨_, _, others, last, hfull, _, _, hwalk, ⟨_, hmem⟩ | ⟨hfault, _⟩⟩ :=
      expand_fault_walks (n := 3) rfl rfl h
    · exact ⟨others, last, hfull, hwalk, hmem⟩
    · simp at hfault
  · have h : Scope.expand { cyclic with limit := 2 } (some "D".toList) "${A}".toList =
        .error (.tooDeep deep 2) := by
      decide +kernel
    obtain ⟨_, _, others, last, hfull, _, _, hwalk, ⟨hfault, _⟩ | ⟨_, hfree, _⟩⟩ :=
      expand_fault_walks (n := 2) rfl rfl h
    · simp at hfault
    · exact ⟨others, last, hfull, hwalk, hfree⟩

end Scope

end EnvFile
