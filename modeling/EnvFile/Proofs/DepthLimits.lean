import EnvFile.Proofs.ReportedChains
import EnvFile.Proofs.Splicing

namespace EnvFile

/-- Two results are the same, unless in the first of them a chain of names has met its limit. -/
def SameOrTooDeep {α : Type} (x y : Except Fault α) : Prop :=
  x = y ∨ ∃ chain limit, x = .error (.tooDeep chain limit)

namespace SameOrTooDeep

variable {α β : Type} {x y : Except Fault α}

theorem refl (x : Except Fault α) : SameOrTooDeep x x := Or.inl rfl

theorem bind {f g : α → Except Fault β} (h : SameOrTooDeep x y)
    (hf : ∀ a, SameOrTooDeep (f a) (g a)) : SameOrTooDeep (x >>= f) (y >>= g) := by
  rcases h with rfl | ⟨chain, limit, rfl⟩
  · cases x with
    | ok a => exact hf a
    | error fault => exact refl _
  · exact Or.inr ⟨chain, limit, rfl⟩

end SameOrTooDeep

namespace Scope

variable {s : Scope} {limit : Nat} {chain first : List Text}
  {expand expand' : List Text → Text → Except Fault Text}

/-- A look-up under a higher limit meets the same end wherever it meets one under the lower. -/
theorem lookUp_raised (hle : s.limit ≤ limit) {name : Text}
    (he : chain.length < s.limit →
      ∀ draft, SameOrTooDeep (expand (chain ++ [name]) draft) (expand' (chain ++ [name]) draft)) :
    SameOrTooDeep (s.lookUp expand chain name)
      ({ s with limit := limit }.lookUp expand' chain name) := by
  by_cases hmem : name ∈ chain
  · rw [lookUp, lookUp, if_pos hmem, if_pos hmem]
    exact SameOrTooDeep.refl _
  by_cases hroom : s.limit ≤ chain.length
  · rw [lookUp, if_neg hmem, if_pos hroom]
    exact Or.inr ⟨_, _, rfl⟩
  have hlt : chain.length < s.limit := Nat.not_le.mp hroom
  have hroom' : ¬limit ≤ chain.length := by omega
  have hdefinition : ({ s with limit := limit } : Scope).definition name = s.definition name := rfl
  rw [lookUp_of_definition s expand hmem hroom,
    lookUp_of_definition { s with limit := limit } expand' hmem hroom', hdefinition]
  cases s.definition name with
  | value text => exact SameOrTooDeep.refl _
  | missing => exact SameOrTooDeep.refl _
  | draft draft => exact (he hlt draft).bind fun _ => SameOrTooDeep.refl _

mutual

theorem expandItem_raised
    (hl : ∀ name, SameOrTooDeep (s.lookUp expand chain name)
      ({ s with limit := limit }.lookUp expand' chain name)) :
    (item : Item) → SameOrTooDeep (s.expandItem expand chain item)
      ({ s with limit := limit }.expandItem expand' chain item)
  | .literal _ => SameOrTooDeep.refl _
  | .value name => (hl name).bind fun _ => SameOrTooDeep.refl _
  | .withDefault name enough default => by
    have hdefault := expandItems_raised hl default
    rw [expandItem_withDefault, expandItem_withDefault]
    refine (hl name).bind fun found => ?_
    cases found.filter enough.met with
    | some t => exact SameOrTooDeep.refl _
    | none => exact hdefault.bind fun _ => SameOrTooDeep.refl _
  | .required name enough message => by
    rw [expandItem_required, expandItem_required]
    exact (hl name).bind fun _ => SameOrTooDeep.refl _
  | .broken _ _ => SameOrTooDeep.refl _

theorem expandItems_raised
    (hl : ∀ name, SameOrTooDeep (s.lookUp expand chain name)
      ({ s with limit := limit }.lookUp expand' chain name)) :
    (items : Template) → SameOrTooDeep (s.expandItems expand chain items)
      ({ s with limit := limit }.expandItems expand' chain items)
  | [] => SameOrTooDeep.refl _
  | item :: items =>
    (expandItem_raised hl item).bind fun _ =>
      (expandItems_raised hl items).bind fun _ => SameOrTooDeep.refl _

end

theorem resolve_raised (hle : s.limit ≤ limit) (chain : List Text) (t : Text) :
    SameOrTooDeep (s.resolve chain t) ({ s with limit := limit }.resolve chain t) := by
  -- under the lower limit the draft of a name is expanded with less room
  induction hroom : s.limit - chain.length using Nat.strongRecOn generalizing chain t with
  | ind room ih =>
    rw [resolve_eq, resolve_eq { s with limit := limit }]
    refine expandItems_raised (fun name => lookUp_raised hle ?_) _
    intro hlt draft
    have hlength : (chain ++ [name]).length = chain.length + 1 := by simp
    exact ih (s.limit - (chain ++ [name]).length) (by omega) (chain ++ [name]) draft rfl

/-- The names that a chain adds are different keys of drafts, so they are not more than these. -/
theorem Grows.length_le_size (h : s.Grows first chain) :
    chain.length ≤ first.length + s.drafts.size := by
  obtain ⟨names, rfl, hnames⟩ := h.eq_append
  have hnodup : names.Nodup := (List.nodup_append.mp h.nodup).2.1
  have hsubset : names ⊆ s.drafts.keys := fun name hname => (hnames name hname).1
  have hlength := hnodup.length_le_of_subset hsubset
  have hkeys : s.drafts.keys.length = s.drafts.size := List.length_map ..
  rw [List.length_append]
  omega

theorem length_start_le (owner : Option Text) : (start owner).length ≤ 1 := by
  match owner with
  | none => exact Nat.zero_le 1
  | some [] => exact Nat.zero_le 1
  | some (_ :: _) => exact Nat.le_refl 1

theorem expand_ne_tooDeep (h : s.drafts.size + 2 ≤ s.limit) (owner : Option Text) (t : Text)
    (chain : List Text) (n : Int) : s.expand owner t ≠ .error (.tooDeep chain n) := by
  intro hfault
  rw [expand_eq_resolve] at hfault
  have hone : 1 ≤ s.limit := by omega
  obtain ⟨others, last, _, _, hgrows, hcause⟩ := resolve_fault (grows_start hone owner) rfl hfault
  have hlength := hgrows.length_le_size
  have hstart := length_start_le owner
  rcases hcause with ⟨hrecursive, _⟩ | ⟨_, _, hfull⟩
  · cases hrecursive
  · omega

/-- The limit of chains does nothing but cut off: what an expansion comes to without meeting the
limit, be it a text or a failure, it comes to under every higher limit. And an expansion whose limit
exceeds the number of drafts by two never meets it. -/
theorem expand_raised (s : Scope) (owner : Option Text) (t : Text) :
    (∀ limit, s.limit ≤ limit → (∀ chain n, s.expand owner t ≠ .error (.tooDeep chain n)) →
      { s with limit := limit }.expand owner t = s.expand owner t) ∧
    (s.drafts.size + 2 ≤ s.limit → ∀ chain n, s.expand owner t ≠ .error (.tooDeep chain n)) := by
  refine ⟨fun limit hle hfree => ?_, fun h => expand_ne_tooDeep h owner t⟩
  rw [expand_eq_resolve] at hfree
  rw [expand_eq_resolve, expand_eq_resolve]
  rcases resolve_raised hle (start owner) t with hsame | ⟨chain, n, hdeep⟩
  · exact hsame.symm
  · exact absurd hdeep (hfree chain n)

/-- Two drafts that refer to each other: a low limit cuts the expansion off before the cycle closes,
and from the next one on the cycle is reported. -/
theorem expand_raised_cyclic :
    let cycle := Fault.recursive ["A".toList, "B".toList, "A".toList]
    { cyclic with limit := 2 }.expand none "${A}".toList =
      .error (.tooDeep ["A".toList, "B".toList, "C".toList] 2) ∧
    cyclic.limit ≤ 7 ∧ cyclic.expand none "${A}".toList = .error cycle ∧
    { cyclic with limit := 7 }.expand none "${A}".toList = .error cycle ∧
    cyclic.drafts.size + 2 ≤ 4 ∧
    ∀ chain n, { cyclic with limit := 4 }.expand (some "D".toList) "${A}".toList ≠
      .error (.tooDeep chain n) := by
  intro cycle
  have hcut : { cyclic with limit := 2 }.expand none "${A}".toList =
      .error (.tooDeep ["A".toList, "B".toList, "C".toList] 2) := by decide +kernel
  have hle : cyclic.limit ≤ 7 := by decide
  have hcycle : cyclic.expand none "${A}".toList = .error cycle := by decide +kernel
  have hfree : ∀ chain n, cyclic.expand none "${A}".toList ≠ .error (.tooDeep chain n) := by
    intro chain n h
    rw [hcycle] at h
    simp [cycle] at h
  have hsize : cyclic.drafts.size + 2 ≤ 4 := by decide +kernel
  refine ⟨hcut, hle, hcycle, ?_, hsize, ?_⟩
  · exact ((expand_raised cyclic none _).1 7 hle hfree).trans hcycle
  · exact (expand_raised { cyclic with limit := 4 } (some "D".toList) _).2 hsize

/-- A row of different names that have no values: the draft of each refers to the next one, and that of
the `n`th is a text that stays as it is when it is read and written again. -/
structure Ladder (s : Scope) (names : Nat → Name) (n : Nat) (last : Text) : Prop where
  distinct : ∀ i ≤ n, ∀ j ≤ n, (names i).text = (names j).text → i = j
  unvalued : ∀ i ≤ n, s.value? (names i).text = none
  refers : ∀ i < n, s.drafts.get? (names i).text = some (names (i + 1)).braced
  ends : s.drafts.get? (names n).text = some last
  no_dollar : '$' ∉ last
  harmless : Hazard.carried last = false
  unchanged : Value.ofText last >>= Value.splice = .ok last

/-- The texts of `count` names of a row, from the one at `lowest` on. -/
def rungs (names : Nat → Name) (lowest count : Nat) : List Text :=
  (List.range' lowest count).map fun i => (names i).text

theorem rungs_succ (names : Nat → Name) (lowest count : Nat) :
    rungs names lowest (count + 1) = rungs names lowest count ++ [(names (lowest + count)).text] := by
  rw [rungs, List.range'_1_concat, List.map_append]
  rfl

theorem length_rungs (names : Nat → Name) (lowest count : Nat) :
    (rungs names lowest count).length = count := by
  rw [rungs, List.length_map, List.length_range']

namespace Ladder

variable {names : Nat → Name} {n lowest count : Nat} {last : Text}

theorem not_mem_rungs (h : s.Ladder names n last) (hle : lowest + count ≤ n) :
    (names (lowest + count)).text ∉ rungs names lowest count := by
  intro hmem
  obtain ⟨i, hi, he⟩ := List.mem_map.mp hmem
  obtain ⟨hlow, hhigh⟩ := List.mem_range'_1.mp hi
  have hsame := h.distinct i (by omega) (lowest + count) hle he
  omega

theorem resolve_last (h : s.Ladder names n last) (chain : List Text) :
    s.resolve chain last = .ok last := by
  have hwhole := resolve_append s chain h.no_dollar []
  rw [List.append_nil, resolve_nil] at hwhole
  rw [hwhole, Except.map, List.append_nil]

/-- The last text passes through a reference as it is, and so does a failure. -/
theorem resolve_of_draft (h : s.Ladder names n last) {name : Name} {draft : Text}
    {x : Except Fault Text} (hfree : name.text ∉ chain) (hroom : chain.length < s.limit)
    (hv : s.value? name.text = none) (hd : s.drafts.get? name.text = some draft)
    (hx : s.resolve (chain ++ [name.text]) draft = x) (hlast : ∀ t, x = .ok t → t = last) :
    s.resolve chain name.braced = x := by
  rw [resolve_braced_alone, lookUp_of_room hfree hroom, found, hv, hd]
  simp only [hx]
  cases x with
  | error fault => rfl
  | ok t =>
    obtain rfl := hlast t rfl
    obtain ⟨v, hread, hwritten⟩ := Results.bind_eq_ok.mp h.unchanged
    have hscreen : screen chain name.text t = .ok t := by
      rw [screen, h.harmless]
      rfl
    simp only [bind, Except.bind, hread, hwritten, Except.map, Option.getD_some, hscreen]

/-- A reference to one of the names, behind all those before it from `lowest` on: the last text is
reached if the chain has room for all names but the `n`th, and else the chain ends where it is full. -/
theorem resolve_rung (h : s.Ladder names n last) (hle : lowest + count ≤ n) (hcount : count ≤ s.limit) :
    s.resolve (rungs names lowest count) (names (lowest + count)).braced =
      if n - lowest < s.limit then .ok last
      else .error (.tooDeep (rungs names lowest (s.limit + 1)) s.limit) := by
  -- the places that are left in the chain get fewer
  induction hplaces : s.limit - count generalizing count with
  | zero =>
    have hfree := h.not_mem_rungs hle
    have hlength := length_rungs names lowest count
    obtain rfl : count = s.limit := by omega
    have hfull : s.limit ≤ (rungs names lowest s.limit).length := by omega
    rw [resolve_braced_alone, lookUp, if_neg hfree, if_pos hfull, ← rungs_succ]
    exact (if_neg (by omega)).symm
  | succ places ih =>
    have hfree := h.not_mem_rungs hle
    have hlength := length_rungs names lowest count
    have hroom : (rungs names lowest count).length < s.limit := by omega
    have hv := h.unvalued (lowest + count) hle
    by_cases hend : lowest + count = n
    · have hreached : n - lowest < s.limit := by omega
      rw [if_pos hreached]
      rw [hend] at hfree hv ⊢
      have hlast := h.resolve_last (rungs names lowest count ++ [(names n).text])
      exact h.resolve_of_draft hfree hroom hv h.ends hlast fun t ht => (Except.ok.inj ht).symm
    · have hdraft := h.refers (lowest + count) (by omega)
      have hnext := ih (by omega : lowest + (count + 1) ≤ n) (by omega) (by omega)
      rw [rungs_succ] at hnext
      refine h.resolve_of_draft hfree hroom hv hdraft hnext fun t ht => ?_
      split at ht
      next => exact (Except.ok.inj ht).symm
      next => cases ht

end Ladder

/-- The limit is exact. Along a row of names of any length the last text is reached just when the
names before it fit into the chain, where a text that has an owner takes one place more; one name too
many, and the chain that is reported is the whole row up to the name that found no place. -/
theorem expand_ladder {names : Nat → Name} {n : Nat} {last : Text} (h : s.Ladder names n last)
    (hn : 1 ≤ n) (hlimit : 1 ≤ s.limit) :
    (s.expand (some (names 0).text) (names 1).braced =
      if n < s.limit then .ok last
      else .error (.tooDeep (rungs names 0 (s.limit + 1)) s.limit)) ∧
    (s.expand none (names 1).braced =
      if n ≤ s.limit then .ok last
      else .error (.tooDeep (rungs names 1 (s.limit + 1)) s.limit)) := by
  have howned := h.resolve_rung (by omega : 0 + 1 ≤ n) hlimit
  have hfree := h.resolve_rung (by omega : 1 + 0 ≤ n) (Nat.zero_le _)
  have hstart : start (some (names 0).text) = rungs names 0 1 := by
    obtain ⟨c, t, hname⟩ := List.exists_cons_of_ne_nil (names 0).ne_nil
    simp [start, rungs, hname]
  have hreached : n - 1 < s.limit ↔ n ≤ s.limit := by omega
  simp only [hreached] at hfree
  rw [expand_eq_resolve, expand_eq_resolve, hstart]
  exact ⟨howned, hfree⟩

/-- The name of `i + 1` letters. -/
def lettersName (i : Nat) : Name :=
  ⟨List.replicate (i + 1) 'V', by simp, fun c hc => by rw [List.eq_of_mem_replicate hc]; rfl⟩

/-- Three names and a limit of two: a text without an owner gets to the end, a text with one does not. -/
theorem expand_ladder_three :
    let s : Scope := ⟨∅, ∅, ∅, .ofList [("V".toList, "${VV}".toList), ("VV".toList, "${VVV}".toList),
      ("VVV".toList, "w".toList)], 2⟩
    s.Ladder lettersName 2 "w".toList ∧ 1 ≤ 2 ∧ 1 ≤ s.limit ∧
      s.expand (some "V".toList) "${VV}".toList =
        .error (.tooDeep ["V".toList, "VV".toList, "VVV".toList] 2) ∧
      s.expand none "${VV}".toList = .ok "w".toList := by
  intro s
  have h : s.Ladder lettersName 2 "w".toList := by
    refine ⟨?_, fun _ _ => rfl, ?_, rfl, by decide, by decide, rfl⟩
    · intro i _ j _ he
      have hlength := congrArg List.length he
      simp only [lettersName, List.length_replicate] at hlength
      omega
    · intro i hi
      match i, hi with
      | 0, _ => rfl
      | 1, _ => rfl
  obtain ⟨howned, hfree⟩ := expand_ladder h (by decide) (by decide)
  exact ⟨h, by decide, by decide, howned, hfree⟩

end Scope

end EnvFile
