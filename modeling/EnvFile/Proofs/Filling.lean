import EnvFile.Proofs.Results
import EnvFile.Scope

namespace EnvFile

/-- A result is `a`, unless a chain of names has met its limit. -/
def OrTooDeep {α : Type} (x : Except Fault α) (a : α) : Prop :=
  x = .ok a ∨ ∃ chain limit, x = .error (.tooDeep chain limit)

theorem OrTooDeep.bind {α β : Type} {x : Except Fault α} {f : α → Except Fault β} {a : α} {b : β}
    (h : OrTooDeep x a) (hf : OrTooDeep (f a) b) : OrTooDeep (x >>= f) b := by
  rcases h with rfl | ⟨chain, limit, rfl⟩
  · exact hf
  · exact Or.inr ⟨chain, limit, rfl⟩

/-- A text that may take the place of a placeholder. -/
def Hazard.admitted? (t : Text) : Option Text := if carried t then none else some t

namespace Template

mutual

/-- The text of an item among variables with given texts, and the names that it asks for, whether
they have a text or not. An item that fails has none. -/
def fillItem? (given : Text → Option Text) : Item → Option (Text × List Text)
  | .literal t => some (t, [])
  | .value name => (Hazard.admitted? ((given name).getD [])).map fun t => (t, [name])
  | .withDefault name enough default =>
    match (given name).filter enough.met with
    | some t => (Hazard.admitted? t).map fun t => (t, [name])
    | none => (fill? given default).bind fun (t, names) =>
        (Hazard.admitted? t).map fun t => (t, name :: names)
  | .required name enough _ => ((given name).filter enough.met).bind fun t =>
      (Hazard.admitted? t).map fun t => (t, [name])
  | .broken .. => none
termination_by structural item => item

def fill? (given : Text → Option Text) : Template → Option (Text × List Text)
  | [] => some ([], [])
  | item :: items => (fillItem? given item).bind fun (t, names) =>
      (fill? given items).map fun (u, more) => (t ++ u, names ++ more)
termination_by structural template => template

end

end Template

namespace Scope

open Template

variable {s : Scope} {expand : List Text → Text → Except Fault Text} {chain : List Text}

theorem screen_eq_ok {name t u : Text} : screen chain name t = .ok u ↔ Hazard.admitted? t = some u := by
  unfold screen Hazard.admitted?
  split <;> simp

theorem expandItem_withDefault {name : Text} {enough : Enough} {default : Template} :
    s.expandItem expand chain (.withDefault name enough default) = (do
      let found ← s.lookUp expand chain name
      match found.filter enough.met with
      | some t => screen chain name t
      | none => do screen chain name (← s.expandItems expand chain default)) := by
  unfold expandItem
  refine congrArg _ (funext fun found => ?_)
  cases found with
  | none => rfl
  | some t => by_cases hm : enough.met t <;> simp [hm, Option.filter_some]

theorem expandItem_required {name message : Text} {enough : Enough} :
    s.expandItem expand chain (.required name enough message) = (do
      let found ← s.lookUp expand chain name
      match found.filter enough.met with
      | some t => screen chain name t
      | none => .error (.requiring name message)) := by
  unfold expandItem
  refine congrArg _ (funext fun found => ?_)
  cases found with
  | none => rfl
  | some t => by_cases hm : enough.met t <;> simp [hm, Option.filter_some]

mutual

/-- An item that yields a text in a scope is filled with what the scope gives to the names that the
item asks for. -/
theorem fillItem?_of_expandItem {given : Text → Option Text}
    (hg : ∀ name x, s.lookUp expand chain name = .ok x → given name = x) :
    (item : Item) → (t : Text) → s.expandItem expand chain item = .ok t →
      ∃ names, fillItem? given item = some (t, names) ∧
        ∀ n ∈ names, s.lookUp expand chain n = .ok (given n)
  | .literal _, _, h => by
    cases h
    exact ⟨[], rfl, by simp⟩
  | .value name, t, h => by
    obtain ⟨x, hx, h⟩ := Results.bind_eq_ok.mp h
    obtain rfl := hg name x hx
    exact ⟨[name], by simp [fillItem?, screen_eq_ok.mp h], by simpa using hx⟩
  | .withDefault name enough default, t, h => by
    rw [expandItem_withDefault] at h
    obtain ⟨x, hx, h⟩ := Results.bind_eq_ok.mp h
    obtain rfl := hg name x hx
    split at h
    next u hu =>
      exact ⟨[name], by simp [fillItem?, hu, screen_eq_ok.mp h], by simpa using hx⟩
    next hu =>
      obtain ⟨u, he, h⟩ := Results.bind_eq_ok.mp h
      obtain ⟨names, hf, hn⟩ := fill?_of_expandItems hg default u he
      refine ⟨name :: names, by simp [fillItem?, hu, hf, screen_eq_ok.mp h], ?_⟩
      intro n hm
      rcases List.mem_cons.mp hm with rfl | hm
      · exact hx
      · exact hn n hm
  | .required name enough message, t, h => by
    rw [expandItem_required] at h
    obtain ⟨x, hx, h⟩ := Results.bind_eq_ok.mp h
    obtain rfl := hg name x hx
    split at h
    next u hu =>
      exact ⟨[name], by simp [fillItem?, hu, screen_eq_ok.mp h], by simpa using hx⟩
    next => simp at h
  | .broken _ _, _, h => by cases h

theorem fill?_of_expandItems {given : Text → Option Text}
    (hg : ∀ name x, s.lookUp expand chain name = .ok x → given name = x) :
    (items : Template) → (t : Text) → s.expandItems expand chain items = .ok t →
      ∃ names, fill? given items = some (t, names) ∧
        ∀ n ∈ names, s.lookUp expand chain n = .ok (given n)
  | [], _, h => by
    cases h
    exact ⟨[], rfl, by simp⟩
  | item :: items, _, h => by
    obtain ⟨t, ht, h⟩ := Results.bind_eq_ok.mp h
    obtain ⟨u, hu, h⟩ := Results.bind_eq_ok.mp h
    cases h
    obtain ⟨names, hf, hn⟩ := fillItem?_of_expandItem hg item t ht
    obtain ⟨more, hfs, hm⟩ := fill?_of_expandItems hg items u hu
    refine ⟨names ++ more, by simp [fill?, hf, hfs], ?_⟩
    intro n hmem
    rcases List.mem_append.mp hmem with hmem | hmem
    · exact hn n hmem
    · exact hm n hmem

end

mutual

/-- Where a scope gives the names that a filled item asks for their texts, unless its chain is too
deep, so does the item yield its own text. -/
theorem expandItem_of_fillItem? {given : Text → Option Text} :
    (item : Item) → (t : Text) → (names : List Text) → fillItem? given item = some (t, names) →
      (∀ n ∈ names, OrTooDeep (s.lookUp expand chain n) (given n)) →
      OrTooDeep (s.expandItem expand chain item) t
  | .literal _, _, _, h, _ => by
    cases h
    exact Or.inl rfl
  | .value name, t, _, h, hl => by
    obtain ⟨u, hu, he⟩ := Option.map_eq_some_iff.mp h
    cases he
    exact (hl name (by simp)).bind (Or.inl (screen_eq_ok.mpr hu))
  | .withDefault name enough default, t, names, h, hl => by
    rw [expandItem_withDefault]
    unfold fillItem? at h
    split at h
    next u hu =>
      obtain ⟨w, hw, he⟩ := Option.map_eq_some_iff.mp h
      cases he
      refine (hl name (by simp)).bind ?_
      rw [hu]
      exact Or.inl (screen_eq_ok.mpr hw)
    next hu =>
      obtain ⟨⟨u, asked⟩, hf, h⟩ := Option.bind_eq_some_iff.mp h
      obtain ⟨w, hw, he⟩ := Option.map_eq_some_iff.mp h
      cases he
      refine (hl name (by simp)).bind ?_
      rw [hu]
      have hd := expandItems_of_fill? default u asked hf (fun n hn => hl n (by simp [hn]))
      exact hd.bind (Or.inl (screen_eq_ok.mpr hw))
  | .required name enough message, t, _, h, hl => by
    rw [expandItem_required]
    obtain ⟨u, hu, h⟩ := Option.bind_eq_some_iff.mp h
    obtain ⟨w, hw, he⟩ := Option.map_eq_some_iff.mp h
    cases he
    refine (hl name (by simp)).bind ?_
    rw [hu]
    exact Or.inl (screen_eq_ok.mpr hw)
  | .broken _ _, _, _, h, _ => by cases h

theorem expandItems_of_fill? {given : Text → Option Text} :
    (items : Template) → (t : Text) → (names : List Text) → fill? given items = some (t, names) →
      (∀ n ∈ names, OrTooDeep (s.lookUp expand chain n) (given n)) →
      OrTooDeep (s.expandItems expand chain items) t
  | [], _, _, h, _ => by
    cases h
    exact Or.inl rfl
  | item :: items, _, _, h, hl => by
    obtain ⟨⟨t, names⟩, hf, h⟩ := Option.bind_eq_some_iff.mp h
    obtain ⟨⟨u, more⟩, hfs, he⟩ := Option.map_eq_some_iff.mp h
    cases he
    have hi := expandItem_of_fillItem? item t names hf (fun n hn => hl n (by simp [hn]))
    have hs := expandItems_of_fill? items u more hfs (fun n hn => hl n (by simp [hn]))
    exact hi.bind (hs.bind (Or.inl rfl))

end

end Scope

namespace Template

theorem mem_of_fillItem?_withDefault {given : Text → Option Text} {name t : Text} {enough : Enough}
    {default : Template} {names : List Text}
    (h : fillItem? given (.withDefault name enough default) = some (t, names)) : name ∈ names := by
  unfold fillItem? at h
  split at h
  next =>
    obtain ⟨_, _, he⟩ := Option.map_eq_some_iff.mp h
    cases he
    simp
  next =>
    obtain ⟨_, _, h⟩ := Option.bind_eq_some_iff.mp h
    obtain ⟨_, _, he⟩ := Option.map_eq_some_iff.mp h
    cases he
    simp

mutual

/-- What an item yields and asks for hangs only on the names that it asks for. -/
theorem fillItem?_agree {given other : Text → Option Text} :
    (item : Item) → (t u : Text) → (names asked : List Text) →
      fillItem? given item = some (t, names) → fillItem? other item = some (u, asked) →
      (∀ n ∈ names, n ∈ asked → given n = other n) → t = u ∧ names = asked
  | .literal _, _, _, _, _, h, h', _ => by
    cases h
    cases h'
    exact ⟨rfl, rfl⟩
  | .value name, _, _, _, _, h, h', ha => by
    obtain ⟨t, ht, he⟩ := Option.map_eq_some_iff.mp h
    cases he
    obtain ⟨u, hu, he⟩ := Option.map_eq_some_iff.mp h'
    cases he
    rw [ha name (by simp) (by simp), hu] at ht
    exact ⟨(Option.some.inj ht).symm, rfl⟩
  | .withDefault name enough default, t, u, names, asked, h, h', ha => by
    have hg := ha name (mem_of_fillItem?_withDefault h) (mem_of_fillItem?_withDefault h')
    unfold fillItem? at h h'
    rw [← hg] at h'
    split at h
    next v hv =>
      rw [hv] at h'
      have he := Option.some.inj (h.symm.trans h')
      exact ⟨congrArg Prod.fst he, congrArg Prod.snd he⟩
    next hv =>
      rw [hv] at h'
      obtain ⟨⟨v, more⟩, hf, h⟩ := Option.bind_eq_some_iff.mp h
      obtain ⟨_, hw, he⟩ := Option.map_eq_some_iff.mp h
      cases he
      obtain ⟨⟨v', more'⟩, hf', h'⟩ := Option.bind_eq_some_iff.mp h'
      obtain ⟨_, hw', he⟩ := Option.map_eq_some_iff.mp h'
      cases he
      obtain ⟨rfl, rfl⟩ := fill?_agree default v v' more more' hf hf'
        (fun n hn hn' => ha n (by simp [hn]) (by simp [hn']))
      exact ⟨Option.some.inj (hw.symm.trans hw'), rfl⟩
  | .required name enough message, _, _, _, _, h, h', ha => by
    obtain ⟨t, ht, h⟩ := Option.bind_eq_some_iff.mp h
    obtain ⟨w, hw, he⟩ := Option.map_eq_some_iff.mp h
    cases he
    obtain ⟨t', ht', h'⟩ := Option.bind_eq_some_iff.mp h'
    obtain ⟨w', hw', he⟩ := Option.map_eq_some_iff.mp h'
    cases he
    rw [ha name (by simp) (by simp), ht'] at ht
    obtain rfl := Option.some.inj ht
    exact ⟨Option.some.inj (hw.symm.trans hw'), rfl⟩
  | .broken _ _, _, _, _, _, h, _, _ => by cases h

theorem fill?_agree {given other : Text → Option Text} :
    (items : Template) → (t u : Text) → (names asked : List Text) →
      fill? given items = some (t, names) → fill? other items = some (u, asked) →
      (∀ n ∈ names, n ∈ asked → given n = other n) → t = u ∧ names = asked
  | [], _, _, _, _, h, h', _ => by
    cases h
    cases h'
    exact ⟨rfl, rfl⟩
  | item :: items, _, _, _, _, h, h', ha => by
    obtain ⟨⟨t, names⟩, hf, h⟩ := Option.bind_eq_some_iff.mp h
    obtain ⟨⟨u, more⟩, hfs, he⟩ := Option.map_eq_some_iff.mp h
    cases he
    obtain ⟨⟨t', names'⟩, hf', h'⟩ := Option.bind_eq_some_iff.mp h'
    obtain ⟨⟨u', more'⟩, hfs', he⟩ := Option.map_eq_some_iff.mp h'
    cases he
    obtain ⟨rfl, rfl⟩ := fillItem?_agree item t t' names names' hf hf'
      (fun n hn hn' => ha n (by simp [hn]) (by simp [hn']))
    obtain ⟨rfl, rfl⟩ := fill?_agree items u u' more more' hfs hfs'
      (fun n hn hn' => ha n (by simp [hn]) (by simp [hn']))
    exact ⟨rfl, rfl⟩

end

end Template

end EnvFile
