import Mathlib.Data.List.Nodup
import EnvFile.Table

namespace EnvFile

namespace Table

variable {κ α β : Type}

theorem keys_map (t : Table κ α) (f : α → β) : (t.map f).keys = t.keys := by
  simp [keys, map]

theorem keys_restrict (t : Table κ α) (p : κ → Bool) : (t.restrict p).keys = t.keys.filter p := by
  rw [keys, keys, List.filter_map]
  rfl

variable [DecidableEq κ]

theorem find?_append (k : κ) (xs ys : List (κ × α)) :
    find? k (xs ++ ys) = (find? k xs).or (find? k ys) := by
  induction xs with
  | nil => simp [find?]
  | cons e xs ih =>
    by_cases h : e.1 = k
    · simp [find?, h]
    · simp [find?, h, ih]

theorem find?_eq_none_iff {k : κ} {es : List (κ × α)} :
    find? k es = none ↔ k ∉ es.map Prod.fst := by
  induction es with
  | nil => simp [find?]
  | cons e es ih =>
    by_cases h : e.1 = k
    · simp [find?, h]
    · have hk : ¬k = e.1 := fun he => h he.symm
      simp [find?, h, hk, ih]

theorem mem_of_find? {k : κ} {v : α} {es : List (κ × α)} (h : find? k es = some v) : (k, v) ∈ es := by
  induction es with
  | nil => simp [find?] at h
  | cons e es ih =>
    obtain ⟨j, w⟩ := e
    by_cases hj : j = k
    · have hw : w = v := by simpa [find?, hj] using h
      subst hj hw
      exact List.mem_cons_self
    · exact List.mem_cons_of_mem _ (ih (by simpa [find?, hj] using h))

/-- Where no key repeats, the first entry of a key is its only one. -/
theorem find?_of_mem {k : κ} {v : α} {es : List (κ × α)} (hn : (es.map Prod.fst).Nodup)
    (h : (k, v) ∈ es) : find? k es = some v := by
  induction es with
  | nil => simp at h
  | cons e es ih =>
    obtain ⟨hne, hn⟩ := List.nodup_cons.mp hn
    rcases List.mem_cons.mp h with rfl | h
    · simp [find?]
    · have hk : e.1 ≠ k := fun he => hne (List.mem_map.mpr ⟨(k, v), h, he.symm⟩)
      simpa [find?, hk] using ih hn h

theorem mem_entries_iff {t : Table κ α} {k : κ} {v : α} : (k, v) ∈ t.entries ↔ t.get? k = some v :=
  ⟨find?_of_mem t.nodup, mem_of_find?⟩

theorem get?_eq_none_iff {t : Table κ α} {k : κ} : t.get? k = none ↔ k ∉ t.keys :=
  find?_eq_none_iff

theorem mem_keys_iff_get? {t : Table κ α} {k : κ} : k ∈ t.keys ↔ ∃ v, t.get? k = some v := by
  rw [mem_keys_iff, contains, Option.isSome_iff_exists]

theorem mem_keys_insert {t : Table κ α} {k j : κ} {v : α} :
    j ∈ (t.insert k v).keys ↔ j ∈ t.keys ∨ j = k := by
  rw [mem_keys_iff, mem_keys_iff, contains, contains, get?_insert]
  by_cases h : k = j
  · simp [h]
  · simp [h, Ne.symm h]

/-- Of several values put in for one key the last counts. -/
theorem get?_foldl_insert (t : Table κ α) (es : List (κ × α)) (k : κ) :
    (es.foldl (fun t e => t.insert e.1 e.2) t).get? k = (find? k es.reverse).or (t.get? k) := by
  induction es generalizing t with
  | nil => simp [find?]
  | cons e es ih =>
    rw [List.foldl_cons, ih, List.reverse_cons, find?_append, get?_insert]
    by_cases h : e.1 = k
    · simp [find?, h]
    · simp [find?, h]

theorem find?_reverse {es : List (κ × α)} (hn : (es.map Prod.fst).Nodup) (k : κ) :
    find? k es.reverse = find? k es := by
  have hr : (es.reverse.map Prod.fst).Nodup := by
    rw [List.map_reverse]
    exact List.nodup_reverse.mpr hn
  cases h : find? k es with
  | none =>
    rw [find?_eq_none_iff] at h ⊢
    simpa using h
  | some v => exact find?_of_mem hr (List.mem_reverse.mpr (mem_of_find? h))

@[simp] theorem get?_insertAll (t s : Table κ α) (k : κ) :
    (t.insertAll s).get? k = (s.get? k).or (t.get? k) := by
  rw [insertAll, get?_foldl_insert, find?_reverse s.nodup]
  rfl

theorem get?_map (t : Table κ α) (f : α → β) (k : κ) : (t.map f).get? k = (t.get? k).map f := by
  obtain ⟨es, hn⟩ := t
  simp only [map, get?]
  clear hn
  induction es with
  | nil => rfl
  | cons e es ih =>
    rw [List.map_cons, find?, find?, ih]
    split
    next => rfl
    next => rfl

theorem insertAll_map (t : Table κ β) (s : Table κ α) (f : α → β) :
    t.insertAll (s.map f) = s.entries.foldl (fun t e => t.insert e.1 (f e.2)) t := by
  simp only [insertAll, map, List.foldl_map]

@[simp] theorem get?_eraseAll (t : Table κ α) (ks : List κ) (k : κ) :
    (t.eraseAll ks).get? k = if k ∈ ks then none else t.get? k := by
  unfold eraseAll
  induction ks generalizing t with
  | nil => simp
  | cons j ks ih =>
    rw [List.foldl_cons, ih, get?_erase]
    by_cases hk : k ∈ ks
    · simp [hk]
    · by_cases hj : j = k
      · simp [hj]
      · simp [hk, hj, Ne.symm hj]

/-- Tables that give every key the same value hold the same entries, in some order. -/
theorem entries_perm {t s : Table κ α} (h : ∀ k, t.get? k = s.get? k) :
    t.entries.Perm s.entries := by
  refine (List.perm_ext_iff_of_nodup (List.Nodup.of_map _ t.nodup) (List.Nodup.of_map _ s.nodup)).mpr ?_
  rintro ⟨k, v⟩
  rw [mem_entries_iff, mem_entries_iff, h]

theorem entries_eq_filterMap (t : Table κ α) :
    t.entries = t.keys.filterMap fun k => (t.get? k).map (k, ·) := by
  rw [keys, List.filterMap_map]
  symm
  calc t.entries.filterMap ((fun k => (t.get? k).map (k, ·)) ∘ Prod.fst)
      = t.entries.filterMap some := by
        refine List.filterMap_congr fun e he => ?_
        have hget : t.get? e.1 = some e.2 := mem_entries_iff.mp he
        simp [hget]
    _ = t.entries := List.filterMap_some

/-- A table is known by its keys in order and their values. -/
theorem ext_of_keys {t s : Table κ α} (hk : t.keys = s.keys) (h : ∀ k, t.get? k = s.get? k) :
    t = s := by
  have he : t.entries = s.entries := by
    rw [entries_eq_filterMap t, entries_eq_filterMap s, hk]
    exact congrArg (fun f => s.keys.filterMap f) (funext fun k => by rw [h])
  obtain ⟨es, hn⟩ := t
  obtain ⟨es', hn'⟩ := s
  cases he
  rfl

theorem get?_restrict (t : Table κ α) (p : κ → Bool) (k : κ) :
    (t.restrict p).get? k = if p k then t.get? k else none := by
  obtain ⟨es, hn⟩ := t
  simp only [restrict, get?]
  clear hn
  induction es with
  | nil => simp [find?]
  | cons e es ih =>
    rw [List.filter_cons]
    by_cases he : e.1 = k
    · subst he
      by_cases hp : p e.1
      · simp [hp, find?]
      · rw [if_neg hp] at ih
        simp [hp, ih]
    · by_cases hp : p e.1
      · simp only [hp, ↓reduceIte, find?, he, ih]
      · simp only [hp, Bool.false_eq_true, ↓reduceIte, find?, he, ih]

theorem restrict_insert_of_pos {t : Table κ α} {p : κ → Bool} {k : κ} (hk : p k) (v : α) :
    (t.insert k v).restrict p = (t.restrict p).insert k v := by
  have hmem : k ∈ (t.restrict p).keys ↔ k ∈ t.keys := by
    rw [keys_restrict, List.mem_filter, and_iff_left hk]
  refine ext_of_keys ?_ fun j => ?_
  · rw [keys_restrict, keys_insert, keys_insert]
    by_cases h : k ∈ t.keys
    · rw [if_pos h, if_pos (hmem.mpr h), keys_restrict]
    · rw [if_neg h, if_neg (hmem.not.mpr h), keys_restrict]
      simp [hk]
  · rw [get?_restrict, get?_insert, get?_insert, get?_restrict]
    by_cases h : k = j
    · simp [← h, hk]
    · simp [h]

theorem restrict_insert_of_neg {t : Table κ α} {p : κ → Bool} {k : κ} (hk : ¬p k) (v : α) :
    (t.insert k v).restrict p = t.restrict p := by
  refine ext_of_keys ?_ fun j => ?_
  · rw [keys_restrict, keys_insert, keys_restrict]
    by_cases h : k ∈ t.keys
    · rw [if_pos h]
    · rw [if_neg h]
      simp [hk]
  · rw [get?_restrict, get?_insert, get?_restrict]
    by_cases h : k = j
    · simp [← h, hk]
    · simp [h]

/-- Keys that fail a test might as well not have been put into a table. -/
theorem restrict_foldl_insert (t : Table κ α) (p : κ → Bool) (es : List (κ × α)) :
    (es.foldl (fun t e => t.insert e.1 e.2) t).restrict p =
      (es.filter (p ·.1)).foldl (fun t e => t.insert e.1 e.2) (t.restrict p) := by
  induction es generalizing t with
  | nil => rfl
  | cons e es ih =>
    rw [List.foldl_cons, ih, List.filter_cons]
    by_cases hp : p e.1
    · rw [restrict_insert_of_pos hp, if_pos hp, List.foldl_cons]
    · rw [restrict_insert_of_neg hp, if_neg hp]

theorem mem_keys_insertAll {t s : Table κ α} {k : κ} :
    k ∈ (t.insertAll s).keys ↔ k ∈ t.keys ∨ k ∈ s.keys := by
  rw [mem_keys_iff, mem_keys_iff, mem_keys_iff, contains, contains, contains, get?_insertAll]
  cases s.get? k <;> simp

theorem keys_insertAll_of_subset {t s : Table κ α} (h : ∀ k ∈ s.keys, k ∈ t.keys) :
    (t.insertAll s).keys = t.keys := by
  obtain ⟨es, hn⟩ := s
  change ∀ k ∈ es.map Prod.fst, k ∈ t.keys at h
  change (es.foldl (fun t e => t.insert e.1 e.2) t).keys = t.keys
  clear hn
  induction es generalizing t with
  | nil => rfl
  | cons e es ih =>
    obtain ⟨he, hes⟩ := List.forall_mem_cons.mp h
    have hkeys : (t.insert e.1 e.2).keys = t.keys := by rw [keys_insert, if_pos he]
    rw [List.foldl_cons, ih (hkeys ▸ hes), hkeys]

variable {ts : List (Table κ α)}

/-- The value that the last table with a key gives it. -/
def latest? (ts : List (Table κ α)) (k : κ) : Option α := ts.reverse.findSome? (·.get? k)

theorem latest?_cons (t : Table κ α) (ts : List (Table κ α)) (k : κ) :
    latest? (t :: ts) k = (latest? ts k).or (t.get? k) := by
  rw [latest?, latest?, List.reverse_cons, List.findSome?_append, List.findSome?_cons]
  cases t.get? k <;> rfl

theorem latest?_eq_none_iff {k : κ} : latest? ts k = none ↔ ∀ t ∈ ts, k ∉ t.keys := by
  simp [latest?, get?_eq_none_iff]

theorem get?_foldl_insertAll (t : Table κ α) (ts : List (Table κ α)) (k : κ) :
    (ts.foldl insertAll t).get? k = (latest? ts k).or (t.get? k) := by
  induction ts generalizing t with
  | nil => rfl
  | cons s ts ih => rw [List.foldl_cons, ih, latest?_cons, get?_insertAll, Option.or_assoc]

theorem mem_keys_foldl_insertAll {t : Table κ α} {k : κ} :
    k ∈ (ts.foldl insertAll t).keys ↔ k ∈ t.keys ∨ ∃ s ∈ ts, k ∈ s.keys := by
  induction ts generalizing t with
  | nil => simp
  | cons s ts ih => simp [ih, mem_keys_insertAll, or_assoc]

/-- Tables put once more into what they have been put into change nothing. -/
theorem foldl_insertAll_again (ts : List (Table κ α)) (t : Table κ α) :
    ts.foldl insertAll (ts.foldl insertAll t) = ts.foldl insertAll t := by
  have hkeys (u : Table κ α) (us : List (Table κ α)) (h : ∀ s ∈ us, ∀ k ∈ s.keys, k ∈ u.keys) :
      (us.foldl insertAll u).keys = u.keys := by
    induction us generalizing u with
    | nil => rfl
    | cons s us ih =>
      obtain ⟨hs, hus⟩ := List.forall_mem_cons.mp h
      have he := keys_insertAll_of_subset hs
      rw [List.foldl_cons, ih (u.insertAll s) (he ▸ hus), he]
  refine ext_of_keys (hkeys _ ts fun s hs k hk => mem_keys_foldl_insertAll.mpr (Or.inr ⟨s, hs, hk⟩)) ?_
  intro k
  rw [get?_foldl_insertAll (ts.foldl insertAll t), get?_foldl_insertAll t, ← Option.or_assoc,
    Option.or_self]

/-- Every value of the table has a property. -/
def All (P : α → Prop) (t : Table κ α) : Prop := ∀ k v, t.get? k = some v → P v

variable {P : α → Prop} {t s : Table κ α}

theorem all_empty (P : α → Prop) : All P (∅ : Table κ α) := by
  intro k v h
  simp at h

theorem All.insert {v : α} (h : t.All P) (k : κ) (hv : P v) : (t.insert k v).All P := by
  intro j w hj
  rw [get?_insert] at hj
  split at hj
  next =>
    obtain rfl := Option.some.inj hj
    exact hv
  next => exact h j w hj

theorem All.insertAll (h : t.All P) (hs : s.All P) : (t.insertAll s).All P := by
  intro k v hk
  rw [get?_insertAll] at hk
  rcases Option.or_eq_some_iff.mp hk with hk | ⟨_, hk⟩
  · exact hs k v hk
  · exact h k v hk

theorem All.erase (h : t.All P) (k : κ) : (t.erase k).All P := by
  intro j v hj
  rw [get?_erase] at hj
  split at hj
  next => simp at hj
  next => exact h j v hj

theorem All.eraseAll (h : t.All P) (ks : List κ) : (t.eraseAll ks).All P := by
  intro k v hk
  rw [get?_eraseAll] at hk
  split at hk
  next => simp at hk
  next => exact h k v hk

theorem all_map {Q : β → Prop} {f : α → β} (hf : ∀ v, Q (f v)) (t : Table κ α) : (t.map f).All Q := by
  intro k w hk
  rw [get?_map] at hk
  obtain ⟨v, _, rfl⟩ := Option.map_eq_some_iff.mp hk
  exact hf v

end Table

end EnvFile
