namespace EnvFile

/-- A table in order of insertion: each key stands once, and a new value keeps its key's place. -/
structure Table (κ α : Type) where
  entries : List (κ × α)
  nodup : (entries.map Prod.fst).Nodup
deriving DecidableEq, Repr

namespace Table

variable {κ α β : Type}

def empty : Table κ α := ⟨[], by simp⟩

instance : EmptyCollection (Table κ α) := ⟨empty⟩

instance : Inhabited (Table κ α) := ⟨empty⟩

def keys (t : Table κ α) : List κ := t.entries.map Prod.fst

def size (t : Table κ α) : Nat := t.entries.length

def map (f : α → β) (t : Table κ α) : Table κ β :=
  ⟨t.entries.map fun e => (e.1, f e.2), by simpa [Function.comp_def] using t.nodup⟩

variable [DecidableEq κ]

/-- The value of the first entry with the key. -/
def find? (k : κ) : List (κ × α) → Option α
  | [] => none
  | e :: es => if e.1 = k then some e.2 else find? k es

/-- The entries with a value put in its key's place, or at the end. -/
def put (k : κ) (v : α) : List (κ × α) → List (κ × α)
  | [] => [(k, v)]
  | e :: es => if e.1 = k then (k, v) :: es else e :: put k v es

theorem map_fst_put (k : κ) (v : α) (es : List (κ × α)) :
    (put k v es).map Prod.fst =
      if k ∈ es.map Prod.fst then es.map Prod.fst else es.map Prod.fst ++ [k] := by
  induction es with
  | nil => simp [put]
  | cons e es ih =>
    by_cases h : e.1 = k
    · simp [put, h]
    · have hk : ¬k = e.1 := fun he => h he.symm
      simp only [put, h, ↓reduceIte, List.map_cons, ih, List.mem_cons, hk, false_or]
      split <;> simp

def get? (t : Table κ α) (k : κ) : Option α := find? k t.entries

def contains (t : Table κ α) (k : κ) : Bool := (t.get? k).isSome

def insert (t : Table κ α) (k : κ) (v : α) : Table κ α :=
  ⟨put k v t.entries, by
    rw [map_fst_put]
    split
    next => exact t.nodup
    next h =>
      refine List.nodup_append.mpr ⟨t.nodup, by simp, ?_⟩
      rintro a ha b hb rfl
      exact h (List.mem_singleton.mp hb ▸ ha)⟩

def erase (t : Table κ α) (k : κ) : Table κ α :=
  ⟨t.entries.filter (·.1 ≠ k), t.nodup.sublist (List.filter_sublist.map _)⟩

/-- The entries of the second table put into the first one, in order. -/
def insertAll (t s : Table κ α) : Table κ α :=
  s.entries.foldl (fun t e => t.insert e.1 e.2) t

def eraseAll (t : Table κ α) (ks : List κ) : Table κ α := ks.foldl erase t

/-- The entries whose keys pass a test. -/
def restrict (t : Table κ α) (p : κ → Bool) : Table κ α :=
  ⟨t.entries.filter (p ·.1), t.nodup.sublist (List.filter_sublist.map _)⟩

def ofList (es : List (κ × α)) : Table κ α :=
  es.foldl (fun t e => t.insert e.1 e.2) empty

theorem find?_put (k j : κ) (v : α) (es : List (κ × α)) :
    find? j (put k v es) = if k = j then some v else find? j es := by
  induction es with
  | nil => simp [put, find?]
  | cons e es ih =>
    by_cases h : e.1 = k
    · by_cases hj : k = j
      · simp [put, find?, h, hj]
      · simp [put, find?, h, hj]
    · by_cases hj : k = j
      · subst hj
        simp [put, find?, h, ih]
      · simp only [put, h, ↓reduceIte, find?, ih, hj]

@[simp] theorem get?_empty (k : κ) : (∅ : Table κ α).get? k = none := rfl

@[simp] theorem get?_insert (t : Table κ α) (k j : κ) (v : α) :
    (t.insert k v).get? j = if k = j then some v else t.get? j :=
  find?_put k j v t.entries

theorem find?_filter_ne (k j : κ) (es : List (κ × α)) :
    find? j (es.filter (·.1 ≠ k)) = if k = j then none else find? j es := by
  induction es with
  | nil => simp [find?]
  | cons e es ih =>
    by_cases h : e.1 = k
    · have hf : (e :: es).filter (·.1 ≠ k) = es.filter (·.1 ≠ k) := by simp [h]
      rw [hf, ih]
      by_cases hj : k = j
      · simp [hj]
      · simp [find?, h, hj]
    · have hf : (e :: es).filter (·.1 ≠ k) = e :: es.filter (·.1 ≠ k) := by simp [h]
      rw [hf]
      by_cases hj : e.1 = j
      · have hk : ¬k = j := fun he => h (hj.trans he.symm)
        simp [find?, hj, hk]
      · simp only [find?, hj, ↓reduceIte, ih]

@[simp] theorem get?_erase (t : Table κ α) (k j : κ) :
    (t.erase k).get? j = if k = j then none else t.get? j :=
  find?_filter_ne k j t.entries

theorem keys_insert (t : Table κ α) (k : κ) (v : α) :
    (t.insert k v).keys = if k ∈ t.keys then t.keys else t.keys ++ [k] :=
  map_fst_put k v t.entries

theorem mem_keys_iff {t : Table κ α} {k : κ} : k ∈ t.keys ↔ t.contains k := by
  rcases t with ⟨es, hn⟩
  simp only [keys, contains, get?]
  induction es with
  | nil => simp [find?]
  | cons e es ih =>
    have ih := ih (List.nodup_cons.mp hn).2
    by_cases h : e.1 = k
    · simp [find?, h]
    · have hk : ¬k = e.1 := fun he => h he.symm
      simpa [find?, h, hk] using ih

end Table

end EnvFile
