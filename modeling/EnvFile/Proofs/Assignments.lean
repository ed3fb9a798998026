import EnvFile.Proofs.Results
import EnvFile.Registry.Assignment

namespace EnvFile

theorem Ambient.eq_of_publish {a b : Ambient} {key t : Text} (h : a.publish key t = .ok b) :
    b = { a with table := a.table.insert key (.text t) } := by
  unfold publish at h
  split at h
  next => simp at h
  next =>
    cases h
    rfl

namespace Registry

variable {r s : Registry}

/-- A registry that publishes a value has put its text into the ambient table. -/
theorem publish_cases {key : Text} {v : Value} (h : r.publish key v = .ok s) :
    (∃ t, r.publishing ∧ v.splice = .ok t ∧ s =
      { r with
        ambient := { r.ambient with table := r.ambient.table.insert key (.text t) }
        published := r.published.insert key }) ∨
    ¬r.publishing ∧ s = r := by
  unfold publish at h
  split at h
  next hp =>
    obtain ⟨t, ht, h⟩ := Results.bind_eq_ok.mp h
    obtain ⟨ambient, hambient, h⟩ := Results.bind_eq_ok.mp h
    obtain rfl := Ambient.eq_of_publish hambient
    cases h
    exact Or.inl ⟨t, hp, ht, rfl⟩
  next hp =>
    cases h
    exact Or.inr ⟨hp, rfl⟩

/-- Publishing changes nothing but the ambient table and what is remembered of it. -/
theorem exists_of_publish {key : Text} {v : Value} (h : r.publish key v = .ok s) :
    ∃ ambient published, s = { r with ambient, published } := by
  rcases publish_cases h with ⟨t, _, _, rfl⟩ | ⟨_, rfl⟩
  · exact ⟨_, _, rfl⟩
  · exact ⟨_, _, rfl⟩

theorem publish_cache {key : Text} {v : Value} (h : r.publish key v = .ok s) : s.cache = r.cache := by
  obtain ⟨_, _, rfl⟩ := exists_of_publish h
  rfl

theorem exists_of_publishAll (r : Registry) (es : List (Text × Value)) :
    ∃ ambient published, (r.publishAll es).2 = { r with ambient, published } := by
  induction es generalizing r with
  | nil => exact ⟨r.ambient, r.published, rfl⟩
  | cons e es ih =>
    unfold publishAll
    split
    next => exact ⟨r.ambient, r.published, rfl⟩
    next s hs =>
      obtain ⟨_, _, rfl⟩ := exists_of_publish hs
      exact ih _

theorem publishAll_cache (r : Registry) (es : List (Text × Value)) :
    (r.publishAll es).2.cache = r.cache := by
  obtain ⟨_, _, h⟩ := exists_of_publishAll r es
  rw [h]

/-- A table that is no process environment takes every value that has a text. -/
theorem publish_of_splice {t : Text} {v : Value} (key : Text) (hg : r.ambient.guarded = false)
    (hv : v.splice = .ok t) : ∃ s, r.publish key v = .ok s ∧ s.ambient.guarded = false := by
  unfold publish
  split
  next =>
    have ha : r.ambient.publish key t =
        .ok { r.ambient with table := r.ambient.table.insert key (.text t) } := by
      simp [Ambient.publish, hg]
    exact ⟨_, Results.bind_eq_ok.mpr ⟨t, hv, Results.bind_eq_ok.mpr ⟨_, ha, rfl⟩⟩, hg⟩
  next => exact ⟨r, rfl, hg⟩

theorem publishAll_of_splice {es : List (Text × Value)} (hg : r.ambient.guarded = false)
    (hes : ∀ e ∈ es, ∃ t, e.2.splice = .ok t) : (r.publishAll es).1 = .ok () := by
  induction es generalizing r with
  | nil => rfl
  | cons e es ih =>
    obtain ⟨⟨t, ht⟩, hes⟩ := List.forall_mem_cons.mp hes
    obtain ⟨s, hs, hguard⟩ := publish_of_splice e.1 hg ht
    unfold publishAll
    rw [hs]
    exact ih hguard hes

/-- The texts that may be assigned to a key. -/
theorem objection?_text_eq_none {key t : Text} :
    objection? key (.text t) = none ↔
      Text.isAssignable key ∧ '\n' ∉ t ∧ '\r' ∉ t ∧ Hazard.carried t = false := by
  unfold objection?
  cases hk : Text.isAssignable key with
  | false => simp
  | true =>
    simp only [Bool.not_true, Bool.false_eq_true, ↓reduceIte, Value.compound?, true_and]
    cases hn : t.contains '\n' || t.contains '\r' with
    | true =>
      rw [if_pos rfl]
      have hb := hn
      simp only [Bool.or_eq_true, List.contains_iff_mem] at hb
      constructor
      · simp
      · rintro ⟨h, h', _⟩
        exact absurd hb (by simp [h, h'])
    | false =>
      rw [Bool.or_eq_false_iff] at hn
      have hn1 : '\n' ∉ t := by simpa using hn.1
      have hn2 : '\r' ∉ t := by simpa using hn.2
      cases hc : Hazard.carried t <;> simp [hn1, hn2]

theorem isAssignable_of_objection?_eq_none {key : Text} {v : Value} (h : objection? key v = none) :
    Text.isAssignable key := by
  unfold objection? at h
  split at h
  next => cases h
  next hk => simpa using hk

/-- What an assignment that succeeds has done: the key has its value, and the value is saved. -/
theorem assign_eq_ok {files after : FileTree} {key : Text} {v : Value} {notices : List Notice}
    (h : r.assign files true key v = (.ok (), s, after, notices)) :
    objection? (Text.trim key) v = none ∧
      ∃ settled, v.settle = .ok settled ∧ s.cache.get? (Text.trim key) = some settled ∧
        files.save (r.basePath files) (Text.trim key) v = (.ok (), after, notices) := by
  unfold assign at h
  simp only at h
  split at h
  next => simp at h
  next ho =>
    refine ⟨ho, ?_⟩
    split at h
    next => simp at h
    next settled hs =>
      split at h
      next => simp at h
      next p hp =>
        obtain ⟨_, _, rfl⟩ := exists_of_publish hp
        simp only [↓reduceIte, Prod.mk.injEq] at h
        obtain ⟨hresult, rfl, rfl, rfl⟩ := h
        refine ⟨settled, hs, by simp, ?_⟩
        exact Prod.ext hresult rfl

end Registry

end EnvFile
