import Mathlib.Algebra.Group.Int.Defs
import EnvFile.Proofs.FullClears

namespace EnvFile

namespace Value

/-- What a value is public as: its text, or anything at all if it is an integer too long to have one. -/
def ShownAs (v : Value) (shown : Option Value) : Prop :=
  (∃ t, v.splice = .ok t ∧ shown = some (.text t)) ∨ v.splice = .error .integerTooLong

end Value

namespace Deed

variable {ds after : List Deed} {d : Deed} {key : Text}

/-- Whether a deed writes or clears a key, whatever the registry owns. -/
def touches (key : Text) : Deed → Bool
  | take values _ => key ∈ values.keys
  | hold k _ _ | clear k => k = key
  | clearAll => true
  | unload => false

/-- A key whose value a caller gave last, while the registry did not own it: `after` is what has been
done since. -/
def HeldAlone (key : Text) (ds after : List Deed) : Prop :=
  ∃ before v shown, ds = before ++ hold key v shown :: after ∧ ¬Taken key before ∧
    ∀ d ∈ after, d.touches key = false

/-- Such a key has been through an unloading since, which left its value in the cache. -/
def LeftBehind (key : Text) (ds : List Deed) : Prop :=
  ∃ after, HeldAlone key ds after ∧ unload ∈ after

theorem heldAlone_concat :
    HeldAlone key (ds ++ [d]) after ↔
      after = [] ∧ (∃ v shown, d = hold key v shown) ∧ ¬Taken key ds ∨
      ∃ rest, after = rest ++ [d] ∧ d.touches key = false ∧ HeldAlone key ds rest := by
  constructor
  · rintro ⟨before, v, shown, h, hnot, hafter⟩
    rcases concat_eq_append_cons.mp h with ⟨rfl, rfl, rfl⟩ | ⟨rest, rfl, hds⟩
    · exact Or.inl ⟨rfl, ⟨v, shown, rfl⟩, hnot⟩
    · exact Or.inr ⟨rest, rfl, hafter d (by simp), before, v, shown, hds, hnot,
        fun e he => hafter e (List.mem_append_left _ he)⟩
  · rintro (⟨rfl, ⟨v, shown, rfl⟩, hnot⟩ | ⟨rest, rfl, hd, before, v, shown, rfl, hnot, hrest⟩)
    · exact ⟨ds, v, shown, rfl, hnot, by simp⟩
    · refine ⟨before, v, shown, by simp, hnot, fun e he => ?_⟩
      rcases List.mem_append.mp he with he | he
      · exact hrest e he
      · rwa [List.mem_singleton.mp he]

theorem not_leftBehind_concat (hd : d.touches key) : ¬LeftBehind key (ds ++ [d]) := by
  rintro ⟨after, halone, hunload⟩
  rcases heldAlone_concat.mp halone with ⟨rfl, _⟩ | ⟨rest, rfl, hnot, _⟩
  · simp at hunload
  · simp [hd] at hnot

theorem leftBehind_concat (hd : d.touches key = false) :
    LeftBehind key (ds ++ [d]) ↔ LeftBehind key ds ∨ d = unload ∧ ∃ after, HeldAlone key ds after := by
  constructor
  · rintro ⟨after, halone, hunload⟩
    rcases heldAlone_concat.mp halone with ⟨rfl, _⟩ | ⟨rest, rfl, _, hrest⟩
    · simp at hunload
    · rcases List.mem_append.mp hunload with hunload | hunload
      · exact Or.inl ⟨rest, hrest, hunload⟩
      · exact Or.inr ⟨(List.mem_singleton.mp hunload).symm, rest, hrest⟩
  · rintro (⟨after, halone, hunload⟩ | ⟨rfl, after, halone⟩)
    · exact ⟨after ++ [d], heldAlone_concat.mpr (Or.inr ⟨after, rfl, hd, halone⟩),
        List.mem_append_left _ hunload⟩
    · exact ⟨after ++ [unload], heldAlone_concat.mpr (Or.inr ⟨after, rfl, hd, halone⟩), by simp⟩

theorem drops_of_untouched (hk : d.touches key = false) (hu : d ≠ unload) :
    d.drops key = false := by
  cases d with
  | take | hold => rfl
  | clear k => exact hk
  | unload => exact absurd rfl hu
  | clearAll => simp [touches] at hk

/-- A deed that makes public all that it writes, as far as that has a text. -/
def Public : Deed → Prop
  | take values shown => (∀ e ∈ values.entries, ∃ t, e.2.splice = .ok t) ∧
      shown = values.entries.map fun e => (e.1, e.2.splice.toOption.getD [])
  | hold key v shown => (∃ t, v.splice = .ok t ∧ shown = [(key, t)]) ∨
      v.splice = .error .integerTooLong ∧ shown = []
  | clear _ | unload | clearAll => True

end Deed

namespace Ambient

theorem accepted_of_splice {a : Ambient} (hg : a.guarded = false) {es : List (Text × Value)}
    (hes : ∀ e ∈ es, ∃ t, e.2.splice = .ok t) :
    a.accepted es = es.map fun e => (e.1, e.2.splice.toOption.getD []) := by
  induction es generalizing a with
  | nil => rfl
  | cons e es ih =>
    obtain ⟨⟨t, ht⟩, hes⟩ := List.forall_mem_cons.mp hes
    have hpublish : a.publish e.1 t = .ok { a with table := a.table.insert e.1 (.text t) } := by
      simp [publish, hg]
    unfold accepted
    rw [ht]
    simp only [hpublish, List.map_cons, ht]
    exact congrArg ((e.1, t) :: ·) (ih hg hes)

theorem accepted_of_tooLong {a : Ambient} {key : Text} {v : Value}
    (hv : v.splice = .error .integerTooLong) : a.accepted [(key, v)] = [] := by
  unfold accepted
  rw [hv]

end Ambient

namespace Registry

variable {r : Registry} {files : FileTree}

/-- A registry that publishes all in an ambient table of its own. -/
structure Mirrors (r : Registry) : Prop where
  publishing : r.publishing = true
  plain : r.ambient.guarded = false

theorem Mirrors.outlasts (files : FileTree) : Outlasts Mirrors files where
  linesAt _ _ h := ⟨h.publishing, h.plain⟩
  commit {r _ _ _ values} _ h := by
    have hkept := kept_commit r values
    exact ⟨hkept.publishing.trans h.publishing, hkept.guarded.trans h.plain⟩
  forgetLines h := ⟨h.publishing, h.plain⟩
  mark h := ⟨h.publishing, h.plain⟩
  unload h := ⟨h.publishing, h.plain⟩

theorem Mirrors.fileDeeds_public (h : r.Mirrors) (m : LoadMode) (p : Path) :
    ∀ d ∈ r.fileDeeds files m p, d.Public := by
  have hlines := (Mirrors.outlasts files).linesAt p m.useKept h
  unfold fileDeeds
  split
  next => simp
  next lines s hl =>
    rw [hl] at hlines
    split
    next => simp
    next values he =>
      have hvalues := Listing.splice_of_entries he
      intro d hd
      obtain rfl := List.mem_singleton.mp hd
      refine ⟨hvalues, ?_⟩
      unfold shown
      rw [if_pos hlines.publishing, Ambient.accepted_of_splice hlines.plain hvalues]

theorem Mirrors.eachDeeds_public (h : r.Mirrors) (m : LoadMode) (ps : List Path) :
    ∀ d ∈ r.eachDeeds files m ps, d.Public := by
  induction ps generalizing r with
  | nil => simp [eachDeeds]
  | cons p ps ih =>
    have hfile : ∀ d ∈ r.fileDeeds files m p, d.Public := h.fileDeeds_public m p
    have hkept := (Mirrors.outlasts files).loadFile m p h
    unfold eachDeeds
    split
    next => simp
    next => exact ih h
    next =>
      split
      next => exact hfile
      next hl =>
        rw [hl] at hkept
        exact List.forall_mem_append.mpr ⟨hfile, ih hkept⟩

theorem Mirrors.loadDeeds_public (h : r.Mirrors) (keys : List Text) (force tolerant : Bool) :
    ∀ d ∈ r.loadDeeds files keys force tolerant, d.Public := by
  unfold loadDeeds
  split
  next => simp
  next =>
    have hstart : (if force then r.forgetLines else r).Mirrors := by
      split
      next => exact ⟨h.publishing, h.plain⟩
      next => exact h
    exact hstart.eachDeeds_public _ _

theorem Mirrors.holdDeed_public (h : r.Mirrors) (key : Text) (v : Value) :
    (r.holdDeed key v).Public := by
  unfold holdDeed shown
  rw [if_pos h.publishing]
  cases hv : v.splice with
  | ok t =>
    have htext : ∀ e ∈ [(key, v)], ∃ t, e.2.splice = .ok t :=
      List.forall_mem_singleton.mpr ⟨t, hv⟩
    rw [Ambient.accepted_of_splice h.plain htext]
    exact Or.inl ⟨t, hv, by simp [hv, Except.toOption]⟩
  | error fault =>
    have hfault : fault = .integerTooLong := Value.splice_fails v fault hv
    rw [hfault] at hv
    exact Or.inr ⟨hv, Ambient.accepted_of_tooLong hv⟩

end Registry

/-- Whether an operation keeps to what is published: it neither writes to the cache alone nor turns
the publishing on or off. -/
def Operation.mirrors : Operation → Bool
  | put _ _ | setPublishing _ => false
  | _ => true

namespace Registry

variable {r : Registry} {files : FileTree}

theorem Mirrors.deeds_public (h : r.Mirrors) {o : Operation} (ho : o.mirrors) :
    ∀ d ∈ o.deeds r files, d.Public := by
  have hunload : r.unload.Mirrors := ⟨h.publishing, h.plain⟩
  cases o with
  | load keys force tolerant => exact h.loadDeeds_public keys force tolerant
  | loadSome filter reset =>
    cases reset with
    | true => exact List.forall_mem_cons.mpr ⟨trivial, hunload.eachDeeds_public _ _⟩
    | false => exact h.eachDeeds_public _ _
  | reload => exact List.forall_mem_cons.mpr ⟨trivial, hunload.loadDeeds_public _ _ _⟩
  | unload | clear key | clearAll => exact List.forall_mem_singleton.mpr trivial
  | assign key v =>
    unfold Operation.deeds
    simp only
    split
    next => exact List.forall_mem_singleton.mpr (h.holdDeed_public _ _)
    next => simp
  | valueOr key default =>
    unfold Operation.deeds
    simp only
    split
    next => exact List.forall_mem_singleton.mpr (h.holdDeed_public _ _)
    next => simp
  | put key v => simp [Operation.mirrors] at ho
  | setPublishing publishing => simp [Operation.mirrors] at ho
  | value | values | rename => simp [Operation.deeds]

theorem Mirrors.perform (h : r.Mirrors) {o : Operation} (ho : o.mirrors) (files : FileTree)
    (writesAllowed : Bool) : (o.perform r files writesAllowed).2.1.Mirrors := by
  have hplain : (o.perform r files writesAllowed).2.1.ambient.guarded = false := by
    have hholdings := congrArg (·.ambient.guarded) (holdings_perform o r files writesAllowed)
    exact (hholdings.trans (Holdings.guarded_foldl _ _)).trans h.plain
  refine ⟨?_, hplain⟩
  have hunload : r.unload.Mirrors := ⟨h.publishing, h.plain⟩
  cases o with
  | load keys force tolerant => exact ((outlasts files).load keys force tolerant h).publishing
  | loadSome filter reset => exact ((outlasts files).loadSome filter reset h).publishing
  | reload => exact ((outlasts files).reload h).publishing
  | unload | clear | clearAll | value | values => exact h.publishing
  | assign key v =>
    obtain ⟨_, _, _, hassign⟩ := r.exists_of_assign files writesAllowed key v
    exact (congrArg Registry.publishing hassign).trans h.publishing
  | valueOr key default =>
    obtain ⟨_, _, _, hvalue⟩ := r.exists_of_valueOr key default
    exact (congrArg Registry.publishing hvalue).trans h.publishing
  | rename names =>
    simp only [Operation.perform]
    split
    next => exact h.publishing
    next s hs =>
      obtain ⟨_, _, rfl⟩ := Results.map_eq_ok.mp hs
      exact h.publishing
  | put key v => simp [Operation.mirrors] at ho
  | setPublishing publishing => simp [Operation.mirrors] at ho

namespace Holdings

variable {h : Holdings} {ds : List Deed} {d : Deed} {k : Text} {v : Value}

theorem publish_entries (h : Holdings) (values : Table Text Value) :
    (h.publish (values.entries.map fun e => (e.1, e.2.splice.toOption.getD []))).ambient.table =
      h.ambient.table.insertAll (values.map Value.rendered) := by
  rw [Table.insertAll_map, publish, List.foldl_map]
  rfl

/-- What a deed does not touch stays as it is in both tables, unless it is an unloading. -/
theorem get?_after_of_untouched (hd : d.Public) (hk : d.touches k = false) (hu : d ≠ .unload) :
    (h.after d).cache.get? k = h.cache.get? k ∧
      (h.after d).ambient.table.get? k = h.ambient.table.get? k := by
  cases d with
  | take values shown =>
    obtain ⟨_, rfl⟩ := hd
    have hnone : values.get? k = none := Table.get?_eq_none_iff.mpr (by simpa [Deed.touches] using hk)
    constructor
    · change (h.cache.insertAll values).get? k = _
      rw [Table.get?_insertAll, hnone, Option.none_or]
    · unfold Holdings.after
      rw [publish_entries, Table.get?_insertAll, Table.get?_map, hnone]
      rfl
  | hold key v shown =>
    have hne : key ≠ k := by simpa [Deed.touches] using hk
    have hcache : (h.after (.hold key v shown)).cache = h.cache.insert key v := rfl
    rw [hcache, Table.get?_insert, if_neg hne]
    refine ⟨rfl, ?_⟩
    rcases hd with ⟨t, _, rfl⟩ | ⟨_, rfl⟩
    · simp [Holdings.after, Holdings.publish, hne]
    · rfl
  | clear key =>
    have hne : key ≠ k := by simpa [Deed.touches] using hk
    refine ⟨by simp [Holdings.after, hne], ?_⟩
    unfold Holdings.after
    simp only
    split
    next => simp [Ambient.erase, hne]
    next => rfl
  | unload => exact absurd rfl hu
  | clearAll => simp [Deed.touches] at hk

/-- What a deed touches is in both tables afterwards, or in neither. -/
theorem get?_after_of_touched (hr : h.Remembered) (hd : d.Public) (hk : d.touches k) :
    ((h.after d).cache.get? k = none ∧ (h.after d).ambient.table.get? k = none) ∨
      ∃ v, (h.after d).cache.get? k = some v ∧
        v.ShownAs ((h.after d).ambient.table.get? k) := by
  have hforgotten : k ∉ h.published → h.ambient.table.get? k = none :=
    fun hnot => Table.get?_eq_none_iff.mpr fun hmem => hnot (hr k hmem)
  cases d with
  | take values shown =>
    obtain ⟨htexts, rfl⟩ := hd
    obtain ⟨v, hv⟩ := Table.mem_keys_iff_get?.mp (by simpa [Deed.touches] using hk)
    obtain ⟨t, ht⟩ := htexts (k, v) (Table.mem_entries_iff.mpr hv)
    refine Or.inr ⟨v, ?_, Or.inl ⟨t, ht, ?_⟩⟩
    · change (h.cache.insertAll values).get? k = _
      rw [Table.get?_insertAll, hv, Option.some_or]
    · unfold Holdings.after
      rw [publish_entries, Table.get?_insertAll, Table.get?_map, hv]
      exact congrArg some (Value.rendered_of_splice ht)
  | hold key v shown =>
    obtain rfl : key = k := by simpa [Deed.touches] using hk
    have hcached : (h.after (.hold key v shown)).cache.get? key = some v := by
      simp [Holdings.after, Holdings.publish]
    rcases hd with ⟨t, ht, rfl⟩ | ⟨hv, rfl⟩
    · exact Or.inr ⟨v, hcached, Or.inl ⟨t, ht, by simp [Holdings.after, Holdings.publish]⟩⟩
    · exact Or.inr ⟨v, hcached, Or.inr hv⟩
  | clear key =>
    obtain rfl : key = k := by simpa [Deed.touches] using hk
    refine Or.inl ⟨by simp [Holdings.after], ?_⟩
    unfold Holdings.after
    simp only
    split
    next => simp [Ambient.erase]
    next hnot => exact hforgotten hnot
  | unload => simp [Deed.touches] at hk
  | clearAll =>
    refine Or.inl ⟨rfl, ?_⟩
    simp only [Holdings.after, Ambient.eraseAll, Table.get?_eraseAll]
    split
    next => rfl
    next hnot => exact hforgotten hnot

theorem get?_after_unload (hr : h.Remembered) (k : Text) :
    (h.after .unload).cache.get? k = (if k ∈ h.owned then none else h.cache.get? k) ∧
      (h.after .unload).ambient.table.get? k = none := by
  refine ⟨by simp [Holdings.after], ?_⟩
  simp only [Holdings.after, Ambient.eraseAll, Table.get?_eraseAll]
  split
  next => rfl
  next hnot => exact Table.get?_eq_none_iff.mpr fun hmem => hnot (hr k hmem)

/-- A key that is cached after it was touched is owned, or its value is a caller's alone. -/
theorem taken_or_heldAlone (hk : d.touches k) (hc : (h.after d).cache.get? k ≠ none) :
    Deed.Taken k (ds ++ [d]) ∨ ∃ after, Deed.HeldAlone k (ds ++ [d]) after := by
  cases d with
  | take values shown =>
    exact Or.inl (Deed.since_concat.mpr (Or.inl hk))
  | hold key v shown =>
    obtain rfl : key = k := by simpa [Deed.touches] using hk
    by_cases htaken : Deed.Taken key ds
    · exact Or.inl (Deed.since_concat.mpr (Or.inr ⟨rfl, htaken⟩))
    · exact Or.inr ⟨[], Deed.heldAlone_concat.mpr (Or.inl ⟨rfl, ⟨v, shown, rfl⟩, htaken⟩)⟩
  | clear key =>
    obtain rfl : key = k := by simpa [Deed.touches] using hk
    simp [Holdings.after] at hc
  | unload => simp [Deed.touches] at hk
  | clearAll => simp [Holdings.after] at hc

/-- How the tables stand to each other at a key: what is public is cached, and what is cached is public
with its text, unless it was left behind. A cached key is owned, or its value is a caller's alone. -/
structure InStepAt (h : Holdings) (ds : List Deed) (k : Text) : Prop where
  cached : h.cache.get? k = none → h.ambient.table.get? k = none
  origin : h.cache.get? k ≠ none → Deed.Taken k ds ∨ ∃ after, Deed.HeldAlone k ds after
  bare : Deed.LeftBehind k ds → h.ambient.table.get? k = none
  same : ∀ v, h.cache.get? k = some v → ¬Deed.LeftBehind k ds →
    v.ShownAs (h.ambient.table.get? k)

theorem inStepAt_of_touched (hr : h.Remembered) (hd : d.Public) (hk : d.touches k) :
    (h.after d).InStepAt (ds ++ [d]) k := by
  have hnot : ¬Deed.LeftBehind k (ds ++ [d]) := Deed.not_leftBehind_concat hk
  rcases get?_after_of_touched hr hd hk with ⟨hcache, hambient⟩ | ⟨v, hcache, hshown⟩
  · exact ⟨fun _ => hambient, fun hc => absurd hcache hc, fun hleft => absurd hleft hnot,
      fun v hv => by simp [hcache] at hv⟩
  · refine ⟨fun hc => ?_, taken_or_heldAlone hk, fun hleft => absurd hleft hnot, fun w hw _ => ?_⟩
    · simp [hcache] at hc
    · rw [hcache] at hw
      exact Option.some.inj hw ▸ hshown

theorem InStepAt.after_of_untouched (hs : h.InStepAt ds k) (hd : d.Public)
    (hk : d.touches k = false) (hu : d ≠ .unload) : (h.after d).InStepAt (ds ++ [d]) k := by
  obtain ⟨hcache, hambient⟩ := get?_after_of_untouched (h := h) hd hk hu
  have hleft : Deed.LeftBehind k (ds ++ [d]) ↔ Deed.LeftBehind k ds := by
    rw [Deed.leftBehind_concat hk]
    exact or_iff_left fun ⟨he, _⟩ => hu he
  refine ⟨?_, ?_, ?_, ?_⟩
  · rw [hcache, hambient]
    exact hs.cached
  · rw [hcache]
    intro hc
    rcases hs.origin hc with htaken | ⟨after, halone⟩
    · exact Or.inl (Deed.since_concat.mpr (Or.inr ⟨Deed.drops_of_untouched hk hu, htaken⟩))
    · exact Or.inr ⟨after ++ [d], Deed.heldAlone_concat.mpr (Or.inr ⟨after, rfl, hk, halone⟩)⟩
  · rw [hambient, hleft]
    exact hs.bare
  · rw [hcache, hambient, hleft]
    exact hs.same

/-- What an unloading leaves in the cache was not owned, so that it was a caller's alone. -/
theorem InStepAt.after_unload (hs : h.InStepAt ds k) (hrecords : h.Records ds)
    (hr : h.Remembered) : (h.after .unload).InStepAt (ds ++ [.unload]) k := by
  obtain ⟨hcache, hambient⟩ := get?_after_unload hr k
  have halone : (h.after .unload).cache.get? k ≠ none → ∃ after, Deed.HeldAlone k ds after := by
    rw [hcache]
    intro hc
    split at hc
    next => exact absurd rfl hc
    next howned => exact (hs.origin hc).resolve_left fun htaken => howned ((hrecords.owned k).mpr htaken)
  refine ⟨fun _ => hambient, fun hc => ?_, fun _ => hambient, fun v hv hnot => ?_⟩
  · obtain ⟨after, hafter⟩ := halone hc
    exact Or.inr ⟨after ++ [.unload], Deed.heldAlone_concat.mpr (Or.inr ⟨after, rfl, rfl, hafter⟩)⟩
  · have hc : (h.after .unload).cache.get? k ≠ none := by simp [hv]
    exact absurd ((Deed.leftBehind_concat rfl).mpr (Or.inr ⟨rfl, halone hc⟩)) hnot

/-- Both tables are in step, and the registry's lists are right. -/
structure InStep (h : Holdings) (ds : List Deed) : Prop where
  records : h.Records ds
  remembered : h.Remembered
  inStepAt : ∀ k, h.InStepAt ds k

theorem InStep.after (hs : h.InStep ds) (hd : d.Public) : (h.after d).InStep (ds ++ [d]) := by
  refine ⟨hs.records.after d, hs.remembered.after d, fun k => ?_⟩
  -- only an unloading changes a key that it does not name, and what it changes hangs on the history
  cases hk : d.touches k with
  | true => exact inStepAt_of_touched hs.remembered hd hk
  | false =>
    by_cases hu : d = .unload
    · subst hu
      exact (hs.inStepAt k).after_unload hs.records hs.remembered
    · exact (hs.inStepAt k).after_of_untouched hd hk hu

theorem InStep.foldl {more : List Deed} (hs : h.InStep ds) (hmore : ∀ d ∈ more, d.Public) :
    (more.foldl .after h).InStep (ds ++ more) := by
  induction more generalizing h ds with
  | nil => simpa using hs
  | cons d more ih =>
    obtain ⟨hd, hmore⟩ := List.forall_mem_cons.mp hmore
    have hrest := ih (hs.after hd) hmore
    rwa [List.append_assoc] at hrest

theorem inStep_empty (guarded : Bool) : InStep ⟨∅, ⟨∅, guarded⟩, [], []⟩ [] where
  records := ⟨fun _ => iff_of_false List.not_mem_nil Deed.not_since_nil,
    fun _ => iff_of_false List.not_mem_nil Deed.not_since_nil⟩
  remembered := remembered_empty
  inStepAt k := ⟨fun _ => rfl, fun hc => absurd rfl hc, fun _ => rfl, fun v hv => by simp at hv⟩

end Holdings

end Registry

namespace Scene

/-- One happening keeps the tables in step. -/
theorem inStep_after {s : Scene} {ds : List Deed} (hs : s.registry.holdings.InStep ds)
    (hm : s.registry.Mirrors) {happening : Happening}
    (ho : ∀ o, happening = .operation o → o.mirrors) :
    (s.after happening).registry.holdings.InStep (ds ++ happening.deeds s) ∧
      (s.after happening).registry.Mirrors := by
  rw [holdings_after]
  cases happening with
  | operation o =>
    exact ⟨hs.foldl (hm.deeds_public (ho o rfl)), hm.perform (ho o rfl) s.files s.writesAllowed⟩
  | outside files writesAllowed =>
    exact ⟨hs.foldl (by simp [Happening.deeds]), hm⟩

theorem inStep_run {s : Scene} {ds : List Deed} (hs : s.registry.holdings.InStep ds)
    (hm : s.registry.Mirrors) {happenings : List Happening}
    (ho : ∀ o, .operation o ∈ happenings → o.mirrors) :
    (s.run happenings).registry.holdings.InStep (ds ++ s.deeds happenings) := by
  induction happenings generalizing s ds with
  | nil => simpa [deeds, run] using hs
  | cons happening happenings ih =>
    obtain ⟨hafter, hmirrors⟩ := inStep_after hs hm fun o he => ho o (he ▸ List.mem_cons_self)
    have hrest := ih hafter hmirrors fun o hmem => ho o (List.mem_cons_of_mem _ hmem)
    rwa [List.append_assoc] at hrest

/-- A registry that publishes in a table of its own, and never writes to its cache alone, has public
only what is cached, and with its text whatever is cached: but for integers that are too long to be
written, and for what a caller gave, while the registry did not own it, and an unloading has left
behind, whose text is not public. -/
theorem cache_and_ambient_in_step (roots names : List Text) (keepsLines : Bool) (files : FileTree)
    (writesAllowed : Bool) {happenings : List Happening}
    (h : ∀ o, .operation o ∈ happenings → o.mirrors) :
    let start : Scene := ⟨.fresh roots names true keepsLines ∅ (.plain ∅), files, writesAllowed⟩
    let r := (start.run happenings).registry
    let ds := start.deeds happenings
    (∀ k ∈ r.ambient.table.keys, k ∈ r.cache.keys) ∧
      ∀ k v, r.cache.get? k = some v →
        (Deed.LeftBehind k ds ∧ r.ambient.table.get? k = none) ∨
          ¬Deed.LeftBehind k ds ∧
            ((∃ t, v.splice = .ok t ∧ r.ambient.table.get? k = some (.text t)) ∨
              v.splice = .error .integerTooLong) := by
  intro start r ds
  have hstart : start.registry.holdings.InStep [] := Registry.Holdings.inStep_empty false
  have hinStep : r.holdings.InStep ds := inStep_run hstart ⟨rfl, rfl⟩ h
  constructor
  · intro k hk
    by_contra hnot
    have hnone := (hinStep.inStepAt k).cached (Table.get?_eq_none_iff.mpr hnot)
    exact Table.get?_eq_none_iff.mp hnone hk
  · intro k v hv
    by_cases hleft : Deed.LeftBehind k ds
    · exact Or.inl ⟨hleft, (hinStep.inStepAt k).bare hleft⟩
    · exact Or.inr ⟨hleft, (hinStep.inStepAt k).same v hv hleft⟩

/-- A reload brings one assigned key back to its file's value and leaves another one behind. -/
theorem cache_and_ambient_in_step_reloaded :
    let happenings := [.operation (.load [] false false), .operation (.assign "A".toList (.int 4)),
      .operation (.assign "C".toList (.int 3)), .operation .reload]
    let start : Scene := ⟨.fresh ["/".toList] [baseName, ".env.local".toList] true true ∅ (.plain ∅),
      FileTree.pair "A=1\n".toList "B=on\n".toList, false⟩
    let r := (start.run happenings).registry
    let ds := start.deeds happenings
    (∀ o, .operation o ∈ happenings → o.mirrors) ∧
    r.cache.entries = [("C".toList, .int 3), ("A".toList, .int 1), ("B".toList, .bool true)] ∧
    r.ambient.table.entries = [("A".toList, .text "1".toList), ("B".toList, .text "true".toList)] ∧
    (∀ k ∈ r.ambient.table.keys, k ∈ r.cache.keys) ∧
      ∀ k v, r.cache.get? k = some v →
        (Deed.LeftBehind k ds ∧ r.ambient.table.get? k = none) ∨
          ¬Deed.LeftBehind k ds ∧
            ((∃ t, v.splice = .ok t ∧ r.ambient.table.get? k = some (.text t)) ∨
              v.splice = .error .integerTooLong) := by
  intro happenings
  have h : ∀ o, .operation o ∈ happenings → o.mirrors := by
    intro o ho
    simp only [happenings, List.mem_cons, Happening.operation.injEq, List.not_mem_nil,
      or_false] at ho
    rcases ho with rfl | rfl | rfl | rfl
    all_goals rfl
  exact ⟨h, by decide +kernel, by decide +kernel, cache_and_ambient_in_step _ _ _ _ _ h⟩

/-- An assigned key stays in the cache after an unloading, which takes it out of the ambient table; and
an integer with too many digits is cached before it turns out that it has no text. -/
theorem cache_without_ambient :
    let start : Scene := ⟨.fresh ["/".toList] [baseName] true true ∅ (.plain ∅),
      FileTree.holding [], false⟩
    let unloaded := (start.run [.operation (.assign "A".toList (.int 1)), .operation .unload]).registry
    let failed := (start.run [.operation (.assign "A".toList (.int (10 ^ 4300)))]).registry
    unloaded.cache.get? "A".toList = some (.int 1) ∧
      unloaded.ambient.table.get? "A".toList = none ∧
      failed.cache.get? "A".toList = some (.int (10 ^ 4300)) ∧
      failed.ambient.table.get? "A".toList = none := by
  decide +kernel

end Scene

end EnvFile
