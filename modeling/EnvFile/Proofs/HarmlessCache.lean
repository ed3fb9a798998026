import EnvFile.Proofs.Declarations
import EnvFile.Proofs.Hazards
import EnvFile.Proofs.LoadingSteps
import EnvFile.Proofs.Tables

namespace EnvFile

def Value.Harmless (v : Value) : Prop := ∀ t, v = .text t → Hazard.carried t = false

def Table.Harmless (t : Table Text Value) : Prop := ∀ k v, t.get? k = some v → v.Harmless

namespace Table

theorem harmless_empty : Harmless ∅ := all_empty Value.Harmless

theorem Harmless.insert {t : Table Text Value} {v : Value} (h : t.Harmless) (k : Text)
    (hv : v.Harmless) : (t.insert k v).Harmless :=
  All.insert h k hv

theorem Harmless.insertAll {t s : Table Text Value} (h : t.Harmless) (hs : s.Harmless) :
    (t.insertAll s).Harmless :=
  All.insertAll h hs

theorem Harmless.erase {t : Table Text Value} (h : t.Harmless) (k : Text) : (t.erase k).Harmless :=
  All.erase h k

theorem Harmless.eraseAll {t : Table Text Value} (h : t.Harmless) (ks : List Text) :
    (t.eraseAll ks).Harmless :=
  All.eraseAll h ks

end Table

theorem Value.harmless_of_ofText {t : Text} {v : Value} (ht : Hazard.carried t = false)
    (h : ofText t = .ok v) : v.Harmless := by
  rintro u rfl
  rw [← Bool.not_eq_true] at ht ⊢
  exact fun hu => ht (carried_of_ofText h hu)

namespace Listing

theorem value_harmless {s : Scope} {key draft : Text} {v : Value} (h : value s key draft = .ok v) :
    v.Harmless := by
  obtain ⟨t, _, h⟩ := Results.bind_eq_ok.mp h
  split at h
  next => simp at h
  next hc =>
    split at h
    next =>
      obtain rfl : Value.text [] = v := by simpa using h
      intro u hu
      cases hu
      decide
    next => exact Value.harmless_of_ofText (by simpa using hc) h

theorem entries_harmless {cache ambient values : Table Text Value} {m : Manner} {lines : List Text}
    (h : (entries cache ambient m lines).1 = .ok values) : values.Harmless :=
  forall_of_entriesFrom value_harmless Table.harmless_empty h

end Listing

namespace Registry

variable {r : Registry}

theorem commit_harmless {values : Table Text Value} (hr : r.cache.Harmless) (hv : values.Harmless) :
    (r.commit values).2.cache.Harmless := by
  rw [commit, publishAll_cache]
  exact hr.insertAll hv

theorem harmless_outlasts (files : FileTree) : Outlasts (fun r => r.cache.Harmless) files where
  linesAt _ _ hr := hr
  commit he hr := commit_harmless hr (Listing.entries_harmless he)
  forgetLines hr := hr
  mark hr := hr
  unload {r} hr := hr.eraseAll r.owned

theorem vetted_harmless {key : Text} {v w : Value} (h : vetted key v = .ok w) : w.Harmless := by
  obtain ⟨u, _, h⟩ := Results.bind_eq_ok.mp h
  split at h
  next t _ =>
    split at h
    next => simp at h
    next hc =>
      obtain rfl : Value.text t = w := by simpa using h
      intro x hx
      cases hx
      simpa using hc
  next ht =>
    obtain rfl : u = w := by simpa using h
    exact fun x hx => absurd hx (ht x)

theorem valueOr_harmless (key : Text) (default : Value) (hr : r.cache.Harmless) :
    (r.valueOr key default).2.cache.Harmless := by
  unfold valueOr
  split
  next => exact hr
  next => exact hr
  next =>
    split
    next => exact hr
    next v hv =>
      have hi := hr.insert key (vetted_harmless hv)
      simp only
      split
      next => exact hi
      next s hs =>
        rw [publish_cache hs]
        exact hi

theorem put_harmless {key : Text} {v : Value} {s : Registry} (hr : r.cache.Harmless)
    (h : r.put key v = .ok s) : s.cache.Harmless := by
  obtain ⟨w, hw, rfl⟩ := Results.map_eq_ok.mp h
  exact hr.insert key (vetted_harmless hw)

/-- An assigned text is checked before it is read. -/
theorem settle_harmless_of_unobjected {key : Text} {v w : Value} (ho : objection? key v = none)
    (h : v.settle = .ok w) : w.Harmless := by
  cases v with
  | text t =>
    have hc : Hazard.carried t = false := (objection?_text_eq_none.mp ho).2.2.2
    exact Value.harmless_of_ofText hc h
  | null | bool _ | int _ | float _ | list _ | dict _ =>
    cases h
    intro t he
    simp at he

theorem assign_harmless (files : FileTree) (writesAllowed : Bool) (key : Text) (v : Value)
    (hr : r.cache.Harmless) : (r.assign files writesAllowed key v).2.1.cache.Harmless := by
  unfold assign
  simp only
  split
  next => exact hr
  next ho =>
    split
    next => exact hr
    next w hw =>
      have hi := hr.insert (Text.trim key) (settle_harmless_of_unobjected ho hw)
      split
      next => exact hi
      next s hs =>
        have hp : s.cache.Harmless := by
          rw [publish_cache hs]
          exact hi
        split
        next => exact hp
        next => exact hp

theorem perform_harmless (o : Operation) (files : FileTree) (writesAllowed : Bool)
    (hr : r.cache.Harmless) : (o.perform r files writesAllowed).2.1.cache.Harmless := by
  cases o with
  | load keys force tolerant => exact (harmless_outlasts files).load keys force tolerant hr
  | loadSome filter reset => exact (harmless_outlasts files).loadSome filter reset hr
  | unload => exact (harmless_outlasts files).unload hr
  | reload => exact (harmless_outlasts files).reload hr
  | clear key => exact hr.erase key
  | clearAll => exact Table.harmless_empty
  | assign key v => exact assign_harmless files writesAllowed key v hr
  | valueOr key default => exact valueOr_harmless key default hr
  | put key v =>
    simp only [Operation.perform]
    split
    next => exact hr
    next s hs => exact put_harmless hr hs
  | value key => exact hr
  | values => exact hr
  | rename names =>
    simp only [Operation.perform]
    split
    next => exact hr
    next s hs =>
      obtain ⟨ns, _, rfl⟩ := Results.map_eq_ok.mp hs
      exact hr
  | setPublishing publishing => exact hr

end Registry

namespace Host

theorem cacheAt_store (h : Host) (m : Member) (cache : Nat) :
    (h.store m).cacheAt cache = h.cacheAt cache ∨
      cache = m.cache ∧ (h.store m).cacheAt cache = m.registry.cache := by
  have hs : (h.store m).caches = h.caches.set m.cache m.registry.cache := by
    unfold store
    split <;> rfl
  simp only [cacheAt, hs, List.getElem?_set]
  by_cases hc : m.cache = cache
  · by_cases hl : m.cache < h.caches.length
    · exact Or.inr ⟨hc.symm, by simp [hc ▸ hl, hc]⟩
    · have hl' : ¬cache < h.caches.length := hc ▸ hl
      exact Or.inl (by simp [hc, hl'])
  · exact Or.inl (by simp [hc])

/-- A member that hands back a harmless cache leaves every cache of its host as harmless as it was. -/
theorem store_harmless {h : Host} {m : Member} {cache : Nat} (hh : (h.cacheAt cache).Harmless)
    (hm : cache = m.cache → m.registry.cache.Harmless) : ((h.store m).cacheAt cache).Harmless := by
  rcases h.cacheAt_store m cache with he | ⟨hc, he⟩
  · rwa [he]
  · rw [he]
    exact hm hc

theorem member?_cache {h : Host} {id : Nat} {m : Member} (hm : h.member? id = some m) :
    m.registry.cache = h.cacheAt m.cache := by
  obtain ⟨n, _, rfl⟩ := Option.map_eq_some_iff.mp hm
  rfl

theorem perform_harmless {h : Host} {cache : Nat} (id : Nat) (o : Operation)
    (hh : (h.cacheAt cache).Harmless) : ((h.perform id o).2.cacheAt cache).Harmless := by
  unfold perform
  split
  next => exact hh
  next m key v hm =>
    refine store_harmless hh ?_
    rintro rfl
    rw [← member?_cache hm] at hh
    exact Registry.assign_harmless h.files h.writesAllowed key v hh
  next o _ _ m hm _ =>
    refine store_harmless hh ?_
    rintro rfl
    rw [← member?_cache hm] at hh
    exact Registry.perform_harmless o h.files h.writesAllowed hh

theorem openMember_harmless {h : Host} {cache : Nat} (o : Opening) (own : Nat) (ambient : Option Nat)
    (hh : (h.cacheAt cache).Harmless) :
    ((h.openMember o own ambient).2.cacheAt cache).Harmless := by
  unfold openMember
  split
  next => exact hh
  next names _ =>
    have hfresh : cache = own → (h.cacheAt own).Harmless := fun hc => hc ▸ hh
    cases o.parts with
    | some parts =>
      have hs hc := (Registry.harmless_outlasts h.files).loadSome (.containing parts) false
        (r := .fresh o.roots names o.publishing o.keepsLines (h.cacheAt own) (h.ambientAt ambient))
        (hfresh hc)
      simp only
      split
      next => exact store_harmless hh hs
      next => exact store_harmless hh hs
    | none =>
      cases o.fastLoad with
      | true =>
        have hs hc := (Registry.harmless_outlasts h.files).load [] false false
          (r := .fresh o.roots names o.publishing o.keepsLines (h.cacheAt own) (h.ambientAt ambient))
          (hfresh hc)
        simp only [↓reduceIte]
        split
        next => exact store_harmless hh hs
        next => exact store_harmless hh hs
      | false => exact store_harmless hh hfresh

theorem after_harmless {h : Host} {cache : Nat} (e : Event) (hh : (h.cacheAt cache).Harmless) :
    ((h.after e).cacheAt cache).Harmless := by
  cases e with
  | operation id o => exact perform_harmless id o hh
  | opening o own ambient => exact openMember_harmless o own ambient hh
  | outside files environment ambients writesAllowed => exact hh

/-- However registries share a cache and whatever happens to files and environments, a cache without
hazards stays without them. -/
theorem run_harmless {h : Host} {cache : Nat} (events : List Event)
    (hh : (h.cacheAt cache).Harmless) : ((h.run events).cacheAt cache).Harmless := by
  induction events generalizing h with
  | nil => exact hh
  | cons e events ih => exact ih (after_harmless e hh)

/-- A forced text enters the cache without its slashes; a hazardous one never does. -/
theorem run_harmless_two_registries :
    let opening : Opening := ⟨[['.']], none, false, false, none, true⟩
    let h := Host.start (FileTree.bare (Path.ofText "/w".toList)) ∅
    let events := [.opening opening 0 none, .opening opening 0 none,
      .operation 0 (.put ['K'] (.text "/x/phar:/".toList)),
      .operation 1 (.assign ['K'] (.text "php://filter".toList)),
      .operation 1 (.valueOr ['L'] (.text "/zip://a/".toList))]
    (h.cacheAt 0).Harmless ∧
      ((h.run events).cacheAt 0).entries = [(['K'], .text "x/phar:".toList)] ∧
      ((h.run events).cacheAt 0).Harmless := by
  intro opening h events
  have hh : (h.cacheAt 0).Harmless := Table.harmless_empty
  exact ⟨hh, rfl, run_harmless events hh⟩

end Host

end EnvFile
