import EnvFile.Proofs.AssignedKeys
import EnvFile.Proofs.Gathering
import EnvFile.Proofs.LoadingSteps

namespace EnvFile

namespace Registry

variable {r s : Registry} {files after : FileTree} {writesAllowed : Bool} {key : Text} {v : Value}
  {fault : Fault} {notices : List Notice}

/-- A registry with a value in its cache. -/
def caching (r : Registry) (key : Text) (v : Value) : Registry :=
  { r with cache := r.cache.insert key v }

/-- A registry with a value in its ambient table as well, if it publishes. -/
def announcing (r : Registry) (key : Text) (v : Value) : Registry :=
  if r.publishing then
    { r with
      ambient := { r.ambient with table := r.ambient.table.insert key v.rendered }
      published := r.published.insert key }
  else r

theorem eq_announcing_of_publish (h : r.publish key v = .ok s) : s = r.announcing key v := by
  unfold announcing
  rcases publish_cases h with ⟨t, hp, ht, rfl⟩ | ⟨hp, rfl⟩
  · rw [if_pos hp, Value.rendered_of_splice ht]
  · rw [if_neg hp]

/-- Either the value was rejected, or it was cached and could not be published, or it was published
and could not be saved. -/
theorem assign_fault_cases
    (h : r.assign files writesAllowed key v = (.error fault, s, after, notices)) :
    (after = files ∨ files.Overflows (r.basePath files) (Text.trim key) v after) ∧
    ((objection? (Text.trim key) v = some fault ∨ v.settle = .error fault) ∧ s = r ∨
      objection? (Text.trim key) v = none ∧ ∃ w, v.settle = .ok w ∧
        ((r.caching (Text.trim key) w).publish (Text.trim key) w = .error fault ∧
            s = r.caching (Text.trim key) w ∨
          writesAllowed = true ∧
            (files.save (r.basePath files) (Text.trim key) v).1 = .error fault ∧
            s = (r.caching (Text.trim key) w).announcing (Text.trim key) w)) := by
  unfold assign at h
  simp only at h
  split at h
  next hobjection =>
    cases h
    exact ⟨Or.inl rfl, Or.inl ⟨Or.inl hobjection, rfl⟩⟩
  next hobjection =>
    split at h
    next hsettle =>
      cases h
      exact ⟨Or.inl rfl, Or.inl ⟨Or.inr hsettle, rfl⟩⟩
    next w hsettle =>
      split at h
      next hpublish =>
        cases h
        exact ⟨Or.inl rfl, Or.inr ⟨hobjection, w, hsettle, Or.inl ⟨hpublish, rfl⟩⟩⟩
      next t hpublish =>
        have hannounced := eq_announcing_of_publish hpublish
        obtain ⟨ambient, published, ht⟩ := exists_of_publish hpublish
        have hpath : t.basePath files = r.basePath files := by rw [ht]; rfl
        split at h
        next hwrites =>
          rw [hpath] at h
          rcases hsave : files.save (r.basePath files) (Text.trim key) v with ⟨answer, files', told⟩
          rw [hsave] at h
          cases h
          have hk : '\n' ∉ Text.trim key :=
            Text.not_mem_assignable (isAssignable_of_objection?_eq_none hobjection) (by decide)
          have hfiles := FileTree.save_fault hk hsave
          exact ⟨hfiles, Or.inr ⟨hobjection, w, hsettle, Or.inr ⟨hwrites, rfl, hannounced⟩⟩⟩
        next => simp at h

/-- An assignment that fails changes no kept lines, nothing of what is owned and no file, except that
the base file may have been emptied for a text that did not fit. A value that was rejected has changed
nothing at all. Any other is held under the trimmed key: in the cache alone if it could not be
published, and in the ambient table too, if the registry publishes, where it could not be saved. -/
theorem assign_fault (h : r.assign files writesAllowed key v = (.error fault, s, after, notices)) :
    (after = files ∨ files.Overflows (r.basePath files) (Text.trim key) v after) ∧
    s.owned = r.owned ∧ s.loaded = r.loaded ∧ s.reader = r.reader ∧
    ((objection? (Text.trim key) v = some fault ∨ v.settle = .error fault) ∧ s = r ∨
      objection? (Text.trim key) v = none ∧ ∃ w, v.settle = .ok w ∧
        ((r.caching (Text.trim key) w).publish (Text.trim key) w = .error fault ∧
            s = r.caching (Text.trim key) w ∨
          writesAllowed = true ∧
            (files.save (r.basePath files) (Text.trim key) v).1 = .error fault ∧
            s = (r.caching (Text.trim key) w).announcing (Text.trim key) w)) := by
  obtain ⟨hafter, hcases⟩ := assign_fault_cases h
  obtain ⟨cache, ambient, published, hs⟩ := r.exists_of_assign files writesAllowed key v
  rw [h] at hs
  have howned := congrArg Registry.owned hs
  have hloaded := congrArg Registry.loaded hs
  have hreader := congrArg Registry.reader hs
  exact ⟨hafter, howned, hloaded, hreader, hcases⟩

/-- The base file cannot be decoded, which shows only after the value has been published. -/
theorem assign_fault_undecodable :
    let r := blank "/".toList true true
    let files : FileTree := { here := [], nodes := .ofList [([baseName], .file ⟨#[255, 10]⟩)] }
    let fault := Fault.undecodable ⟨255, 0, 1, .startByte⟩
    ∃ s after notices,
      r.assign files true " A ".toList (.text "2".toList) = (.error fault, s, after, notices) ∧
      s.cache.entries = [("A".toList, .int 2)] ∧
      s.ambient.table.entries = [("A".toList, .text "2".toList)] ∧
      after = files ∧ s.owned = r.owned ∧ s.loaded = r.loaded ∧ s.reader = r.reader ∧
      ∃ w, Value.settle (.text "2".toList) = .ok w ∧
        (files.save (r.basePath files) (Text.trim " A ".toList) (.text "2".toList)).1 = .error fault ∧
        s = (r.caching (Text.trim " A ".toList) w).announcing (Text.trim " A ".toList) w := by
  intro r files fault
  let answer := r.assign files true " A ".toList (.text "2".toList)
  have hfault : answer.1 = .error fault := by decide +kernel
  have hassign : r.assign files true " A ".toList (.text "2".toList) =
      (.error fault, answer.2.1, answer.2.2.1, answer.2.2.2) := Prod.ext hfault rfl
  have hcached : answer.2.1.cache.entries = [("A".toList, .int 2)] := by decide +kernel
  have htable : answer.2.1.ambient.table.entries = [("A".toList, .text "2".toList)] := by
    decide +kernel
  obtain ⟨hfiles, howned, hloaded, hreader, hcases⟩ := assign_fault hassign
  have hafter := hfiles.resolve_right (FileTree.not_overflows_of_no_rooms rfl)
  refine ⟨_, _, _, hassign, hcached, htable, hafter, howned, hloaded, hreader, ?_⟩
  rcases hcases with ⟨_, hs⟩ | ⟨_, w, hw, ⟨_, hs⟩ | ⟨_, hsave, hs⟩⟩
  · rw [hs] at hcached
    exact absurd hcached (by decide)
  · rw [hs] at htable
    exact absurd htable (List.cons_ne_nil _ _).symm
  · exact ⟨w, hw, hsave, hs⟩

/-- A file that may not be written keeps its line, but the cache and the ambient table have the new
value all the same. -/
theorem assign_fault_leaves_values :
    let r := blank "/".toList true true
    let files := { FileTree.holding "A=1\n".toList with unwritable := [[baseName]] }
    ∃ s notices,
      r.assign files true "A".toList (.text "2".toList) =
        (.error (.access "/.env".toList "not writable".toList), s, files, notices) ∧
      r.cache.get? "A".toList = none ∧ s.cache.get? "A".toList = some (.int 2) ∧
      r.ambient.table.get? "A".toList = none ∧
      s.ambient.table.get? "A".toList = some (.text "2".toList) ∧
      r.published = [] ∧ s.published = ["A".toList] := by
  intro r files
  let answer := r.assign files true "A".toList (.text "2".toList)
  have hfault : answer.1 = .error (.access "/.env".toList "not writable".toList) := by
    decide +kernel
  have hassign : r.assign files true "A".toList (.text "2".toList) =
      (.error (.access "/.env".toList "not writable".toList), answer.2.1, answer.2.2.1,
        answer.2.2.2) := Prod.ext hfault rfl
  obtain ⟨hfiles, _⟩ := assign_fault_cases hassign
  rw [hfiles.resolve_right (FileTree.not_overflows_of_no_rooms rfl)] at hassign
  exact ⟨_, _, hassign, rfl, by decide +kernel, rfl, by decide +kernel, rfl, by decide +kernel⟩

end Registry

end EnvFile
