import EnvFile.FileTree
import EnvFile.Proofs.Tables

namespace EnvFile

namespace FileTree

variable {f : FileTree} {place : Place}

theorem find?_eq_some_iff {p : Path} {n : Node} :
    f.find? p = some n ↔ ∃ place, f.locate p = .ok place ∧ f.node? place = some n := by
  unfold find?
  cases f.locate p <;> simp [Except.toOption]

theorem content?_eq_some_iff {p : Path} {content : ByteArray} :
    f.content? p = some content ↔
      ∃ place, f.locate p = .ok place ∧ f.node? place = some (.file content) := by
  rw [← find?_eq_some_iff, content?]
  cases f.find? p with
  | none => simp
  | some n => cases n <;> simp

theorem ne_nil_of_file {content : ByteArray} (h : f.node? place = some (.file content)) :
    place ≠ [] := by
  rintro rfl
  simp [node?] at h

theorem node?_put (hp : place ≠ []) (n : Node) (q : Place) :
    (f.put place n).node? q = if place = q then some n else f.node? q := by
  unfold node? put
  rw [Table.get?_insert]
  by_cases hq : place = q
  · subst hq
    simp [hp]
  · simp [hq]

/-- All that a step can lead to: up to the directory above, or down to a node that is there. -/
theorem step_eq_ok_iff {q r : Place} {segment : Text} : f.step q segment = .ok r ↔
    f.node? q = some .directory ∧ q ∉ f.unsearchable ∧
      (segment = "..".toList ∧ r = q.dropLast ∨
        segment ≠ "..".toList ∧ byteCount segment ≤ nameLimit ∧
          (f.node? (q ++ [segment])).isSome ∧ r = q ++ [segment]) := by
  unfold step
  generalize "..".toList = up
  cases f.node? q with
  | none => simp
  | some n =>
    cases n with
    | file content => simp
    | directory =>
      by_cases hsearch : q ∈ f.unsearchable
      · simp [hsearch]
      by_cases hup : segment = up
      · subst hup
        simpa [hsearch] using eq_comm
      by_cases hshort : nameLimit < byteCount segment
      · simp [hsearch, hup, hshort, Nat.not_le.mpr hshort]
      by_cases hsome : (f.node? (q ++ [segment])).isSome
      · simp [hsearch, hup, hshort, hsome, Nat.not_lt.mp hshort, eq_comm]
      · simp [hsearch, hup, hshort, hsome]

/-- A step leads to the same place after a node has been put where no directory is. -/
theorem step_put (hp : place ≠ []) (hd : f.node? place ≠ some .directory) (n : Node) {q r : Place}
    {segment : Text} (h : f.step q segment = .ok r) : (f.put place n).step q segment = .ok r := by
  obtain ⟨hdir, hsearch, hto⟩ := step_eq_ok_iff.mp h
  have hne : place ≠ q := fun he => hd (he ▸ hdir)
  have hdir' : (f.put place n).node? q = some .directory := by
    rw [node?_put hp, if_neg hne, hdir]
  refine step_eq_ok_iff.mpr ⟨hdir', hsearch, hto.imp_right ?_⟩
  rintro ⟨hup, hshort, hsome, hr⟩
  refine ⟨hup, hshort, ?_, hr⟩
  rw [node?_put hp]
  split
  next => rfl
  next => exact hsome

theorem steps_put (hp : place ≠ []) (hd : f.node? place ≠ some .directory) (n : Node)
    {segments : List Text} {q r : Place} (h : segments.foldlM f.step q = .ok r) :
    segments.foldlM (f.put place n).step q = .ok r := by
  induction segments generalizing q with
  | nil => exact h
  | cons segment segments ih =>
    rw [List.foldlM_cons] at h ⊢
    cases hs : f.step q segment with
    | error e => simp [hs, bind, Except.bind] at h
    | ok q' =>
      rw [hs] at h
      rw [step_put hp hd n hs]
      exact ih h

theorem locate_eq_ok_iff {p : Path} {r : Place} :
    f.locate p = .ok r ↔ p.holdsNul = false ∧ byteCount p.toText < pathLimit ∧
      (p.isHere → f.here ∉ f.unsearchable) ∧ p.segments.foldlM f.step (f.start p) = .ok r := by
  unfold locate
  cases p.holdsNul with
  | true => simp
  | false =>
    by_cases hl : pathLimit ≤ byteCount p.toText
    · simp [hl, Nat.not_lt.mpr hl]
    · by_cases hsearch : p.isHere ∧ f.here ∈ f.unsearchable
      · simp [hl, Nat.not_le.mp hl, hsearch.1, hsearch.2]
      · have hopen : p.isHere → f.here ∉ f.unsearchable := fun hh hm => hsearch ⟨hh, hm⟩
        simp only [Bool.false_eq_true, ↓reduceIte, if_neg hl, Bool.and_eq_true, List.contains_iff_mem,
          if_neg hsearch]
        exact ⟨fun h => ⟨trivial, Nat.not_le.mp hl, hopen, h⟩, fun h => h.2.2.2⟩

theorem locate_put (hp : place ≠ []) (hd : f.node? place ≠ some .directory) (n : Node) {p : Path}
    {r : Place} (h : f.locate p = .ok r) : (f.put place n).locate p = .ok r := by
  obtain ⟨hnul, hlong, hsearch, hsteps⟩ := locate_eq_ok_iff.mp h
  exact locate_eq_ok_iff.mpr ⟨hnul, hlong, hsearch, steps_put hp hd n hsteps⟩

theorem content?_put {p : Path} {content : ByteArray} (hl : f.locate p = .ok place)
    (hf : f.node? place = some (.file content)) (new : ByteArray) :
    (f.put place (.file new)).content? p = some new := by
  have hp := ne_nil_of_file hf
  rw [content?_eq_some_iff]
  exact ⟨place, locate_put hp (by simp [hf]) _ hl, by rw [node?_put hp, if_pos rfl]⟩

theorem normalise_of_steps {segments : List Text} {q r : Place}
    (h : segments.foldlM f.step q = .ok r) :
    segments.foldl (fun place s => if s = "..".toList then place.dropLast else place ++ [s]) q = r := by
  induction segments generalizing q with
  | nil =>
    cases h
    rfl
  | cons segment segments ih =>
    rw [List.foldlM_cons] at h
    rw [List.foldl_cons]
    cases hs : f.step q segment with
    | error e => simp [hs, bind, Except.bind] at h
    | ok q' =>
      rw [hs] at h
      have hq : q' = if segment = "..".toList then q.dropLast else q ++ [segment] := by
        obtain ⟨_, _, ⟨hup, hto⟩ | ⟨hup, _, _, hto⟩⟩ := step_eq_ok_iff.mp hs
        · rw [if_pos hup, hto]
        · rw [if_neg hup, hto]
      rw [← hq]
      exact ih h

theorem normalise_of_locate {p : Path} (h : f.locate p = .ok place) : f.normalise p = place := by
  obtain ⟨_, _, _, hsteps⟩ := locate_eq_ok_iff.mp h
  exact normalise_of_steps hsteps

theorem not_isHere_of_segments {p : Path} {segments : List Text} {name : Text}
    (hp : p.segments = segments ++ [name]) : p.isHere = false := by
  simp [Path.isHere, hp]

/-- The way to a name goes through its directory, and what keeps the name from being found there is
what keeps it from being found at all. -/
theorem locate_of_parent {p : Path} {segments : List Text} {name : Text} {pl : Place}
    (hp : p.segments = segments ++ [name]) (hnul : p.holdsNul = false)
    (hlong : byteCount p.toText < pathLimit) (hl : f.locate p.parent = .ok pl) :
    f.locate p = f.step pl name := by
  obtain ⟨_, _, _, hsteps⟩ := locate_eq_ok_iff.mp hl
  have hsegments : p.parent.segments = segments := by simp [Path.parent, hp]
  rw [hsegments] at hsteps
  change segments.foldlM f.step (f.start p) = .ok pl at hsteps
  unfold locate
  rw [hnul, if_neg Bool.false_ne_true, if_neg (Nat.not_le.mpr hlong), not_isHere_of_segments hp,
    Bool.false_and, if_neg Bool.false_ne_true, hp, List.foldlM_append, hsteps]
  change (f.step pl name >>= pure) = _
  exact bind_pure _

/-- A file put into a directory that may be searched, under a name that was free there, is found by
that name. -/
theorem content?_put_new {p : Path} {segments : List Text} {name : Text}
    (hp : p.segments = segments ++ [name]) (hname : name ≠ "..".toList)
    (hshort : byteCount name ≤ nameLimit) (hnul : p.holdsNul = false)
    (hlong : byteCount p.toText < pathLimit) (hfree : ∀ r, f.locate p ≠ .ok r)
    (hsearch : f.locate p ≠ .error .forbidden)
    (hparent : f.find? p.parent = some .directory) (new : ByteArray) :
    (f.put (f.normalise p) (.file new)).content? p = some new := by
  obtain ⟨pl, hl, hdir⟩ := find?_eq_some_iff.mp hparent
  obtain ⟨_, _, _, hsteps⟩ := locate_eq_ok_iff.mp hl
  have hsegments : p.parent.segments = segments := by simp [Path.parent, hp]
  rw [hsegments] at hsteps
  have hplace : f.normalise p = pl ++ [name] := by
    rw [normalise, hp, List.foldl_append]
    change List.foldl _ (List.foldl _ (f.start p.parent) segments) [name] = _
    rw [normalise_of_steps hsteps]
    exact if_neg hname
  rw [locate_of_parent hp hnul hlong hl] at hsearch
  have hopen : pl ∉ f.unsearchable := by
    intro hclosed
    refine hsearch ?_
    simp [step, hdir, hclosed]
  -- the directory is there and open, so only the name itself can have been missing
  have hnone : f.node? (pl ++ [name]) = none := by
    cases hn : f.node? (pl ++ [name]) with
    | none => rfl
    | some n =>
      refine absurd ?_ (hfree (pl ++ [name]))
      rw [locate_of_parent hp hnul hlong hl]
      exact step_eq_ok_iff.mpr ⟨hdir, hopen, Or.inr ⟨hname, hshort, by rw [hn]; rfl, rfl⟩⟩
  have hne : pl ++ [name] ≠ [] := by simp
  have hput : (f.put (pl ++ [name]) (.file new)).node? (pl ++ [name]) = some (.file new) := by
    rw [node?_put hne, if_pos rfl]
  have hdir' : (f.put (pl ++ [name]) (.file new)).node? pl = some .directory := by
    rw [node?_put hne, if_neg (by simp), hdir]
  have hl' := locate_put hne (by simp [hnone]) (.file new) hl
  rw [hplace, content?_eq_some_iff]
  refine ⟨pl ++ [name], ?_, hput⟩
  rw [locate_of_parent hp hnul hlong hl']
  exact step_eq_ok_iff.mpr ⟨hdir', hopen, Or.inr ⟨hname, hshort, by rw [hput]; rfl, rfl⟩⟩

end FileTree

end EnvFile
