import EnvFile.Proofs.Places
import EnvFile.Proofs.Results
import EnvFile.Reader

namespace EnvFile

namespace FileTree

variable {f : FileTree} {p : Path} {content : ByteArray} {lines : List Text} {fault : Fault}

/-- A file is at a path, and it may be read. -/
def Legible (f : FileTree) (p : Path) : Prop := (f.content? p).isSome ∧ f.isReadable p

instance (f : FileTree) (p : Path) : Decidable (f.Legible p) := inferInstanceAs (Decidable (_ ∧ _))

/-- The lines at a path as they are now, if they can be read. -/
def linesNow? (f : FileTree) (p : Path) : Option (List Text) :=
  if f.Legible p then (f.content? p).bind fun content => (Reader.current content).toOption else none

/-- The lines of a file as they are, whatever a reader has kept of them. -/
def linesOf (f : FileTree) (p : Path) : Except Fault (List Text) :=
  ((Reader.fresh false).read f p false).1

theorem isPresent_of_content? (h : f.content? p = some content) : f.isPresent p = .ok true := by
  obtain ⟨place, hl, hn⟩ := content?_eq_some_iff.mp h
  simp [isPresent, hl, hn]

theorem isPresent_of_legible (h : f.Legible p) : f.isPresent p = .ok true := by
  obtain ⟨content, hc⟩ := Option.isSome_iff_exists.mp h.1
  exact isPresent_of_content? hc

/-- Why a path cannot be looked up, and the fault of it: it is too long, or a directory on the way may
not be searched. -/
inductive LookUpFails (f : FileTree) (p : Path) : Fault → Prop
  | tooLong : f.locate p = .error .tooLong → LookUpFails f p (.pathTooLong p.toText)
  | forbidden : f.locate p = .error .forbidden → LookUpFails f p (.pathForbidden p.toText)

theorem isPresent_eq_error_iff : f.isPresent p = .error fault ↔ f.LookUpFails p fault := by
  constructor
  · intro h
    unfold isPresent at h
    split at h
    next => cases h
    next hl =>
      cases h
      exact .tooLong hl
    next hl =>
      cases h
      exact .forbidden hl
    next => cases h
  · rintro (hl | hl)
    · simp [isPresent, hl]
    · simp [isPresent, hl]

theorem linesOf_of_legible (h : f.Legible p) (hc : f.content? p = some content) :
    f.linesOf p = (Reader.current content).mapError fun u =>
      .access p.toText ("failed to read (".toList ++ u.message ++ [')']) := by
  unfold linesOf Reader.read
  rw [isPresent_of_content? hc, hc]
  simp only [h.2, Bool.not_true, Bool.false_eq_true, ↓reduceIte, Reader.fresh, Bool.false_and]
  cases Reader.current content with
  | error u => rfl
  | ok lines => rfl

/-- Why a path has no lines: it cannot be looked up, or it leads to no file that can be read. -/
def Refuses (f : FileTree) (p : Path) (fault : Fault) : Prop :=
  f.LookUpFails p fault ∨ (∃ b, f.isPresent p = .ok b) ∧ ∃ reason, fault = .access p.toText reason

/-- A path without a file that may be read is refused by any reader, in the same way. -/
theorem refuses_of_not_legible (h : ¬f.Legible p) : ∃ fault, f.Refuses p fault ∧
    ∀ (reader : Reader) (useKept : Bool), reader.read f p useKept = (.error fault, reader) := by
  unfold Refuses Reader.read
  cases hp : f.isPresent p with
  | error fault =>
    exact ⟨fault, Or.inl (isPresent_eq_error_iff.mp hp), fun _ _ => rfl⟩
  | ok there =>
    cases hc : f.content? p with
    | none => exact ⟨_, Or.inr ⟨⟨there, rfl⟩, _, rfl⟩, fun _ _ => rfl⟩
    | some content =>
      have hr : f.isReadable p = false := by
        rw [← Bool.not_eq_true]
        exact fun hr => h ⟨by rw [hc]; rfl, hr⟩
      rw [hr]
      exact ⟨_, Or.inr ⟨⟨there, rfl⟩, _, rfl⟩, fun _ _ => rfl⟩

theorem linesOf_eq_ok_iff : f.linesOf p = .ok lines ↔
    ∃ content, f.content? p = some content ∧ f.isReadable p ∧ Reader.current content = .ok lines := by
  constructor
  · intro h
    by_cases hp : f.Legible p
    · obtain ⟨content, hc⟩ := Option.isSome_iff_exists.mp hp.1
      rw [linesOf_of_legible hp hc, Results.mapError_eq_ok] at h
      exact ⟨content, hc, hp.2, h⟩
    · obtain ⟨fault, _, hread⟩ := refuses_of_not_legible hp
      simp [linesOf, hread] at h
  · rintro ⟨content, hc, hr, hl⟩
    rwa [linesOf_of_legible ⟨by rw [hc]; rfl, hr⟩ hc, Results.mapError_eq_ok]

theorem refuses_of_linesOf (h : f.linesOf p = .error fault) : f.Refuses p fault := by
  by_cases hp : f.Legible p
  · obtain ⟨content, hc⟩ := Option.isSome_iff_exists.mp hp.1
    refine Or.inr ⟨⟨true, isPresent_of_legible hp⟩, ?_⟩
    rw [linesOf_of_legible hp hc, Results.mapError_eq_error] at h
    obtain ⟨u, _, hfault⟩ := h
    exact ⟨_, hfault.symm⟩
  · obtain ⟨other, hother, hread⟩ := refuses_of_not_legible hp
    rw [linesOf, hread] at h
    cases h
    exact hother

theorem linesNow?_eq (f : FileTree) (p : Path) : f.linesNow? p = (f.linesOf p).toOption := by
  unfold linesNow?
  split
  next h =>
    obtain ⟨content, hc⟩ := Option.isSome_iff_exists.mp h.1
    rw [hc, Option.bind_some, linesOf_of_legible h hc]
    cases Reader.current content with
    | error u => rfl
    | ok lines => rfl
  next h =>
    obtain ⟨fault, _, hread⟩ := refuses_of_not_legible h
    rw [linesOf, hread]
    rfl

end FileTree

namespace Reader

variable {reader next : Reader} {files : FileTree} {p : Path} {useKept : Bool} {lines : List Text}

/-- Kept lines that may stand for those of a path. -/
def served? (reader : Reader) (files : FileTree) (p : Path) (useKept : Bool) : Option (List Text) :=
  if reader.keeps && useKept then reader.kept.get? (files.normalise p) else none

theorem served?_eq_some_iff : reader.served? files p useKept = some lines ↔
    reader.keeps = true ∧ useKept = true ∧ reader.kept.get? (files.normalise p) = some lines := by
  simp [served?, and_assoc]

/-- A reader after it has read a file. -/
def keep (reader : Reader) (place : Place) (lines : List Text) : Reader :=
  if reader.keeps then { reader with kept := reader.kept.insert place lines } else reader

theorem keep_of_keeps (h : reader.keeps = true) (place : Place) (lines : List Text) :
    reader.keep place lines = { reader with kept := reader.kept.insert place lines } := if_pos h

theorem keep_of_not_keeps (h : reader.keeps = false) (place : Place) (lines : List Text) :
    reader.keep place lines = reader := by
  rw [keep, h]
  rfl

@[simp] theorem keeps_keep (reader : Reader) (place : Place) (lines : List Text) :
    (reader.keep place lines).keeps = reader.keeps := by
  unfold keep
  split
  next => rfl
  next => rfl

theorem read_of_legible (h : files.Legible p) : reader.read files p useKept =
    match reader.served? files p useKept, files.linesOf p with
    | some lines, _ => (.ok lines, reader)
    | none, .error fault => (.error fault, reader)
    | none, .ok lines => (.ok lines, reader.keep (files.normalise p) lines) := by
  obtain ⟨content, hc⟩ := Option.isSome_iff_exists.mp h.1
  rw [FileTree.linesOf_of_legible h hc]
  unfold read
  rw [FileTree.isPresent_of_content? hc, hc]
  simp only [h.2, Bool.not_true, Bool.false_eq_true, ↓reduceIte]
  rw [← served?]
  cases reader.served? files p useKept with
  | some lines => rfl
  | none => cases current content <;> rfl

theorem read_of_served (h : files.Legible p) (hs : reader.served? files p useKept = some lines) :
    reader.read files p useKept = (.ok lines, reader) := by
  rw [read_of_legible h, hs]

theorem read_of_not_served (h : files.Legible p → reader.served? files p useKept = none) :
    reader.read files p useKept = match files.linesOf p with
      | .error fault => (.error fault, reader)
      | .ok lines => (.ok lines, reader.keep (files.normalise p) lines) := by
  by_cases hp : files.Legible p
  · rw [read_of_legible hp, h hp]
    cases files.linesOf p <;> rfl
  · obtain ⟨fault, _, hread⟩ := FileTree.refuses_of_not_legible hp
    rw [FileTree.linesOf, hread, hread]

/-- Lines that are read are kept ones, or those of the file; these may be kept now. -/
theorem read_cases {result : Except Fault (List Text)}
    (h : reader.read files p useKept = (result, next)) :
    (∃ lines, result = .ok lines ∧ files.Legible p ∧
      reader.served? files p useKept = some lines ∧ next = reader) ∨
    (∃ fault, result = .error fault ∧ files.linesOf p = .error fault ∧ next = reader) ∨
    ∃ lines, result = .ok lines ∧ files.linesOf p = .ok lines ∧
      next = reader.keep (files.normalise p) lines := by
  by_cases hserved : files.Legible p ∧ (reader.served? files p useKept).isSome
  · obtain ⟨hp, hs⟩ := hserved
    obtain ⟨lines, hs⟩ := Option.isSome_iff_exists.mp hs
    rw [read_of_served hp hs] at h
    obtain ⟨rfl, rfl⟩ := Prod.mk.inj h
    exact Or.inl ⟨lines, rfl, hp, hs, rfl⟩
  · have hnone : files.Legible p → reader.served? files p useKept = none := by
      intro hp
      rw [← Option.not_isSome_iff_eq_none]
      exact fun hs => hserved ⟨hp, hs⟩
    rw [read_of_not_served hnone] at h
    cases hl : files.linesOf p with
    | error fault =>
      rw [hl] at h
      obtain ⟨rfl, rfl⟩ := Prod.mk.inj h
      exact Or.inr (Or.inl ⟨fault, rfl, rfl, rfl⟩)
    | ok lines =>
      rw [hl] at h
      obtain ⟨rfl, rfl⟩ := Prod.mk.inj h
      exact Or.inr (Or.inr ⟨lines, rfl, rfl, rfl⟩)

theorem legible_of_read (h : reader.read files p useKept = (.ok lines, next)) : files.Legible p := by
  by_contra hp
  obtain ⟨fault, _, hread⟩ := FileTree.refuses_of_not_legible hp
  rw [hread] at h
  cases h

theorem keeps_read (reader : Reader) (files : FileTree) (p : Path) (useKept : Bool) :
    (reader.read files p useKept).2.keeps = reader.keeps := by
  rcases hread : reader.read files p useKept with ⟨result, next⟩
  rcases read_cases hread with ⟨_, _, _, _, rfl⟩ | ⟨_, _, _, rfl⟩ | ⟨_, _, _, rfl⟩
  · rfl
  · rfl
  · exact keeps_keep reader _ _

/-- A reader that does not keep lines stays as it is, and reads every file as it is. -/
theorem read_of_not_keeps (h : reader.keeps = false) (files : FileTree) (p : Path)
    (useKept : Bool) : reader.read files p useKept = (files.linesOf p, reader) := by
  have hnone : reader.served? files p useKept = none := by rw [served?, h]; rfl
  rw [read_of_not_served fun _ => hnone]
  cases files.linesOf p with
  | error fault => rfl
  | ok lines => exact congrArg (Prod.mk _) (keep_of_not_keeps h _ _)

/-- A reader that has kept nothing yet reads every file as it is. -/
theorem read_fresh (keeps : Bool) (files : FileTree) (p : Path) (useKept : Bool) :
    ((fresh keeps).read files p useKept).1 = files.linesOf p := by
  have hnone : (fresh keeps).served? files p useKept = none := by
    unfold served?
    split
    next => rfl
    next => rfl
  rw [read_of_not_served fun _ => hnone]
  cases files.linesOf p <;> rfl

end Reader

end EnvFile
