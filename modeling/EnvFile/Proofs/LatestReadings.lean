import EnvFile.Proofs.AssignedKeys
import EnvFile.Proofs.Runs

namespace EnvFile

/-- What the lines of files went through: they were read, or forgotten. -/
inductive Sighting
  | seen (place : Place) (lines : List Text)
  | forgotten (place : Place)
  | allForgotten

namespace Sighting

/-- The lines of the latest reading of a place, unless it has been forgotten since. The newest entry
of a log stands first. -/
def latest? (place : Place) : List Sighting → Option (List Text)
  | [] => none
  | .seen q lines :: log => if q = place then some lines else latest? place log
  | .forgotten q :: log => if q = place then none else latest? place log
  | .allForgotten :: _ => none

/-- The lines of an earlier reading that will do for another one. -/
def earlier? (keeps : Bool) (files : FileTree) (log : List Sighting) (p : Path) (useKept : Bool) :
    Option (List Text) :=
  if keeps && useKept then latest? (files.normalise p) log else none

/-- What another reading adds to a log: something only if a file is really read. -/
def another (keeps : Bool) (files : FileTree) (log : List Sighting) (p : Path) (useKept : Bool) :
    List Sighting :=
  match earlier? keeps files log p useKept, files.linesNow? p with
  | none, some lines => [.seen (files.normalise p) lines]
  | _, _ => []

end Sighting

namespace Reader

variable {reader : Reader} {keeps : Bool} {log : List Sighting} {files : FileTree}

/-- What a reader keeps are the latest readings of a log. -/
structure Recalls (reader : Reader) (keeps : Bool) (log : List Sighting) : Prop where
  keeps_eq : reader.keeps = keeps
  kept_eq : keeps = true → ∀ place, reader.kept.get? place = Sighting.latest? place log

theorem recalls_fresh (keeps : Bool) : (fresh keeps).Recalls keeps [] :=
  ⟨rfl, fun _ _ => rfl⟩

theorem Recalls.served?_eq (h : reader.Recalls keeps log) (p : Path) (useKept : Bool) :
    reader.served? files p useKept = Sighting.earlier? keeps files log p useKept := by
  unfold served? Sighting.earlier?
  rw [h.keeps_eq]
  split
  next hk => exact h.kept_eq (Bool.and_eq_true_iff.mp hk).1 _
  next => rfl

theorem Recalls.read_of_due (h : reader.Recalls keeps log) {p : Path} {useKept : Bool}
    {lines : List Text} (hp : files.Legible p)
    (hd : (Sighting.earlier? keeps files log p useKept).or (files.linesNow? p) = some lines) :
    (reader.read files p useKept).1 = .ok lines := by
  rw [← h.served?_eq, FileTree.linesNow?_eq] at hd
  rw [read_of_legible hp]
  cases hs : reader.served? files p useKept with
  | some kept =>
    rw [hs, Option.some_or] at hd
    cases hd
    rfl
  | none =>
    rw [hs, Option.none_or] at hd
    cases hl : files.linesOf p with
    | error fault => simp [hl, Except.toOption] at hd
    | ok other =>
      rw [hl] at hd
      exact congrArg Except.ok (Option.some.inj hd)

/-- Where no lines are due, the path is refused, and the reader stays as it is. -/
theorem Recalls.read_of_not_due (h : reader.Recalls keeps log) {p : Path} {useKept : Bool}
    (hd : files.Legible p →
      (Sighting.earlier? keeps files log p useKept).or (files.linesNow? p) = none) :
    ∃ fault, reader.read files p useKept = (.error fault, reader) ∧ files.Refuses p fault := by
  by_cases hp : files.Legible p
  · obtain ⟨hs, hn⟩ := Option.or_eq_none_iff.mp (hd hp)
    rw [← h.served?_eq] at hs
    rw [FileTree.linesNow?_eq] at hn
    rw [read_of_legible hp, hs]
    cases hl : files.linesOf p with
    | error fault => exact ⟨fault, rfl, FileTree.refuses_of_linesOf hl⟩
    | ok lines => simp [hl, Except.toOption] at hn
  · obtain ⟨fault, hfault, hread⟩ := FileTree.refuses_of_not_legible hp
    exact ⟨fault, hread reader useKept, hfault⟩

theorem Recalls.keep (h : reader.Recalls keeps log) (place : Place) (lines : List Text) :
    (reader.keep place lines).Recalls keeps (.seen place lines :: log) := by
  refine ⟨(keeps_keep reader place lines).trans h.keeps_eq, fun hkeeps q => ?_⟩
  rw [keep_of_keeps (h.keeps_eq.trans hkeeps)]
  rw [Table.get?_insert, Sighting.latest?, h.kept_eq hkeeps]

theorem Recalls.read (h : reader.Recalls keeps log) (files : FileTree) (p : Path)
    (useKept : Bool) : (reader.read files p useKept).2.Recalls keeps
      (Sighting.another keeps files log p useKept ++ log) := by
  unfold Sighting.another
  rw [← h.served?_eq, FileTree.linesNow?_eq]
  by_cases hp : files.Legible p
  · rw [read_of_legible hp]
    cases reader.served? files p useKept with
    | some lines => exact h
    | none =>
      cases files.linesOf p with
      | error fault => exact h
      | ok lines => exact h.keep (files.normalise p) lines
  · obtain ⟨fault, _, hread⟩ := FileTree.refuses_of_not_legible hp
    rw [FileTree.linesOf, hread, hread]
    simpa [Except.toOption] using h

theorem Recalls.erase (h : reader.Recalls keeps log) (place : Place) :
    Recalls { reader with kept := reader.kept.erase place } keeps (.forgotten place :: log) := by
  refine ⟨h.keeps_eq, fun hkeeps q => ?_⟩
  rw [Table.get?_erase, Sighting.latest?, h.kept_eq hkeeps]

theorem Recalls.forgetAll (h : reader.Recalls keeps log) :
    reader.forgetAll.Recalls keeps (.allForgotten :: log) :=
  ⟨h.keeps_eq, fun _ _ => rfl⟩

end Reader

/-- A reader of files is asked for lines or entries or told to forget, or what is around it changes
in any way. -/
inductive Consultation
  | lines (path : Text) (useKept : Bool)
  | entries (path : Text) (m : Registry.LoadMode)
  | forget (path : Text)
  | forgetAll
  | outside (files : FileTree) (cache : Table Text Value) (ambient : Ambient)

namespace Consultation

def filesAfter (files : FileTree) : Consultation → FileTree
  | outside files _ _ => files
  | _ => files

/-- What a consultation adds to a log. -/
def readings (keeps : Bool) (files : FileTree) (log : List Sighting) : Consultation → List Sighting
  | lines path useKept => Sighting.another keeps files log (.ofText path) useKept
  | entries path m => Sighting.another keeps files log (.ofText path) m.useKept
  | forget path =>
    if (Path.ofText path).holdsNul then [] else [.forgotten (files.normalise (.ofText path))]
  | forgetAll => [.allForgotten]
  | outside .. => []

def record (keeps : Bool) : FileTree → List Sighting → List Consultation → List Sighting
  | _, log, [] => log
  | files, log, c :: cs =>
    record keeps (c.filesAfter files) (c.readings keeps files log ++ log) cs

end Consultation

namespace Registry

theorem reader_entriesAt (r : Registry) (files : FileTree) (m : LoadMode) (path : Text) :
    (r.entriesAt files m path).2.1.reader =
      (r.reader.read files (.ofText path) m.useKept).2 := by
  unfold entriesAt linesAt
  split
  next h => exact congrArg (·.2.reader) h.symm
  next h => exact congrArg (·.2.reader) h.symm

theorem entriesAt_of_error {r s : Registry} {files : FileTree} {m : LoadMode} {path : Text}
    {fault : Fault} (h : r.linesAt files (.ofText path) m.useKept = (.error fault, s)) :
    r.entriesAt files m path = (.error fault, s, []) := by
  rw [entriesAt, h]

end Registry

namespace Scene

/-- One that fails to forget leaves all as it is. -/
def consult (s : Scene) : Consultation → Scene
  | .lines path useKept =>
    { s with registry := (s.registry.linesAt s.files (.ofText path) useKept).2 }
  | .entries path m => { s with registry := (s.registry.entriesAt s.files m path).2.1 }
  | .forget path =>
    match s.registry.forgetLinesAt s.files (.ofText path) with
    | .error _ => s
    | .ok registry => { s with registry }
  | .forgetAll => { s with registry := s.registry.forgetLines }
  | .outside files cache ambient => { s with files, registry := { s.registry with cache, ambient } }

def consultAll (s : Scene) (cs : List Consultation) : Scene := cs.foldl consult s

variable {s : Scene} {keeps : Bool} {log : List Sighting}

theorem files_consult (s : Scene) (c : Consultation) :
    (s.consult c).files = c.filesAfter s.files := by
  cases c with
  | forget path =>
    unfold consult
    simp only
    split
    next => rfl
    next => rfl
  | lines | entries | forgetAll | outside => rfl

theorem recalls_consult (h : s.registry.reader.Recalls keeps log) (c : Consultation) :
    (s.consult c).registry.reader.Recalls keeps (c.readings keeps s.files log ++ log) := by
  cases c with
  | lines path useKept => exact h.read s.files (.ofText path) useKept
  | entries path m =>
    have hread := h.read s.files (.ofText path) m.useKept
    rwa [← s.registry.reader_entriesAt] at hread
  | forget path =>
    unfold consult Consultation.readings Registry.forgetLinesAt Reader.forget
    simp only
    by_cases hnul : (Path.ofText path).holdsNul
    · rw [if_pos hnul, if_pos hnul]
      exact h
    · rw [if_neg hnul, if_neg hnul]
      exact h.erase (s.files.normalise (.ofText path))
  | forgetAll => exact h.forgetAll
  | outside files cache ambient => exact h

/-- The reader recalls the log of all that it was asked. -/
theorem recalls_consultAll (h : s.registry.reader.Recalls keeps log) (cs : List Consultation) :
    (s.consultAll cs).registry.reader.Recalls keeps (Consultation.record keeps s.files log cs) := by
  -- what is added to the log depends on what is in it, so the log is general
  induction cs generalizing s log with
  | nil => exact h
  | cons c cs ih =>
    have hstep := ih (recalls_consult h c)
    rwa [files_consult] at hstep

/-- Whatever a reader has been asked and whatever has changed around it, a file that may be read has
the lines of its latest reading, where they are kept and will do, and else those that it holds now;
entries are made of the same lines. Any other path is refused, and nothing that is kept changes; the
fault is one of access wherever the path can be looked up. -/
theorem reads_latest (h : s.registry.reader = .fresh keeps) (cs : List Consultation) (path : Text)
    (m : Registry.LoadMode) :
    let now := s.consultAll cs
    let log := Consultation.record keeps s.files [] cs
    let p := Path.ofText path
    let lines? := if keeps && m.useKept then
      (Sighting.latest? (now.files.normalise p) log).or (now.files.linesNow? p)
      else now.files.linesNow? p
    let read := now.registry.linesAt now.files p m.useKept
    let load := now.registry.entriesAt now.files m path
    (∀ lines, now.files.Legible p → lines? = some lines →
      read.1 = .ok lines ∧ load.1 = (now.registry.entriesIn m path lines).1) ∧
    ((now.files.Legible p → lines? = none) →
      ∃ fault, read = (.error fault, now.registry) ∧ load = (.error fault, now.registry, []) ∧
        (now.files.LookUpFails p fault ∨
          (∃ there, now.files.isPresent p = .ok there) ∧
            ∃ reason, fault = .access p.toText reason)) := by
  intro now log p lines? read load
  have hrecalls : now.registry.reader.Recalls keeps log :=
    recalls_consultAll (h ▸ Reader.recalls_fresh keeps) cs
  have hlines : lines? =
      (Sighting.earlier? keeps now.files log p m.useKept).or (now.files.linesNow? p) := by
    simp only [lines?, Sighting.earlier?]
    split
    next => rfl
    next => rw [Option.none_or]
  refine ⟨fun lines hp hd => ?_, fun hd => ?_⟩
  · have hread : read.1 = .ok lines := hrecalls.read_of_due hp (hlines ▸ hd)
    exact ⟨hread, (Registry.entriesAt_of_lines hread).1⟩
  · obtain ⟨fault, hread, hrefuses⟩ := hrecalls.read_of_not_due (hlines ▸ hd)
    have hlinesAt : read = (.error fault, now.registry) := by
      simp only [read, Registry.linesAt, hread]
    exact ⟨fault, hlinesAt, Registry.entriesAt_of_error hlinesAt, hrefuses⟩

/-- The file is read, edited, read anew past what is kept, edited again and read under another
spelling: the lines are those of the second reading. -/
theorem reads_latest_edited :
    let s : Scene := ⟨Registry.rooted, .holding "A=1".toList, true⟩
    let m : Registry.LoadMode := ⟨.all, false, true⟩
    let cs : List Consultation := [.lines "/.env".toList true,
      .outside (.holding "A=2".toList) ∅ (.plain ∅), .entries ".env".toList { m with useKept := false },
      .outside (.holding "A=3".toList) ∅ (.plain ∅), .forget "/.env.local".toList]
    let now := s.consultAll cs
    let log := Consultation.record true s.files [] cs
    let p := Path.ofText "//./.env".toList
    let lines? := (Sighting.latest? (now.files.normalise p) log).or (now.files.linesNow? p)
    let read := now.registry.linesAt now.files p true
    let load := now.registry.entriesAt now.files m "//./.env".toList
    s.registry.reader = .fresh true ∧ now.files.Legible p ∧
    now.files.linesNow? p = some ["A=3".toList] ∧ lines? = some ["A=2".toList] ∧
    read.1 = .ok ["A=2".toList] ∧
    load.1 = (now.registry.entriesIn m "//./.env".toList ["A=2".toList]).1 := by
  intro s m cs now log p lines? read load
  have hfresh : s.registry.reader = .fresh true := rfl
  have hlegible : now.files.Legible p := by decide +kernel
  have hlines : lines? = some ["A=2".toList] := by decide +kernel
  obtain ⟨hread, hload⟩ := (reads_latest hfresh cs "//./.env".toList m).1 _ hlegible hlines
  exact ⟨hfresh, hlegible, by decide +kernel, hlines, hread, hload⟩

/-- No file is found under a name that is too long for a file system, or in a directory that may not be
searched, and yet the fault is not one of access. -/
theorem reads_latest_otherwise :
    let path := List.replicate 256 'x'
    let files := FileTree.holding []
    let read := Registry.rooted.linesAt files (.ofText path) true
    let path' := "/d/.env".toList
    let files' := (FileTree.bare ⟨['/'], ["d".toList]⟩).forbidSearching (.ofText "/d".toList)
    let read' := Registry.rooted.linesAt files' (.ofText path') true
    files.content? (.ofText path) = none ∧ read.1 = .error (.pathTooLong path) ∧
    (∀ reason, read.1 ≠ .error (.access path reason)) ∧
    files'.content? (.ofText path') = none ∧
    read'.1 = .error (.pathForbidden path') ∧
    ∀ reason, read'.1 ≠ .error (.access path' reason) := by
  intro path files read path' files' read'
  have hmissing : (files.content? (.ofText path)).isNone := by decide +kernel
  have hread : read.1 = .error (.pathTooLong path) := by decide +kernel
  have hmissing' : (files'.content? (.ofText path')).isNone := by decide +kernel
  have hread' : read'.1 = .error (.pathForbidden path') := by decide +kernel
  refine ⟨Option.isNone_iff_eq_none.mp hmissing, hread, ?_,
    Option.isNone_iff_eq_none.mp hmissing', hread', ?_⟩
  · intro reason h
    rw [hread] at h
    cases h
  · intro reason h
    rw [hread'] at h
    cases h

end Scene

end EnvFile
