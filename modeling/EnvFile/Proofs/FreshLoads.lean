import EnvFile.Proofs.Assignments
import EnvFile.Proofs.FileLines
import EnvFile.Registry.Loading

namespace EnvFile

namespace Registry

def envPath (root : Text) : Path := (Path.ofText root).join (Path.ofText baseName)

theorem basePath_of_roots {r : Registry} {root : Text} (h : r.roots = [root]) (files : FileTree) :
    r.basePath files = envPath root := by
  simp [basePath, h, envPath]

/-- A registry of one root that knows nothing yet. -/
def blank (root : Text) (publishing keepsLines : Bool) : Registry :=
  fresh [root] [baseName] publishing keepsLines ∅ (.plain ∅)

variable {root : Text} {publishing keepsLines : Bool} {files : FileTree} {lines : List Text}

theorem paths_blank : (blank root publishing keepsLines).paths = [envPath root] := rfl

theorem load_of_runs {r : Registry} {keys : List Text} {force tolerant : Bool}
    (h : (r.loaded && !force) = false) (files : FileTree) :
    r.load files keys force tolerant =
      match (if force then r.forgetLines else r).loadFiles files
        ⟨if keys.isEmpty then .all else .among keys, tolerant, !force⟩ with
      | (.ok (), r, notices) => (.ok (), { r with loaded := true }, notices)
      | failed => failed := by
  unfold load
  rw [h]
  rfl

theorem load_of_not_loaded {r : Registry} {tolerant : Bool} (h : r.loaded = false)
    (files : FileTree) :
    r.load files [] false tolerant =
      match r.loadFiles files ⟨.all, tolerant, true⟩ with
      | (.ok (), r, notices) => (.ok (), { r with loaded := true }, notices)
      | failed => failed :=
  load_of_runs (by rw [h, Bool.false_and]) files

theorem load_forced (r : Registry) (files : FileTree) :
    r.load files [] true false =
      match r.forgetLines.loadFiles files ⟨.all, false, false⟩ with
      | (.ok (), r, notices) => (.ok (), { r with loaded := true }, notices)
      | failed => failed :=
  load_of_runs (Bool.and_false r.loaded) files

/-- A forced load forgets kept lines anyway. -/
theorem load_forgetLines (r : Registry) (files : FileTree) (keys : List Text) (tolerant : Bool) :
    r.forgetLines.load files keys true tolerant = r.load files keys true tolerant := by
  unfold load
  simp only [Bool.not_true, Bool.and_false, Bool.false_eq_true, ↓reduceIte]
  rfl

theorem load_blank {tolerant : Bool} (hp : files.isPresent (envPath root) = .ok true) :
    (blank root publishing keepsLines).load files [] false tolerant =
      match (blank root publishing keepsLines).loadFile files ⟨.all, tolerant, true⟩ (envPath root) with
      | (.error fault, r, notices) => (.error fault, r, notices)
      | (.ok (), r, notices) => (.ok (), { r with loaded := true }, notices) := by
  have habsent : files.isAbsent (envPath root) = false := by simp [FileTree.isAbsent, hp]
  rw [load_of_not_loaded rfl]
  unfold loadFiles
  rw [paths_blank]
  simp only [List.all_cons, habsent, Bool.false_and, Bool.false_eq_true, ↓reduceIte]
  unfold loadEach
  rw [hp]
  simp only
  rcases (blank root publishing keepsLines).loadFile files ⟨.all, tolerant, true⟩ (envPath root) with
    ⟨_ | _, r, notices⟩
  · rfl
  · simp [loadEach]

theorem exists_of_linesAt {r s : Registry} {p : Path} {useKept : Bool}
    {result : Except Fault (List Text)} (h : r.linesAt files p useKept = (result, s)) :
    ∃ reader, r.reader.read files p useKept = (result, reader) ∧ s.cache = r.cache ∧
      s.ambient = r.ambient := by
  unfold linesAt at h
  cases h
  exact ⟨_, rfl, rfl, rfl⟩

/-- What a file declares is what its lines do. -/
theorem entriesAt_of_lines {r : Registry} {m : LoadMode} {path : Text}
    (h : (r.linesAt files (Path.ofText path) m.useKept).1 = .ok lines) :
    (r.entriesAt files m path).1 =
        (Listing.entries r.cache r.ambient.table ⟨m.filter, m.tolerant, path⟩ lines).1 ∧
      (r.entriesAt files m path).2.2 =
        (Listing.entries r.cache r.ambient.table ⟨m.filter, m.tolerant, path⟩ lines).2 := by
  rcases hl : r.linesAt files (Path.ofText path) m.useKept with ⟨result, s⟩
  rw [hl] at h
  obtain rfl : result = .ok lines := h
  obtain ⟨_, _, hcache, hambient⟩ := exists_of_linesAt hl
  unfold entriesAt
  rw [hl]
  simp only [entriesIn, hcache, hambient, and_self]

theorem entriesIn_of_tables {r : Registry} (hc : r.cache = ∅) (ha : r.ambient = .plain ∅)
    (m : LoadMode) (path : Text) :
    r.entriesIn m path lines = Listing.entries ∅ ∅ ⟨m.filter, m.tolerant, path⟩ lines := by
  rw [entriesIn, hc, ha]
  rfl

theorem linesAt_blank {content : ByteArray} (hc : files.content? (envPath root) = some content)
    (hr : files.isReadable (envPath root)) (hl : Reader.current content = .ok lines) :
    ∃ s, (blank root publishing keepsLines).linesAt files (envPath root) true = (.ok lines, s) ∧
      s.cache = ∅ ∧ s.ambient = .plain ∅ := by
  have hread := Reader.read_fresh keepsLines files (envPath root) true
  rw [FileTree.linesOf_eq_ok_iff.mpr ⟨content, hc, hr, hl⟩] at hread
  exact ⟨_, Prod.ext hread rfl, rfl, rfl⟩

/-- Values that all have a text are taken over, whether they are published or not. -/
theorem commit_of_splice {r : Registry} {values : Table Text Value}
    (hg : r.ambient.guarded = false) (hv : ∀ e ∈ values.entries, ∃ t, e.2.splice = .ok t) :
    ∃ s, r.commit values = (.ok (), s) ∧ s.cache = r.cache.insertAll values := by
  refine ⟨(r.commit values).2, Prod.ext ?_ rfl, ?_⟩
  · unfold commit
    exact publishAll_of_splice hg hv
  · unfold commit
    rw [publishAll_cache]

/-- The entries of a readable file are what a blank registry caches from it. -/
theorem load_blank_of_entries {content : ByteArray} {values : Table Text Value}
    (hc : files.content? (envPath root) = some content) (hr : files.isReadable (envPath root))
    (hl : Reader.current content = .ok lines)
    (he : (Listing.entries ∅ ∅ ⟨.all, false, (envPath root).toText⟩ lines).1 = .ok values)
    (hv : ∀ e ∈ values.entries, ∃ t, e.2.splice = .ok t) :
    ∃ r notices, (blank root publishing keepsLines).load files [] false false = (.ok (), r, notices) ∧
      ∀ key, r.cache.get? key = values.get? key := by
  obtain ⟨s, hread, hcache, hambient⟩ := linesAt_blank hc hr hl
  rcases hentries : Listing.entries ∅ ∅ ⟨.all, false, (envPath root).toText⟩ lines with
    ⟨result, notices⟩
  rw [hentries] at he
  obtain rfl : result = .ok values := he
  obtain ⟨r, hcommit, hr'⟩ := commit_of_splice (r := s) (by rw [hambient]; rfl) hv
  refine ⟨{ r with loaded := true }, notices ++ [.loaded values.size (envPath root).toText], ?_, ?_⟩
  · rw [load_blank (FileTree.isPresent_of_content? hc), loadFile, hread]
    simp only
    rw [entriesIn_of_tables hcache hambient, hentries]
    simp only
    rw [hcommit]
  · intro key
    change r.cache.get? key = _
    rw [hr', Table.get?_insertAll, hcache, Table.get?_empty, Option.or_none]

/-- A fault among the lines of a readable file is what a blank registry fails with. -/
theorem load_blank_of_fault {content : ByteArray} {fault : Fault} {tolerant : Bool}
    (hc : files.content? (envPath root) = some content) (hr : files.isReadable (envPath root))
    (hl : Reader.current content = .ok lines)
    (he : (Listing.entries ∅ ∅ ⟨.all, tolerant, (envPath root).toText⟩ lines).1 = .error fault) :
    ∃ r notices,
      (blank root publishing keepsLines).load files [] false tolerant = (.error fault, r, notices) := by
  obtain ⟨s, hread, hcache, hambient⟩ := linesAt_blank hc hr hl
  rcases hentries : Listing.entries ∅ ∅ ⟨.all, tolerant, (envPath root).toText⟩ lines with
    ⟨result, notices⟩
  rw [hentries] at he
  obtain rfl : result = .error fault := he
  refine ⟨s, notices, ?_⟩
  rw [load_blank (FileTree.isPresent_of_content? hc), loadFile, hread]
  simp only
  rw [entriesIn_of_tables hcache hambient, hentries]

theorem isPresent_of_load_blank {r : Registry} {notices : List Notice}
    (h : (blank root publishing keepsLines).load files [] false false = (.ok (), r, notices)) :
    files.isPresent (envPath root) = .ok true := by
  rw [load_of_not_loaded rfl] at h
  unfold loadFiles at h
  rw [paths_blank] at h
  cases hp : files.isPresent (envPath root) with
  | error fault =>
    have ha : files.isAbsent (envPath root) = false := by simp [FileTree.isAbsent, hp]
    simp [ha, loadEach, hp] at h
  | ok present =>
    cases present with
    | true => rfl
    | false =>
      have ha : files.isAbsent (envPath root) = true := by simp [FileTree.isAbsent, hp]
      simp [ha] at h

/-- What a blank registry can load strictly is a readable file with entries. -/
theorem exists_of_load_blank {r : Registry} {notices : List Notice}
    (h : (blank root publishing keepsLines).load files [] false false = (.ok (), r, notices)) :
    ∃ content lines values, files.content? (envPath root) = some content ∧
      files.isReadable (envPath root) ∧ Reader.current content = .ok lines ∧
      (Listing.entries ∅ ∅ ⟨.all, false, (envPath root).toText⟩ lines).1 = .ok values := by
  rw [load_blank (isPresent_of_load_blank h), loadFile] at h
  rcases hread : (blank root publishing keepsLines).linesAt files (envPath root) true with
    ⟨fault | lines, s⟩
  · simp only [hread] at h
    simp at h
  · obtain ⟨reader, hreader, hcache, hambient⟩ := exists_of_linesAt hread
    have hlines : files.linesOf (envPath root) = .ok lines :=
      (Reader.read_fresh keepsLines files (envPath root) true).symm.trans (congrArg Prod.fst hreader)
    obtain ⟨content, hc, hr, hl⟩ := FileTree.linesOf_eq_ok_iff.mp hlines
    refine ⟨content, lines, ?_⟩
    simp only [hread] at h
    rw [entriesIn_of_tables hcache hambient] at h
    rcases hentries : Listing.entries ∅ ∅ ⟨.all, false, (envPath root).toText⟩ lines with
      ⟨fault | values, told⟩
    · simp only [hentries] at h
      simp at h
    · exact ⟨values, hc, hr, hl, rfl⟩

end Registry

end EnvFile
