import EnvFile.Proofs.Assignments
import EnvFile.Proofs.FileNames
import EnvFile.Proofs.Runs

namespace EnvFile

namespace Registry

/-- A property that outlasts the steps of which loading and unloading consist. -/
structure Outlasts (P : Registry → Prop) (files : FileTree) : Prop where
  linesAt : ∀ {r : Registry} (p : Path) (useKept : Bool), P r → P (r.linesAt files p useKept).2
  commit : ∀ {r : Registry} {m : LoadMode} {path : Text} {lines : List Text}
    {values : Table Text Value}, (r.entriesIn m path lines).1 = .ok values → P r →
      P (r.commit values).2
  forgetLines : ∀ {r : Registry}, P r → P r.forgetLines
  mark : ∀ {r : Registry}, P r → P { r with loaded := true }
  unload : ∀ {r : Registry}, P r → P r.unload

namespace Outlasts

variable {P : Registry → Prop} {files : FileTree} {r : Registry}

theorem loadFile (h : Outlasts P files) (m : LoadMode) (p : Path) (hr : P r) :
    P (r.loadFile files m p).2.1 := by
  have hlines := h.linesAt p m.useKept hr
  unfold Registry.loadFile
  split
  next fault s hs =>
    rw [hs] at hlines
    split
    next => exact hlines
    next => exact hlines
  next lines s hs =>
    rw [hs] at hlines
    split
    next => exact hlines
    next values notices he =>
      have hcommit := h.commit (congrArg Prod.fst he) hlines
      split
      next hc => rwa [hc] at hcommit
      next hc => rwa [hc] at hcommit

theorem loadEach (h : Outlasts P files) (m : LoadMode) (ps : List Path) (hr : P r) :
    P (r.loadEach files m ps).2.1 := by
  induction ps generalizing r with
  | nil => exact hr
  | cons p ps ih =>
    unfold Registry.loadEach
    split
    next => exact hr
    next => exact ih hr
    next =>
      have hfile := h.loadFile m p hr
      split
      next he => rwa [he] at hfile
      next he =>
        rw [he] at hfile
        exact ih hfile

theorem loadFiles (h : Outlasts P files) (m : LoadMode) (hr : P r) :
    P (r.loadFiles files m).2.1 := by
  unfold Registry.loadFiles
  split
  next =>
    split
    next => exact hr
    next => exact hr
  next => exact h.loadEach m r.paths hr

theorem load (h : Outlasts P files) (keys : List Text) (force tolerant : Bool) (hr : P r) :
    P (r.load files keys force tolerant).2.1 := by
  unfold Registry.load
  split
  next => exact hr
  next =>
    have hstart : P (if force then { r with reader := r.reader.forgetAll } else r) := by
      split
      next => exact h.forgetLines hr
      next => exact hr
    have hload := h.loadFiles ⟨if keys.isEmpty then .all else .among keys, tolerant, !force⟩ hstart
    simp only
    split
    next he =>
      rw [he] at hload
      exact h.mark hload
    next => exact hload

theorem loadSome (h : Outlasts P files) (filter : KeyFilter) (reset : Bool) (hr : P r) :
    P (r.loadSome files filter reset).2.1 := by
  cases reset with
  | true => exact h.loadFiles ⟨filter, false, true⟩ (h.unload hr)
  | false => exact h.loadFiles ⟨filter, false, true⟩ hr

theorem reload (h : Outlasts P files) (hr : P r) : P (r.reload files).2.1 :=
  h.load [] true false (h.unload hr)

end Outlasts

variable {r : Registry}

theorem exists_of_commit (r : Registry) (values : Table Text Value) :
    ∃ ambient owned published, (r.commit values).2 =
      { r with cache := r.cache.insertAll values, ambient, owned, published } := by
  obtain ⟨ambient, published, h⟩ := exists_of_publishAll
    { r with
      cache := r.cache.insertAll values
      owned := values.keys.foldl (fun ks k => ks.insert k) r.owned } values.entries
  exact ⟨ambient, _, published, h⟩

theorem exists_of_assign (r : Registry) (files : FileTree) (writesAllowed : Bool) (key : Text)
    (v : Value) : ∃ cache ambient published,
      (r.assign files writesAllowed key v).2.1 = { r with cache, ambient, published } := by
  unfold assign
  simp only
  split
  next => exact ⟨_, _, _, rfl⟩
  next =>
    split
    next => exact ⟨_, _, _, rfl⟩
    next =>
      split
      next => exact ⟨_, _, _, rfl⟩
      next s hs =>
        obtain ⟨ambient, published, rfl⟩ := exists_of_publish hs
        split
        next => exact ⟨_, _, _, rfl⟩
        next => exact ⟨_, _, _, rfl⟩

theorem exists_of_valueOr (r : Registry) (key : Text) (default : Value) :
    ∃ cache ambient published, (r.valueOr key default).2 = { r with cache, ambient, published } := by
  unfold valueOr
  split
  next => exact ⟨_, _, _, rfl⟩
  next => exact ⟨_, _, _, rfl⟩
  next =>
    split
    next => exact ⟨_, _, _, rfl⟩
    next =>
      simp only
      split
      next => exact ⟨_, _, _, rfl⟩
      next s hs =>
        obtain ⟨ambient, published, rfl⟩ := exists_of_publish hs
        exact ⟨_, _, _, rfl⟩

/-- A property of where values come from, the roots, the file names and the reader, which outlasts
reading lines, forgetting them and taking other names. -/
structure RestsOnSources (P : Registry → Prop) (files : FileTree) : Prop where
  same : ∀ {r s : Registry}, P r → s.roots = r.roots → s.names = r.names → s.reader = r.reader → P s
  rename : ∀ {r s : Registry} {names : List Text}, P r → r.rename names = .ok s → P s
  linesAt : ∀ {r : Registry} (p : Path) (useKept : Bool), P r → P (r.linesAt files p useKept).2
  forgetLines : ∀ {r : Registry}, P r → P r.forgetLines

namespace RestsOnSources

variable {P : Registry → Prop} {files : FileTree}

theorem outlasts (h : RestsOnSources P files) : Outlasts P files where
  linesAt := h.linesAt
  commit {r _ _ _ values} _ hr := by
    obtain ⟨_, _, _, hcommit⟩ := r.exists_of_commit values
    rw [hcommit]
    exact h.same hr rfl rfl rfl
  forgetLines := h.forgetLines
  mark hr := h.same hr rfl rfl rfl
  unload hr := h.same hr rfl rfl rfl

theorem perform (h : RestsOnSources P files) (o : Operation) (writesAllowed : Bool) (hr : P r) :
    P (o.perform r files writesAllowed).2.1 := by
  cases o with
  | load keys force tolerant => exact h.outlasts.load keys force tolerant hr
  | loadSome filter reset => exact h.outlasts.loadSome filter reset hr
  | unload => exact h.outlasts.unload hr
  | reload => exact h.outlasts.reload hr
  | clear key => exact h.same hr rfl rfl rfl
  | clearAll => exact h.same (h.forgetLines hr) rfl rfl rfl
  | assign key v =>
    obtain ⟨_, _, _, hassign⟩ := r.exists_of_assign files writesAllowed key v
    have hroots := congrArg Registry.roots hassign
    have hnames := congrArg Registry.names hassign
    have hreader := congrArg Registry.reader hassign
    exact h.same hr hroots hnames hreader
  | valueOr key default =>
    obtain ⟨_, _, _, hvalue⟩ := r.exists_of_valueOr key default
    have hroots := congrArg Registry.roots hvalue
    have hnames := congrArg Registry.names hvalue
    have hreader := congrArg Registry.reader hvalue
    exact h.same hr hroots hnames hreader
  | put key v =>
    simp only [Operation.perform]
    split
    next => exact hr
    next s hs =>
      obtain ⟨w, _, rfl⟩ := Results.map_eq_ok.mp hs
      exact h.same hr rfl rfl rfl
  | value key => exact hr
  | values => exact hr
  | rename names =>
    simp only [Operation.perform]
    split
    next => exact hr
    next s hs => exact h.rename hr hs
  | setPublishing publishing => exact h.same hr rfl rfl rfl

end RestsOnSources

theorem rests_roots (roots : List Text) (files : FileTree) :
    RestsOnSources (fun r => r.roots = roots) files where
  same h hroots _ _ := hroots.trans h
  rename h hs := by
    obtain ⟨_, _, rfl⟩ := Results.map_eq_ok.mp hs
    exact h
  linesAt _ _ h := h
  forgetLines h := h

theorem rests_names (files : FileTree) :
    RestsOnSources (fun r => fileNames r.names = .ok r.names) files where
  same h _ hnames _ := hnames ▸ h
  rename _ hs := by
    obtain ⟨ns, hns, rfl⟩ := Results.map_eq_ok.mp hs
    exact fileNames_of_fileNames hns
  linesAt _ _ h := h
  forgetLines h := h

end Registry

namespace Scene

variable {s : Scene} {P : Registry → Prop}

/-- What rests on where values come from, whatever the files are, holds throughout. -/
theorem rests_run (h : ∀ files, Registry.RestsOnSources P files) (hs : P s.registry)
    (happenings : List Happening) : P (s.run happenings).registry := by
  induction happenings generalizing s with
  | nil => exact hs
  | cons happening happenings ih =>
    have hafter : P (s.after happening).registry := by
      cases happening with
      | operation o => exact (h s.files).perform o s.writesAllowed hs
      | outside files writesAllowed => exact hs
    exact ih hafter

theorem roots_run (s : Scene) (happenings : List Happening) :
    (s.run happenings).registry.roots = s.registry.roots :=
  rests_run (Registry.rests_roots s.registry.roots) rfl happenings

theorem fileNames_run (h : fileNames s.registry.names = .ok s.registry.names)
    (happenings : List Happening) :
    fileNames (s.run happenings).registry.names = .ok (s.run happenings).registry.names :=
  rests_run Registry.rests_names h happenings

end Scene

end EnvFile
