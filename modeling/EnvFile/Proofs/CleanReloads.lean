import EnvFile.Proofs.Gathering
import EnvFile.Proofs.LoadingSteps

namespace EnvFile

theorem Table.eq_empty_of_get? {κ α : Type} [DecidableEq κ] {t : Table κ α}
    (h : ∀ k, t.get? k = none) : t = ∅ := by
  have hkeys : t.keys = [] := by
    apply List.eq_nil_iff_forall_not_mem.mpr
    intro k
    exact get?_eq_none_iff.mp (h k)
  exact ext_of_keys hkeys h

/-- Erasing keys that cover a table empties it. -/
theorem Table.eraseAll_of_subset {κ α : Type} [DecidableEq κ] {t : Table κ α} {ks : List κ}
    (h : ∀ k ∈ t.keys, k ∈ ks) : t.eraseAll ks = ∅ := by
  apply eq_empty_of_get?
  intro k
  rw [get?_eraseAll]
  split
  next => rfl
  next hk => exact get?_eq_none_iff.mpr fun hmem => hk (h k hmem)

namespace Registry

variable {r s : Registry} {files : FileTree}

/-- All that is in the tables came from files: the keys in the cache are owned, and those in an
ambient table of the registry's own were published. -/
structure Tidy (r : Registry) : Prop where
  plain : r.ambient.guarded = false
  owned : ∀ k ∈ r.cache.keys, k ∈ r.owned
  published : ∀ k ∈ r.ambient.table.keys, k ∈ r.published

theorem tidy_fresh (roots names : List Text) (publishing keepsLines : Bool) :
    (fresh roots names publishing keepsLines ∅ (.plain ∅)).Tidy :=
  ⟨rfl, fun _ hk => absurd hk List.not_mem_nil, fun _ hk => absurd hk List.not_mem_nil⟩

theorem mem_keys_eraseAll {t : Table Text Value} {ks : List Text} {k : Text}
    (h : k ∈ (t.eraseAll ks).keys) : k ∈ t.keys ∧ k ∉ ks := by
  obtain ⟨v, hv⟩ := Table.mem_keys_iff_get?.mp h
  rw [Table.get?_eraseAll] at hv
  split at hv
  next => simp at hv
  next hk => exact ⟨Table.mem_keys_iff_get?.mpr ⟨v, hv⟩, hk⟩

theorem mem_keys_erase {t : Table Text Value} {j k : Text} (h : k ∈ (t.erase j).keys) :
    k ∈ t.keys ∧ k ≠ j := by
  have hall : (t.erase j).keys = (t.eraseAll [j]).keys := rfl
  rw [hall] at h
  obtain ⟨hk, hne⟩ := mem_keys_eraseAll h
  exact ⟨hk, fun he => hne (List.mem_singleton.mpr he)⟩

theorem mem_foldl_insert {ks owned : List Text} {k : Text} :
    k ∈ ks.foldl (fun ks k => ks.insert k) owned ↔ k ∈ owned ∨ k ∈ ks := by
  induction ks generalizing owned with
  | nil => simp
  | cons j ks ih =>
    rw [List.foldl_cons, ih, List.mem_insert_iff, List.mem_cons]
    tauto

/-- A key that is published counts as such. -/
theorem Tidy.publish {key : Text} {v : Value} (h : r.Tidy) (hs : r.publish key v = .ok s) :
    s.Tidy := by
  rcases publish_cases hs with ⟨t, _, _, rfl⟩ | ⟨_, rfl⟩
  · refine ⟨h.plain, h.owned, fun k hk => List.mem_insert_iff.mpr ?_⟩
    rcases Table.mem_keys_insert.mp hk with hk | rfl
    · exact Or.inr (h.published k hk)
    · exact Or.inl rfl
  · exact h

theorem Tidy.publishAll (h : r.Tidy) (es : List (Text × Value)) : (r.publishAll es).2.Tidy := by
  induction es generalizing r with
  | nil => exact h
  | cons e es ih =>
    unfold Registry.publishAll
    split
    next => exact h
    next s hs => exact ih (h.publish hs)

theorem Tidy.commit (h : r.Tidy) (values : Table Text Value) : (r.commit values).2.Tidy := by
  unfold Registry.commit
  apply Tidy.publishAll
  refine ⟨h.plain, fun k hk => ?_, h.published⟩
  exact mem_foldl_insert.mpr ((Table.mem_keys_insertAll.mp hk).imp_left (h.owned k))

theorem Tidy.unload (h : r.Tidy) : r.unload.Tidy where
  plain := h.plain
  owned k hk := absurd (h.owned k (mem_keys_eraseAll hk).1) (mem_keys_eraseAll hk).2
  published k hk := absurd (h.published k (mem_keys_eraseAll hk).1) (mem_keys_eraseAll hk).2

theorem Tidy.clear (h : r.Tidy) (key : Text) : (r.clear key).Tidy := by
  refine ⟨?_, fun k hk => ?_, fun k hk => ?_⟩
  · unfold Registry.clear
    simp only
    split
    next => exact h.plain
    next => exact h.plain
  · obtain ⟨hmem, hne⟩ := mem_keys_erase hk
    exact List.mem_filter.mpr ⟨h.owned k hmem, by simpa using hne⟩
  · have hold : k ∈ r.ambient.table.keys ∧ k ≠ key := by
      unfold Registry.clear at hk
      simp only at hk
      split at hk
      next => exact mem_keys_erase hk
      next hnot => exact ⟨hk, fun he => hnot (he ▸ h.published k hk)⟩
    exact List.mem_filter.mpr ⟨h.published k hold.1, by simpa using hold.2⟩

theorem Tidy.clearAll (h : r.Tidy) : r.clearAll.Tidy where
  plain := h.plain
  owned _ hk := absurd hk List.not_mem_nil
  published k hk := absurd (h.published k (mem_keys_eraseAll hk).1) (mem_keys_eraseAll hk).2

theorem Tidy.outlasts (files : FileTree) : Outlasts Tidy files where
  linesAt _ _ h := ⟨h.plain, h.owned, h.published⟩
  commit _ h := h.commit _
  forgetLines h := ⟨h.plain, h.owned, h.published⟩
  mark h := ⟨h.plain, h.owned, h.published⟩
  unload h := h.unload

theorem Tidy.perform {o : Operation} (h : r.Tidy) (ho : o.takesValue = false) (files : FileTree)
    (writesAllowed : Bool) : (o.perform r files writesAllowed).2.1.Tidy := by
  cases o with
  | load keys force tolerant => exact (outlasts files).load keys force tolerant h
  | loadSome filter reset => exact (outlasts files).loadSome filter reset h
  | unload => exact h.unload
  | reload => exact (outlasts files).reload h
  | clear key => exact h.clear key
  | clearAll => exact h.clearAll
  | assign key v => simp [Operation.takesValue] at ho
  | valueOr key default => simp [Operation.takesValue] at ho
  | put key v => simp [Operation.takesValue] at ho
  | value key => exact h
  | values => exact h
  | rename names =>
    simp only [Operation.perform]
    split
    next => exact h
    next s hs =>
      obtain ⟨ns, _, rfl⟩ := Results.map_eq_ok.mp hs
      exact ⟨h.plain, h.owned, h.published⟩
  | setPublishing publishing => exact ⟨h.plain, h.owned, h.published⟩

/-- A tidy registry that is unloaded has nothing left but what it was told. -/
theorem Tidy.unload_eq (h : r.Tidy) : r.unload =
    { fresh r.roots r.names r.publishing r.reader.keeps ∅ (.plain ∅) with reader := r.reader } := by
  have hcache : r.cache.eraseAll r.owned = ∅ := Table.eraseAll_of_subset h.owned
  have hambient : r.ambient.eraseAll r.published = .plain ∅ := by
    rw [Ambient.eraseAll, Table.eraseAll_of_subset h.published, Ambient.plain, ← h.plain]
  rw [Registry.unload, hcache, hambient]
  rfl

/-- A registry with a reader that keeps no lines. -/
def lineless (r : Registry) : Registry := { r with reader := .fresh false }

theorem lineless_publish (r : Registry) (key : Text) (v : Value) :
    r.lineless.publish key v = (r.publish key v).map lineless := by
  unfold publish lineless
  simp only
  split
  next =>
    cases v.splice with
    | error fault => rfl
    | ok t =>
      simp only [bind, Except.bind]
      cases r.ambient.publish key t with
      | error fault => rfl
      | ok ambient => rfl
  next => rfl

theorem lineless_publishAll (r : Registry) (es : List (Text × Value)) :
    r.lineless.publishAll es = ((r.publishAll es).1, (r.publishAll es).2.lineless) := by
  induction es generalizing r with
  | nil => rfl
  | cons e es ih =>
    unfold publishAll
    rw [lineless_publish]
    cases r.publish e.1 e.2 with
    | error fault => rfl
    | ok s => exact ih s

theorem lineless_commit (r : Registry) (values : Table Text Value) :
    r.lineless.commit values = ((r.commit values).1, (r.commit values).2.lineless) :=
  lineless_publishAll { r with
    cache := r.cache.insertAll values
    owned := values.keys.foldl (fun ks k => ks.insert k) r.owned } values.entries

theorem lineless_linesAt (h : r.reader.Faithful files) (p : Path) (useKept : Bool) :
    r.lineless.linesAt files p false =
        ((r.linesAt files p useKept).1, (r.linesAt files p useKept).2.lineless) ∧
      (r.linesAt files p useKept).2.reader.Faithful files := by
  obtain ⟨hlines, hfaithful⟩ := h.read p useKept
  refine ⟨?_, hfaithful⟩
  unfold linesAt lineless
  simp only
  rw [hlines, Reader.read_of_not_keeps rfl]

theorem reader_commit (r : Registry) (values : Table Text Value) :
    (r.commit values).2.reader = r.reader := by
  obtain ⟨_, _, _, h⟩ := r.exists_of_commit values
  rw [h]

/-- The mode without kept lines. -/
def LoadMode.anew (m : LoadMode) : LoadMode := { m with useKept := false }

/-- A faithful reader loads a file as one that keeps nothing. -/
theorem lineless_loadFile (h : r.reader.Faithful files) (m : LoadMode) (p : Path) :
    r.lineless.loadFile files m.anew p =
        ((r.loadFile files m p).1, (r.loadFile files m p).2.1.lineless, (r.loadFile files m p).2.2) ∧
      (r.loadFile files m p).2.1.reader.Faithful files := by
  obtain ⟨hlines, hfaithful⟩ := lineless_linesAt h p m.useKept
  have hanew : m.anew.useKept = false := rfl
  unfold loadFile
  rw [hanew, hlines]
  rcases hl : r.linesAt files p m.useKept with ⟨fault | lines, t⟩
  · rw [hl] at hfaithful
    have htolerant : m.anew.tolerant = m.tolerant := rfl
    simp only [htolerant]
    split
    next => exact ⟨rfl, hfaithful⟩
    next => exact ⟨rfl, hfaithful⟩
  · rw [hl] at hfaithful
    have hentries : t.lineless.entriesIn m.anew p.toText lines = t.entriesIn m p.toText lines := rfl
    simp only [hentries]
    rcases t.entriesIn m p.toText lines with ⟨fault | values, notices⟩
    · exact ⟨rfl, hfaithful⟩
    · have hreader := reader_commit t values
      simp only [lineless_commit]
      rcases hc : t.commit values with ⟨fault | _, s⟩
      · rw [hc] at hreader
        exact ⟨rfl, hreader ▸ hfaithful⟩
      · rw [hc] at hreader
        exact ⟨rfl, hreader ▸ hfaithful⟩

theorem lineless_loadEach (h : r.reader.Faithful files) (m : LoadMode) (ps : List Path) :
    r.lineless.loadEach files m.anew ps =
        ((r.loadEach files m ps).1, (r.loadEach files m ps).2.1.lineless,
          (r.loadEach files m ps).2.2) := by
  induction ps generalizing r with
  | nil => rfl
  | cons p ps ih =>
    unfold loadEach
    split
    next => rfl
    next => exact ih h
    next =>
      obtain ⟨hfile, hfaithful⟩ := lineless_loadFile h m p
      rw [hfile]
      rcases hl : r.loadFile files m p with ⟨fault | _, s, notices⟩
      · rfl
      · rw [hl] at hfaithful
        simp only [ih hfaithful]

theorem lineless_loadFiles (h : r.reader.Faithful files) (m : LoadMode) :
    r.lineless.loadFiles files m.anew =
        ((r.loadFiles files m).1, (r.loadFiles files m).2.1.lineless, (r.loadFiles files m).2.2) := by
  have hpaths : r.lineless.paths = r.paths := rfl
  have htolerant : m.anew.tolerant = m.tolerant := rfl
  unfold loadFiles
  rw [hpaths, htolerant, lineless_loadEach h]
  split
  next => split <;> rfl
  next => rfl

theorem lineless_load (h : r.reader.Faithful files) (hl : r.loaded = false) (keys : List Text)
    (force tolerant : Bool) :
    r.lineless.load files keys true tolerant =
        ((r.load files keys force tolerant).1, (r.load files keys force tolerant).2.1.lineless,
          (r.load files keys force tolerant).2.2) := by
  -- the registry as the load finds it: forced, it has forgotten its lines
  have hstart : ∃ s : Registry, s.reader.Faithful files ∧ s.lineless = r.lineless ∧
      s = if force then r.forgetLines else r := by
    cases force with
    | true => exact ⟨r.forgetLines, Reader.faithful_of_empty rfl files, rfl, rfl⟩
    | false => exact ⟨r, h, rfl, rfl⟩
  obtain ⟨s, hs, hsame, he⟩ := hstart
  let m : LoadMode := ⟨if keys.isEmpty then .all else .among keys, tolerant, !force⟩
  have hloads : r.lineless.forgetLines.loadFiles files m.anew = _ :=
    hsame ▸ lineless_loadFiles hs m
  have hruns : (r.loaded && !force) = false := by rw [hl, Bool.false_and]
  rw [load_of_runs (Bool.and_false r.lineless.loaded) files, load_of_runs hruns files, ← he,
    if_pos rfl]
  rw [show (⟨_, tolerant, !true⟩ : LoadMode) = m.anew from rfl, hloads]
  rcases s.loadFiles files m with ⟨_ | _, t, notices⟩
  · rfl
  · rfl

/-- A tidy registry is reloaded as one is loaded that is made anew. -/
theorem Tidy.reload_eq (h : r.Tidy) (keepsLines : Bool) (files : FileTree) :
    let start := fresh r.roots r.names r.publishing keepsLines ∅ (.plain ∅)
    (r.reload files).1 = (start.load files [] false false).1 ∧
      (r.reload files).2.1.lineless = (start.load files [] false false).2.1.lineless := by
  intro start
  have hempty : r.unload.forgetLines.reader.Faithful files := Reader.faithful_of_empty rfl files
  have hstart : start.reader.Faithful files := Reader.faithful_of_empty rfl files
  have hsame : r.unload.forgetLines.lineless = start.lineless := by
    rw [h.unload_eq]
    rfl
  have hreload := lineless_load hempty rfl [] true false
  have hload := lineless_load hstart rfl [] false false
  rw [hsame, hload, load_forgetLines] at hreload
  obtain ⟨hanswer, hrest⟩ := Prod.mk.inj hreload
  obtain ⟨hstate, _⟩ := Prod.mk.inj hrest
  exact ⟨hanswer.symm, hstate.symm⟩

end Registry

namespace Scene

theorem tidy_after {s : Scene} {happening : Happening} (h : s.registry.Tidy)
    (ho : ∀ o, happening = .operation o → o.takesValue = false) :
    (s.after happening).registry.Tidy := by
  cases happening with
  | operation o => exact h.perform (ho o rfl) s.files s.writesAllowed
  | outside files writesAllowed => exact h

theorem tidy_run {s : Scene} {happenings : List Happening} (h : s.registry.Tidy)
    (ho : ∀ o, .operation o ∈ happenings → o.takesValue = false) :
    (s.run happenings).registry.Tidy := by
  induction happenings generalizing s with
  | nil => exact h
  | cons happening happenings ih =>
    have hafter : (s.after happening).registry.Tidy :=
      tidy_after h fun o he => ho o (he ▸ List.mem_cons_self)
    exact ih hafter fun o hmem => ho o (List.mem_cons_of_mem _ hmem)

/-- Whatever has happened to a registry that took its values from files only, a reload answers as
the load of one that is made anew with the same file names, and leaves the same values in the same
order. -/
theorem reload_eq_load_fresh {roots given names : List Text} {publishing keepsLines : Bool}
    {files : FileTree} {writesAllowed : Bool} {happenings : List Happening} (keepsAnew : Bool)
    (hnames : fileNames given = .ok names)
    (h : ∀ o, .operation o ∈ happenings → o.takesValue = false) :
    let s := run ⟨.fresh roots names publishing keepsLines ∅ (.plain ∅), files, writesAllowed⟩
      happenings
    let reloaded := s.registry.reload s.files
    let loaded := (Registry.fresh roots s.registry.names s.registry.publishing keepsAnew ∅
      (.plain ∅)).load s.files [] false false
    fileNames s.registry.names = .ok s.registry.names ∧
      reloaded.1 = loaded.1 ∧ reloaded.2.1.cache = loaded.2.1.cache ∧
      reloaded.2.1.ambient = loaded.2.1.ambient ∧ reloaded.2.1.loaded = loaded.2.1.loaded := by
  intro s reloaded loaded
  have hagain : fileNames s.registry.names = .ok s.registry.names :=
    fileNames_run (fileNames_of_fileNames hnames) happenings
  have htidy : s.registry.Tidy :=
    tidy_run (Registry.tidy_fresh roots names publishing keepsLines) h
  have hroots : s.registry.roots = roots := roots_run _ happenings
  obtain ⟨hanswer, hstate⟩ := htidy.reload_eq keepsAnew s.files
  rw [hroots] at hanswer hstate
  have hcache := congrArg Registry.cache hstate
  have hambient := congrArg Registry.ambient hstate
  have hloaded := congrArg Registry.loaded hstate
  exact ⟨hagain, hanswer, hcache, hambient, hloaded⟩

/-- Kept lines are out of date, a load has broken off in the second file, one key has been cleared
and the files have another order. -/
theorem reload_eq_load_fresh_edited :
    let happenings := [.operation (.load [] false false), .operation (.setPublishing true),
      .outside (FileTree.pair "A=2\nB=${A}\n".toList "C\n".toList) true,
      .operation (.loadSome (.among ["A".toList]) false), .operation (.load [] true false),
      .operation (.clear "B".toList), .operation (.rename [".env.local".toList, baseName]),
      .outside (FileTree.pair "A=3\nB=${A}\n".toList "C=${B}\n".toList) true]
    let files := FileTree.pair "A=1\n".toList "C=1\n".toList
    let names := [baseName, ".env.local".toList]
    fileNames names = .ok names ∧ (∀ o, .operation o ∈ happenings → o.takesValue = false) ∧
    let s := run ⟨.fresh ["/".toList] names false true ∅ (.plain ∅), files, true⟩ happenings
    let reloaded := s.registry.reload s.files
    let loaded := (Registry.fresh ["/".toList] s.registry.names s.registry.publishing true ∅
      (.plain ∅)).load s.files [] false false
    s.registry.cache.entries = [("A".toList, .int 2), ("C".toList, .int 1)] ∧
    reloaded.1 = .ok () ∧ reloaded.2.1.ambient.table.entries =
      [("A".toList, .text "3".toList), ("B".toList, .text "3".toList),
        ("C".toList, .text "3".toList)] ∧
    fileNames s.registry.names = .ok s.registry.names ∧ reloaded.1 = loaded.1 ∧ reloaded.2.1.cache = loaded.2.1.cache ∧
      reloaded.2.1.ambient = loaded.2.1.ambient ∧ reloaded.2.1.loaded = loaded.2.1.loaded := by
  intro happenings files names
  have h : ∀ o, .operation o ∈ happenings → o.takesValue = false := by
    intro o ho
    simp only [happenings, List.mem_cons, Happening.operation.injEq, reduceCtorEq, or_false,
      false_or, List.not_mem_nil] at ho
    rcases ho with rfl | rfl | rfl | rfl | rfl | rfl
    all_goals rfl
  have hnames : fileNames names = .ok names := by decide
  exact ⟨hnames, h, by decide +kernel, by decide +kernel, by decide +kernel,
    reload_eq_load_fresh true hnames h⟩

end Scene

end EnvFile
