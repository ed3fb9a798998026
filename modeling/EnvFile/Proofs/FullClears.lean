import EnvFile.Proofs.KeptLines
import EnvFile.Proofs.OwnKeys

namespace EnvFile

namespace Registry

namespace Holdings

/-- Every key of the ambient table is remembered as published. -/
def Remembered (h : Holdings) : Prop := ∀ k ∈ h.ambient.table.keys, k ∈ h.published

variable {h : Holdings}

theorem mem_keys_publish {shown : List (Text × Text)} {k : Text} :
    k ∈ (h.publish shown).ambient.table.keys ↔
      k ∈ h.ambient.table.keys ∨ k ∈ shown.map Prod.fst := by
  have hfold (t : Table Text Value) :
      k ∈ (shown.foldl (fun t e => t.insert e.1 (.text e.2)) t).keys ↔
        k ∈ t.keys ∨ k ∈ shown.map Prod.fst := by
    induction shown generalizing t with
    | nil => simp
    | cons e shown ih =>
      rw [List.foldl_cons, ih, Table.mem_keys_insert, List.map_cons, List.mem_cons, or_assoc]
  exact hfold h.ambient.table

theorem Remembered.publish (hr : h.Remembered) (shown : List (Text × Text)) :
    (h.publish shown).Remembered := by
  intro k hk
  rw [mem_published_publish]
  exact (mem_keys_publish.mp hk).imp_left (hr k)

theorem remembered_of_eraseAll {cache : Table Text Value} {owned published : List Text}
    (hr : h.Remembered) :
    Remembered ⟨cache, h.ambient.eraseAll h.published, owned, published⟩ := by
  intro k hk
  obtain ⟨hmem, hnot⟩ := mem_keys_eraseAll hk
  exact absurd (hr k hmem) hnot

/-- No deed leaves a key in the ambient table that has been forgotten. -/
theorem Remembered.after (hr : h.Remembered) (d : Deed) : (h.after d).Remembered := by
  cases d with
  | take values shown => exact Remembered.publish hr shown
  | hold key v shown => exact Remembered.publish hr shown
  | clear key =>
    intro k hk
    have hold : k ∈ h.ambient.table.keys ∧ k ≠ key := by
      unfold Holdings.after at hk
      simp only at hk
      split at hk
      next => exact mem_keys_erase hk
      next hnot => exact ⟨hk, fun he => hnot (he ▸ hr k hk)⟩
    exact List.mem_filter.mpr ⟨hr k hold.1, by simpa using hold.2⟩
  | unload => exact remembered_of_eraseAll hr
  | clearAll => exact remembered_of_eraseAll hr

theorem Remembered.foldl (hr : h.Remembered) (ds : List Deed) :
    (ds.foldl .after h).Remembered := by
  induction ds generalizing h with
  | nil => exact hr
  | cons d ds ih => exact ih (hr.after d)

theorem guarded_after (h : Holdings) (d : Deed) :
    (h.after d).ambient.guarded = h.ambient.guarded := by
  cases d with
  | clear key =>
    unfold Holdings.after
    simp only
    split
    next => rfl
    next => rfl
  | take | hold | unload | clearAll => rfl

theorem guarded_foldl (h : Holdings) (ds : List Deed) :
    (ds.foldl .after h).ambient.guarded = h.ambient.guarded := by
  induction ds generalizing h with
  | nil => rfl
  | cons d ds ih => exact (ih (h.after d)).trans (h.guarded_after d)

theorem remembered_empty {cache : Table Text Value} {guarded : Bool} {owned published : List Text} :
    Remembered ⟨cache, ⟨∅, guarded⟩, owned, published⟩ :=
  fun _ hk => absurd hk List.not_mem_nil

end Holdings

variable {r : Registry}

theorem rests_keeps (keepsLines : Bool) (files : FileTree) :
    RestsOnSources (fun r => r.reader.keeps = keepsLines) files where
  same h _ _ hreader := hreader ▸ h
  rename h hs := by
    obtain ⟨_, _, rfl⟩ := Results.map_eq_ok.mp hs
    exact h
  linesAt p useKept h := (Reader.keeps_read _ _ _ _).trans h
  forgetLines h := h

/-- Where the ambient table has nothing that is not remembered, clearing leaves only what the
registry was told. -/
theorem clearAll_of_remembered (hplain : r.ambient.guarded = false) (hr : r.holdings.Remembered) :
    r.clearAll = fresh r.roots r.names r.publishing r.reader.keeps ∅ (.plain ∅) := by
  have hambient : r.ambient.eraseAll r.published = .plain ∅ := by
    have htable : r.ambient.table.eraseAll r.published = ∅ := Table.eraseAll_of_subset hr
    rw [Ambient.eraseAll, htable, hplain, Ambient.plain]
  rw [clearAll, hambient]
  rfl

end Registry

def Happening.answer (happening : Happening) (s : Scene) : Except Fault Value × List Notice :=
  match happening with
  | .operation o =>
    let (answer, _, _, notices) := o.perform s.registry s.files s.writesAllowed
    (answer, notices)
  | .outside _ _ => (.ok .null, [])

namespace Scene

/-- What a registry answers while things happen, with the notices that it gives. -/
def answers (s : Scene) : List Happening → List (Except Fault Value × List Notice)
  | [] => []
  | happening :: happenings => happening.answer s :: (s.after happening).answers happenings

theorem remembered_run {s : Scene} (h : s.registry.holdings.Remembered)
    (happenings : List Happening) : (s.run happenings).registry.holdings.Remembered := by
  rw [holdings_run]
  exact h.foldl (s.deeds happenings)

theorem guarded_run (s : Scene) (happenings : List Happening) :
    (s.run happenings).registry.ambient.guarded = s.registry.ambient.guarded := by
  have hholdings := congrArg (·.ambient.guarded) (s.holdings_run happenings)
  exact hholdings.trans (Registry.Holdings.guarded_foldl _ _)

theorem keeps_run (s : Scene) (happenings : List Happening) :
    (s.run happenings).registry.reader.keeps = s.registry.reader.keeps :=
  rests_run (Registry.rests_keeps s.registry.reader.keeps) rfl happenings

/-- Whatever has happened to a registry with tables of its own, a full clear leaves nothing behind,
so that it goes on as one that is made anew with the same file names. -/
theorem clearAll_eq_fresh {roots given names : List Text} {publishing keepsLines : Bool}
    {files : FileTree} {writesAllowed : Bool} (happenings : List Happening)
    (hnames : fileNames given = .ok names) :
    let s := run ⟨.fresh roots names publishing keepsLines ∅ (.plain ∅), files, writesAllowed⟩
      happenings
    let cleared := s.after (.operation .clearAll)
    let anew : Scene := ⟨.fresh roots s.registry.names s.registry.publishing keepsLines ∅ (.plain ∅),
      s.files, s.writesAllowed⟩
    fileNames s.registry.names = .ok s.registry.names ∧
      cleared.registry.cache = ∅ ∧ cleared.registry.ambient.table = ∅ ∧
      cleared.registry.owned = [] ∧ cleared.registry.published = [] ∧
      cleared.registry.reader.kept = ∅ ∧ cleared.registry.loaded = false ∧
      ∀ further, cleared.answers further = anew.answers further ∧
        cleared.run further = anew.run further := by
  intro s cleared anew
  have hagain : fileNames s.registry.names = .ok s.registry.names :=
    fileNames_run (fileNames_of_fileNames hnames) happenings
  have hplain : s.registry.ambient.guarded = false := guarded_run _ happenings
  have hremembered : s.registry.holdings.Remembered :=
    remembered_run Registry.Holdings.remembered_empty happenings
  have hroots : s.registry.roots = roots := roots_run _ happenings
  have hkeeps : s.registry.reader.keeps = keepsLines := keeps_run _ happenings
  have hclear := Registry.clearAll_of_remembered hplain hremembered
  rw [hroots, hkeeps] at hclear
  have hsame : cleared = anew := congrArg (fun registry => { s with registry }) hclear
  rw [hsame]
  exact ⟨hagain, rfl, rfl, rfl, rfl, rfl, rfl, fun _ => ⟨rfl, rfl⟩⟩

/-- A load has broken off in the second file, values have been given by callers, and the registry has
stopped publishing and been unloaded. -/
theorem clearAll_eq_fresh_edited :
    let names := [baseName, ".env.local".toList]
    let files := FileTree.pair "A=1\n".toList "B=2\nC\n".toList
    let happenings := [.operation (.load [] false false),
      .operation (.assign "D".toList (.int 4)), .operation (.put "E".toList .null),
      .operation .unload, .operation (.loadSome (.among ["A".toList]) false),
      .operation (.setPublishing false), .operation (.rename [".env.local".toList])]
    fileNames names = .ok names ∧
    let s := run ⟨.fresh ["/".toList] names true true ∅ (.plain ∅), files, true⟩ happenings
    let cleared := s.after (.operation .clearAll)
    let anew : Scene := ⟨.fresh ["/".toList] s.registry.names s.registry.publishing true ∅
      (.plain ∅), s.files, s.writesAllowed⟩
    s.registry.cache.entries =
      [("D".toList, .int 4), ("E".toList, .null), ("A".toList, .int 1)] ∧
    s.registry.ambient.table.entries = [("A".toList, .text "1".toList)] ∧
    s.registry.names = [".env.local".toList] ∧
    fileNames s.registry.names = .ok s.registry.names ∧
      cleared.registry.cache = ∅ ∧ cleared.registry.ambient.table = ∅ ∧
      cleared.registry.owned = [] ∧ cleared.registry.published = [] ∧
      cleared.registry.reader.kept = ∅ ∧ cleared.registry.loaded = false ∧
      ∀ further, cleared.answers further = anew.answers further ∧
        cleared.run further = anew.run further := by
  intro names files happenings
  have hnames : fileNames names = .ok names := by decide
  exact ⟨hnames, by decide +kernel, by decide +kernel, by decide +kernel,
    clearAll_eq_fresh happenings hnames⟩

end Scene

end EnvFile
