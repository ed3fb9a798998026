import EnvFile.Proofs.AssignedKeys
import EnvFile.Proofs.ForcedReloads
import EnvFile.Proofs.KeptLines
import EnvFile.Proofs.ReferredNames

namespace EnvFile

namespace Registry

variable {r t b : Registry} {files : FileTree} {p : Path} {m : LoadMode} {notices : List Notice}
  {root : Text} {publishing keepsLines : Bool}

theorem loadFile_of_loadFiles (hpaths : r.paths = [p]) (hthere : files.isPresent p = .ok true)
    (h : r.loadFiles files m = (.ok (), t, notices)) :
    ∃ told, r.loadFile files m p = (.ok (), t, told) := by
  have hsome : files.isAbsent p = false := by simp [FileTree.isAbsent, hthere]
  unfold loadFiles at h
  simp only [hpaths, List.all_cons, hsome, Bool.false_and, Bool.false_eq_true, ↓reduceIte] at h
  unfold loadEach at h
  rw [hthere] at h
  simp only at h
  rcases hfile : r.loadFile files m p with ⟨fault | _, s, told⟩
  · rw [hfile] at h
    simp at h
  · rw [hfile] at h
    simp only [loadEach, Prod.mk.injEq] at h
    exact ⟨told, by rw [h.2.1]⟩

theorem cache_of_loadFile (hm : m.tolerant = false)
    (h : r.loadFile files m p = (.ok (), t, notices)) :
    ∃ lines next values, r.reader.read files p m.useKept = (.ok lines, next) ∧
      (Listing.entries r.cache r.ambient.table ⟨m.filter, false, p.toText⟩ lines).1 = .ok values ∧
      t.cache = r.cache.insertAll values := by
  unfold loadFile linesAt at h
  rcases hread : r.reader.read files p m.useKept with ⟨fault | lines, next⟩
  · simp only [hread, hm, Bool.false_eq_true, ↓reduceIte] at h
    simp at h
  · simp only [hread] at h
    rcases hentries : entriesIn { r with reader := next } m p.toText lines with
      ⟨fault | values, seen⟩
    · simp only [hentries] at h
      simp at h
    · simp only [hentries] at h
      refine ⟨lines, next, values, rfl, ?_, ?_⟩
      · unfold entriesIn at hentries
        rw [hm] at hentries
        exact congrArg Prod.fst hentries
      · obtain ⟨_, _, _, hcommit⟩ := exists_of_commit { r with reader := next } values
        have hstate : t = (commit { r with reader := next } values).2 := by
          rcases hc : commit { r with reader := next } values with ⟨fault | _, u⟩
          · simp only [hc] at h
            simp at h
          · simp only [hc, Prod.mk.injEq] at h
            exact h.2.1.symm
        rw [hstate, hcommit]

/-- A registry of one file that is there takes over what it reads in that file. -/
theorem cache_of_loadFiles (hpaths : r.paths = [p]) (hthere : files.isPresent p = .ok true)
    (hm : m.tolerant = false) (h : r.loadFiles files m = (.ok (), t, notices)) :
    ∃ lines next values, r.reader.read files p m.useKept = (.ok lines, next) ∧
      (Listing.entries r.cache r.ambient.table ⟨m.filter, false, p.toText⟩ lines).1 = .ok values ∧
      t.cache = r.cache.insertAll values := by
  obtain ⟨told, hfile⟩ := loadFile_of_loadFiles hpaths hthere h
  exact cache_of_loadFile hm hfile

theorem value?_of_cache {key : Text} {v : Value} (h : r.cache.get? key = some v) :
    r.value? key = .ok (some v) := by
  unfold value?
  rw [h]

/-- A blank registry that has loaded its file has in its cache just what the file declares. -/
theorem exists_entries_of_load_blank
    (h : (blank root publishing keepsLines).load files [] false false = (.ok (), b, notices)) :
    ∃ content lines values, files.content? (envPath root) = some content ∧
      Reader.current content = .ok lines ∧
      files.declaredAt (envPath root) = Listing.declared lines ∧
      (Listing.entries ∅ ∅ ⟨.all, false, (envPath root).toText⟩ lines).1 = .ok values ∧
      b.cache.get? = values.get? := by
  obtain ⟨content, lines, values, hc, hr, hl, hentries⟩ := exists_of_load_blank h
  have hloads : ∃ c told,
      (blank root publishing keepsLines).load files [] false false = (.ok (), c, told) ∧
        ∀ key, c.cache.get? key = values.get? key :=
    load_blank_of_entries hc hr hl hentries (Listing.splice_of_entries hentries)
  obtain ⟨c, told, hload, hcache⟩ := hloads
  rw [h] at hload
  obtain ⟨rfl, _⟩ := Prod.mk.inj (Prod.mk.inj hload).2
  have hlines : files.linesOf (envPath root) = .ok lines :=
    FileTree.linesOf_eq_ok_iff.mpr ⟨content, hc, hr, hl⟩
  exact ⟨content, lines, values, hc, hl, declaredAt_of_linesOf hlines, hentries, funext hcache⟩

/-- All values of a blank registry that has loaded its file are in its cache. -/
theorem cache_of_load_blank {key : Text} {v : Value}
    (h : (blank root publishing keepsLines).load files [] false false = (.ok (), b, notices))
    (hv : b.value? key = .ok (some v)) : b.cache.get? key = some v := by
  have hsound := sound_fresh [root] [baseName] publishing keepsLines files
  rw [load_of_not_loaded rfl] at h
  rcases hsound.loadFiles_cases true with ⟨_, s, told, _, _, hload, hs, _⟩ | ⟨_, _, _, hload, _⟩
  · have hload' : (blank root publishing keepsLines).loadFiles files ⟨.all, false, true⟩ =
        (.ok (), s, told) := hload
    rw [hload'] at h
    cases h
    unfold value? at hv
    cases hc : s.cache.get? key with
    | some u =>
      simp only [hc, Except.ok.injEq, Option.some.injEq] at hv
      rw [← hv]
    | none =>
      have hnone : s.ambient.table.get? key = none := by
        refine Table.get?_eq_none_iff.mpr fun hmem => ?_
        exact absurd (hs.covered key hmem) (Table.get?_eq_none_iff.mp hc)
      simp [hc, hnone] at hv
  · have hload' : (blank root publishing keepsLines).loadFiles files ⟨.all, false, true⟩ = _ := hload
    rw [hload'] at h
    simp at h

end Registry

/-- How a registry may next take a key from its files: by a load of all keys after unloading, or of
this one or those that contain it, whatever has been loaded. -/
inductive NextLoad
  | all
  | among
  | containing
deriving DecidableEq, Repr

namespace NextLoad

def filter (key : Text) : NextLoad → KeyFilter
  | all => .all
  | among => .among [key]
  | containing => .containing [key]

/-- The registry as the load finds it. -/
def start (r : Registry) : NextLoad → Registry
  | all => r.unload
  | _ => r

def perform (key : Text) (r : Registry) (files : FileTree) :
    NextLoad → Except Fault Unit × Registry × List Notice
  | all => r.unload.load files [] false false
  | among => r.loadSome files (.among [key]) false
  | containing => r.loadSome files (.containing [key]) false

variable {key : Text} {r t : Registry} {files : FileTree} {notices : List Notice} {call : NextLoad}

theorem admits_filter (call : NextLoad) (key : Text) : (call.filter key).admits key := by
  cases call with
  | all => rfl
  | among => simp [filter, KeyFilter.admits]
  | containing =>
    have hself : Text.holds key key := by
      cases key with
      | nil => rfl
      | cons c t => simp [Text.holds]
    simpa [filter, KeyFilter.admits] using hself

theorem loadSome_eq (r : Registry) (files : FileTree) (filter : KeyFilter) :
    r.loadSome files filter false = r.loadFiles files ⟨filter, false, true⟩ := rfl

theorem loadFiles_of_perform (h : call.perform key r files = (.ok (), t, notices)) :
    ∃ s told, (call.start r).loadFiles files ⟨call.filter key, false, true⟩ = (.ok (), s, told) ∧
      s.cache = t.cache := by
  cases call with
  | all =>
    rw [perform, Registry.load_of_not_loaded rfl] at h
    rcases hload : r.unload.loadFiles files ⟨.all, false, true⟩ with ⟨fault | _, s, told⟩
    · rw [hload] at h
      simp at h
    · rw [hload] at h
      cases h
      exact ⟨s, _, hload, rfl⟩
  | among =>
    rw [perform, loadSome_eq] at h
    exact ⟨t, notices, h, rfl⟩
  | containing =>
    rw [perform, loadSome_eq] at h
    exact ⟨t, notices, h, rfl⟩

end NextLoad

namespace Scene

open NextLoad

/-- A value that has been assigned and saved is not lost with the next load. What the file gives to
the key in a registry that knows nothing else, it gives to it here as well, if the file has been left
alone and the key is not disturbed, and if no lines are kept that are older than the assignment. -/
theorem value_of_next_load {root key : Text} {v w : Value} {publishing keepsLines : Bool}
    {r s b t : Registry} {files after : FileTree} {later : List Happening} {last : Scene}
    {call : NextLoad} {told heard said : List Notice} (hroots : r.roots = [root])
    (hassign : r.assign files true key v = (.ok (), s, after, told))
    (hrun : run ⟨s, after, true⟩ later = last) (hnames : last.registry.names = [baseName])
    (halone : LeavesAlone ⟨s, after, true⟩ (last.files.normalise (Registry.envPath root)) later)
    (hkept : r.reader.keeps = false ∨
      r.reader.kept.get? (last.files.normalise (Registry.envPath root)) = none ∨
      ∃ o, .operation o ∈ later ∧ o.forgetsLines)
    (hfresh : (Registry.blank root publishing keepsLines).load last.files [] false false =
      (.ok (), b, heard))
    (hw : b.value? key = .ok (some w))
    (hfree : Listing.Undisturbed (last.files.declaredAt (Registry.envPath root)) key
      (Listing.elsewhere (call.start last.registry).cache (call.start last.registry).ambient.table)
      (call.filter key).admits b.cache.get?)
    (hload : call.perform key last.registry last.files = (.ok (), t, said)) :
    t.value? key = .ok (some w) := by
  obtain ⟨content, lines, values, hc, hl, hdeclared, hentries, hcache⟩ :=
    Registry.exists_entries_of_load_blank hfresh
  have hvalue : values.get? key = some w := by
    rw [← hcache]
    exact Registry.cache_of_load_blank hfresh hw
  -- the file that is read at last was the same all the time
  have hlast := FileTree.node?_normalise hc
  have hfirst : after.node? (last.files.normalise (Registry.envPath root)) = some (.file content) := by
    have hsame := halone.run
    rw [hrun] at hsame
    exact hsame.symm.trans hlast
  have hassigned : s.roots = r.roots ∧ s.reader = r.reader := by
    obtain ⟨_, _, _, hs⟩ := r.exists_of_assign files true key v
    rw [hassign] at hs
    have hroots' := congrArg Registry.roots hs
    have hreader := congrArg Registry.reader hs
    exact ⟨hroots', hreader⟩
  have hfaithful : last.registry.reader.FaithfulAt
      (last.files.normalise (Registry.envPath root)) content := by
    rw [← hrun] at halone hfirst hkept ⊢
    rcases hkept with hkeeps | hnone | ⟨o, ho, hforgets⟩
    · refine faithfulAt_run halone hfirst fun hk => ?_
      rw [hassigned.2, hkeeps] at hk
      simp at hk
    · refine faithfulAt_run halone hfirst fun _ kept hk => ?_
      rw [hassigned.2, hnone] at hk
      simp at hk
    · exact faithfulAt_run_of_forgetsLines halone hfirst ho hforgets
  have hpaths : (call.start last.registry).paths = [Registry.envPath root] := by
    have hroots' : last.registry.roots = [root] := by
      have hkeep := roots_run ⟨s, after, true⟩ later
      rw [hrun] at hkeep
      exact hkeep.trans (hassigned.1.trans hroots)
    have hstart : (call.start last.registry).paths = last.registry.paths := by
      cases call <;> rfl
    rw [hstart, Registry.paths, hroots', hnames]
    rfl
  have hreader : (call.start last.registry).reader = last.registry.reader := by
    cases call <;> rfl
  obtain ⟨u, seen, hfiles, hu⟩ := loadFiles_of_perform hload
  obtain ⟨read, next, found, hread, hfound, htaken⟩ :=
    Registry.cache_of_loadFiles hpaths (FileTree.isPresent_of_content? hc) rfl hfiles
  rw [hreader] at hread
  have hcurrent := hfaithful.current_of_read hc hread
  rw [hl] at hcurrent
  cases hcurrent
  rw [hdeclared, hcache] at hfree
  have hget := Listing.get?_of_undisturbed hentries hfound (admits_filter call key) hvalue hfree
  apply Registry.value?_of_cache
  rw [← hu, htaken, Table.get?_insertAll, hget, Option.some_or]

/-- The lines kept of the file are older than the assignment, but a forced load comes before the next
one; the name that the new value refers to has its value in the cache by then. -/
theorem value_of_next_load_reference :
    let files := FileTree.holding "A=0\nB=1\n".toList
    let r := (Registry.rooted.load files [] false false).2.1
    let assigned := r.assign files true "A".toList (.text "${B}x".toList)
    let later := [.operation (.load [] true false), .operation (.setPublishing true)]
    let last := run ⟨assigned.2.1, assigned.2.2.1, true⟩ later
    let place := last.files.normalise (Registry.envPath "/".toList)
    let fresh := Registry.rooted.load last.files [] false false
    let start := NextLoad.among.start last.registry
    let next := NextLoad.among.perform "A".toList last.registry last.files
    r.roots = ["/".toList] ∧ assigned.1 = .ok () ∧ last.registry.names = [baseName] ∧
      LeavesAlone ⟨assigned.2.1, assigned.2.2.1, true⟩ place later ∧
      r.reader.kept.get? place = some ["A=0".toList, "B=1".toList] ∧
      fresh.1 = .ok () ∧ fresh.2.1.value? "A".toList = .ok (some (.text "1x".toList)) ∧
      Listing.Undisturbed (last.files.declaredAt (Registry.envPath "/".toList)) "A".toList
        (Listing.elsewhere start.cache start.ambient.table)
        (NextLoad.among.filter "A".toList).admits fresh.2.1.cache.get? ∧
      next.1 = .ok () ∧ next.2.1.value? "A".toList = .ok (some (.text "1x".toList)) := by
  intro files r assigned later last place fresh start next
  have hroots : r.roots = ["/".toList] := by decide +kernel
  have hassigned : assigned.1 = .ok () := by decide +kernel
  have hnames : last.registry.names = [baseName] := by decide +kernel
  have halone : LeavesAlone ⟨assigned.2.1, assigned.2.2.1, true⟩ place later :=
    leavesAlone_cons.mpr ⟨rfl, leavesAlone_cons.mpr ⟨rfl, leavesAlone_nil⟩⟩
  have hkept : r.reader.kept.get? place = some ["A=0".toList, "B=1".toList] := by decide +kernel
  have hfresh : fresh.1 = .ok () := by decide +kernel
  have hw : fresh.2.1.value? "A".toList = .ok (some (.text "1x".toList)) := by decide +kernel
  have hnext : next.1 = .ok () := by decide +kernel
  have hdeclared : last.files.declaredAt (Registry.envPath "/".toList) =
      [("A".toList, "${B}x".toList), ("B".toList, "1".toList)] := by decide +kernel
  have hknown : Listing.elsewhere start.cache start.ambient.table "B".toList = some (.int 1) := by decide +kernel
  have hfinal : fresh.2.1.cache.get? "B".toList = some (.int 1) := by decide +kernel
  have hassign : r.assign files true "A".toList (.text "${B}x".toList) = assigned := rfl
  have hstart : NextLoad.among.start last.registry = start := rfl
  have hrun : run ⟨assigned.2.1, assigned.2.2.1, true⟩ later = last := rfl
  have hload : Registry.rooted.load last.files [] false false = fresh := rfl
  have hperform : NextLoad.among.perform "A".toList last.registry last.files = next := rfl
  have hplace : last.files.normalise (Registry.envPath "/".toList) = place := rfl
  have hforgets : .operation (.load [] true false) ∈ later := List.mem_cons_self
  -- from here on nothing is computed any more
  clear_value next start fresh place last later assigned r files
  have hfree : Listing.Undisturbed (last.files.declaredAt (Registry.envPath "/".toList)) "A".toList
      (Listing.elsewhere start.cache start.ambient.table)
      (NextLoad.among.filter "A".toList).admits fresh.2.1.cache.get? := by
    rw [hdeclared]
    refine Or.inr fun n hn => ?_
    have hstep : ∀ e ∈ [("A".toList, "${B}x".toList), ("B".toList, "1".toList)],
        ∀ m ∈ Template.names (Template.ofText e.2), m = "B".toList := by decide +kernel
    obtain rfl : n = "B".toList := by
      cases hn with
      | single h =>
        obtain ⟨draft, he, hm⟩ := h
        exact hstep _ he n hm
      | tail _ h =>
        obtain ⟨draft, he, hm⟩ := h
        exact hstep _ he n hm
    refine ⟨by decide, fun v hv => ⟨.int 1, hfinal, ?_⟩⟩
    rw [hknown] at hv
    cases hv
    rfl
  rw [← hplace] at halone
  rw [← hstart] at hfree
  have hvalue := value_of_next_load hroots (hassign.trans (Prod.ext hassigned rfl))
    hrun hnames halone (Or.inr (Or.inr ⟨_, hforgets, rfl⟩)) (hload.trans (Prod.ext hfresh rfl)) hw
    hfree (hperform.trans (Prod.ext hnext rfl))
  exact ⟨hroots, hassigned, hnames, hplace ▸ halone, hkept, hfresh, hw, hstart ▸ hfree, hnext, hvalue⟩

/-- A value in the cache that no file has comes before the line that a reference means, and so does,
in a load of one key, the last of two lines for another one. -/
theorem value_of_next_load_otherwise :
    (let r := { Registry.rooted with cache := Registry.rooted.cache.insert "B".toList (.int 5) }
      let assigned := r.assign (FileTree.holding "A=0\nB=1\n".toList) true "A".toList
        (.text "${B}".toList)
      let fresh := Registry.rooted.load assigned.2.2.1 [] false false
      let next := NextLoad.all.perform "A".toList assigned.2.1 assigned.2.2.1
      Registry.rooted.put "B".toList (.text "5".toList) = .ok r ∧
        assigned.1 = .ok () ∧ fresh.1 = .ok () ∧ next.1 = .ok () ∧
        fresh.2.1.value? "A".toList = .ok (some (.int 1)) ∧
        next.2.1.value? "A".toList = .ok (some (.int 5))) ∧
    let assigned := Registry.rooted.assign (FileTree.holding "B=1\nA=0\nB=2\n".toList) true
      "A".toList (.text "${B}".toList)
    let fresh := Registry.rooted.load assigned.2.2.1 [] false false
    let next := NextLoad.among.perform "A".toList assigned.2.1 assigned.2.2.1
    assigned.1 = .ok () ∧ fresh.1 = .ok () ∧ next.1 = .ok () ∧
      fresh.2.1.value? "A".toList = .ok (some (.int 1)) ∧
      next.2.1.value? "A".toList = .ok (some (.int 2)) := by
  constructor
  · intro r assigned fresh next
    have hput : Registry.rooted.put "B".toList (.text "5".toList) = .ok r := by decide +kernel
    exact ⟨hput, by decide +kernel, by decide +kernel, by decide +kernel, by decide +kernel,
      by decide +kernel⟩
  · intro assigned fresh next
    exact ⟨by decide +kernel, by decide +kernel, by decide +kernel, by decide +kernel,
      by decide +kernel⟩

end Scene

end EnvFile
