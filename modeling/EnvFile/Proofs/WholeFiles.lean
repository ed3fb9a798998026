import EnvFile.Proofs.Entries
import EnvFile.Proofs.FreshLoads
import EnvFile.Proofs.Paths

namespace EnvFile

namespace Registry

/-- What loading changes of a registry besides the lines that its reader keeps: the cache, the
ambient table, the keys that it owns and those that it has published. -/
structure Holdings where
  cache : Table Text Value
  ambient : Ambient
  owned : List Text
  published : List Text
deriving DecidableEq

def holdings (r : Registry) : Holdings := ⟨r.cache, r.ambient, r.owned, r.published⟩

/-- Takes over all that a file declares. One that cannot be read is passed over where faults are. -/
def absorb (files : FileTree) (m : LoadMode) (r : Registry) (p : Path) : Except Fault Registry :=
  match r.entriesAt files m p.toText with
  | (.ok values, r, _) => .ok (r.commit values).2
  | (.error (.access path reason), r, _) =>
    if m.tolerant then .ok r else .error (.access path reason)
  | (.error fault, _, _) => .error fault

/-- The paths of the env files that are there, or of which it cannot be told. -/
def present (r : Registry) (files : FileTree) : List Path := r.paths.filter (!files.isAbsent ·)

/-- A registry after some loading: what was settled before it still is. -/
structure Kept (r s : Registry) : Prop where
  roots : s.roots = r.roots
  names : s.names = r.names
  publishing : s.publishing = r.publishing
  loaded : s.loaded = r.loaded
  guarded : s.ambient.guarded = r.ambient.guarded

theorem Kept.refl (r : Registry) : Kept r r := ⟨rfl, rfl, rfl, rfl, rfl⟩

theorem Kept.trans {r s t : Registry} (h : Kept r s) (h' : Kept s t) : Kept r t :=
  ⟨h'.roots.trans h.roots, h'.names.trans h.names, h'.publishing.trans h.publishing,
    h'.loaded.trans h.loaded, h'.guarded.trans h.guarded⟩

variable {r s t : Registry} {files : FileTree} {m : LoadMode} {p : Path} {fault : Fault}
  {notices : List Notice}

theorem kept_of_publish {key : Text} {v : Value} (h : r.publish key v = .ok s) : Kept r s := by
  rcases publish_cases h with ⟨t, _, _, rfl⟩ | ⟨_, rfl⟩
  · exact ⟨rfl, rfl, rfl, rfl, rfl⟩
  · exact .refl s

theorem kept_publishAll (r : Registry) (es : List (Text × Value)) : Kept r (r.publishAll es).2 := by
  induction es generalizing r with
  | nil => exact .refl r
  | cons e es ih =>
    unfold publishAll
    split
    next => exact .refl r
    next s hs => exact (kept_of_publish hs).trans (ih s)

theorem kept_commit (r : Registry) (values : Table Text Value) : Kept r (r.commit values).2 := by
  obtain ⟨hroots, hnames, hpublishing, hloaded, hguarded⟩ := kept_publishAll
    { r with
      cache := r.cache.insertAll values
      owned := values.keys.foldl (fun ks k => ks.insert k) r.owned } values.entries
  exact ⟨hroots, hnames, hpublishing, hloaded, hguarded⟩

theorem kept_linesAt (r : Registry) (files : FileTree) (p : Path) (useKept : Bool) :
    Kept r (r.linesAt files p useKept).2 :=
  ⟨rfl, rfl, rfl, rfl, rfl⟩

theorem kept_loadFile (r : Registry) (files : FileTree) (m : LoadMode) (p : Path) :
    Kept r (r.loadFile files m p).2.1 := by
  have hread := kept_linesAt r files p m.useKept
  unfold loadFile
  rcases hl : r.linesAt files p m.useKept with ⟨fault | lines, t⟩
  · rw [hl] at hread
    simp only
    split
    next => exact hread
    next => exact hread
  · rw [hl] at hread
    simp only
    rcases t.entriesIn m p.toText lines with ⟨fault | values, notices⟩
    · exact hread
    · have hcommit := hread.trans (kept_commit t values)
      simp only
      split
      next hc => rwa [hc] at hcommit
      next hc => rwa [hc] at hcommit

theorem kept_loadEach (r : Registry) (files : FileTree) (m : LoadMode) (ps : List Path) :
    Kept r (r.loadEach files m ps).2.1 := by
  induction ps generalizing r with
  | nil => exact .refl r
  | cons p ps ih =>
    unfold loadEach
    split
    next => exact .refl r
    next => exact ih r
    next =>
      have hfile := kept_loadFile r files m p
      split
      next hl => rwa [hl] at hfile
      next s _ hl =>
        rw [hl] at hfile
        exact hfile.trans (ih s)

/-- Loading leaves what was settled before as it is, whether it fails or not. -/
theorem kept_loadFiles (r : Registry) (files : FileTree) (m : LoadMode) :
    Kept r (r.loadFiles files m).2.1 := by
  unfold loadFiles
  split
  next =>
    split
    next => exact .refl r
    next => exact .refl r
  next => exact kept_loadEach r files m r.paths

theorem refuses_of_linesAt {useKept : Bool} (h : r.linesAt files p useKept = (.error fault, t)) :
    files.Refuses p fault := by
  obtain ⟨reader, hread, _⟩ := exists_of_linesAt h
  rcases Reader.read_cases hread with ⟨_, he, _⟩ | ⟨_, he, hl, _⟩ | ⟨_, he, _⟩
  · cases he
  · cases he
    exact FileTree.refuses_of_linesOf hl
  · cases he

theorem absorb_of_lines {lines : List Text}
    (h : r.linesAt files (Path.ofText p.toText) m.useKept = (.ok lines, t)) :
    r.absorb files m p = (t.entriesIn m p.toText lines).1.map fun values => (t.commit values).2 := by
  have htextual : Textual (t.entriesIn m p.toText lines).1 := Listing.entries_textual _ _ _ _
  unfold absorb entriesAt
  rw [h]
  simp only
  rcases he : t.entriesIn m p.toText lines with ⟨fault | values, notices⟩
  · rw [he] at htextual
    have hfault := htextual fault rfl
    split
    next he => simp at he
    next he =>
      cases he
      simp [Fault.isOfPlaces] at hfault
    next he =>
      cases he
      rfl
  · rfl

theorem absorb_of_unreadable {path reason : Text}
    (h : r.linesAt files (Path.ofText p.toText) m.useKept = (.error (.access path reason), t)) :
    r.absorb files m p = if m.tolerant then .ok t else .error (.access path reason) := by
  unfold absorb entriesAt
  rw [h]

theorem absorb_of_lookUpFails {q : Path} (hfails : files.LookUpFails q fault)
    (h : r.linesAt files (Path.ofText p.toText) m.useKept = (.error fault, t)) :
    r.absorb files m p = .error fault := by
  unfold absorb entriesAt
  rw [h]
  cases hfails with
  | tooLong => rfl
  | forbidden => rfl

/-- A file is passed over, or its values are taken over. -/
theorem absorb_eq_ok (h : r.absorb files m p = .ok s) :
    (r.linesAt files (Path.ofText p.toText) m.useKept).2 = s ∨
      ∃ lines t values,
        r.linesAt files (Path.ofText p.toText) m.useKept = (.ok lines, t) ∧
        (t.entriesIn m p.toText lines).1 = .ok values ∧ (t.commit values).2 = s := by
  rcases hl : r.linesAt files (Path.ofText p.toText) m.useKept with ⟨fault | lines, t⟩
  · rcases refuses_of_linesAt hl with hfails | ⟨_, reason, rfl⟩
    · rw [absorb_of_lookUpFails hfails hl] at h
      simp at h
    · rw [absorb_of_unreadable hl] at h
      split at h
      next => exact Or.inl (Except.ok.inj h)
      next => simp at h
  · rw [absorb_of_lines hl] at h
    obtain ⟨values, hvalues, hs⟩ := Results.map_eq_ok.mp h
    exact Or.inr ⟨lines, t, values, rfl, hvalues, hs⟩

/-- A file fails at its path, or at its content, or at what it says. -/
theorem absorb_eq_error (h : r.absorb files m p = .error fault) :
    files.LookUpFails (Path.ofText p.toText) fault ∨
    (m.tolerant = false ∧ ∃ path reason, fault = .access path reason) ∨
    ∃ lines t, r.linesAt files (Path.ofText p.toText) m.useKept = (.ok lines, t) ∧
      (t.entriesIn m p.toText lines).1 = .error fault := by
  rcases hl : r.linesAt files (Path.ofText p.toText) m.useKept with ⟨other | lines, t⟩
  · rcases refuses_of_linesAt hl with hfails | ⟨_, reason, rfl⟩
    · rw [absorb_of_lookUpFails hfails hl] at h
      obtain rfl := Except.error.inj h
      exact Or.inl hfails
    · rw [absorb_of_unreadable hl] at h
      split at h
      next => simp at h
      next ht =>
        obtain rfl := Except.error.inj h
        exact Or.inr (Or.inl ⟨by simpa using ht, _, reason, rfl⟩)
  · rw [absorb_of_lines hl] at h
    exact Or.inr (Or.inr ⟨lines, t, rfl, Results.map_eq_error.mp h⟩)

theorem kept_of_absorb (h : r.absorb files m p = .ok s) : Kept r s := by
  rcases absorb_eq_ok h with rfl | ⟨lines, t, values, hl, _, rfl⟩
  · exact kept_linesAt r files _ m.useKept
  · have hread := kept_linesAt r files (Path.ofText p.toText) m.useKept
    rw [hl] at hread
    exact hread.trans (kept_commit t values)

theorem kept_of_foldlM {ps : List Path} (h : ps.foldlM (absorb files m) r = .ok s) : Kept r s :=
  Results.foldlM_preserves (fun hkept ht => hkept.trans (kept_of_absorb ht)) (.refl r) h

/-- A file that is there is loaded as a whole, or it fails and nothing of it stays. -/
theorem loadFile_cases (hg : r.ambient.guarded = false) (hp : p.Regular)
    (hthere : files.isPresent p = .ok true) :
    (∃ s notices, r.absorb files m p = .ok s ∧ r.loadFile files m p = (.ok (), s, notices)) ∨
    ∃ fault s notices, r.absorb files m p = .error fault ∧
      r.loadFile files m p = (.error fault, s, notices) ∧ s.holdings = r.holdings ∧ Kept r s := by
  have hread := kept_linesAt r files p m.useKept
  have hsame : (r.linesAt files p m.useKept).2.holdings = r.holdings := rfl
  have hpath := Path.ofText_toText hp
  unfold loadFile
  rcases hl : r.linesAt files p m.useKept with ⟨fault | lines, t⟩
  · rw [hl] at hread hsame
    rcases refuses_of_linesAt hl with hfails | ⟨_, reason, rfl⟩
    · rw [FileTree.isPresent_eq_error_iff.mpr hfails] at hthere
      cases hthere
    · rw [absorb_of_unreadable (by rw [hpath]; exact hl)]
      by_cases ht : m.tolerant
      · exact Or.inl ⟨t, [.skippedFile _], if_pos ht, if_pos ht⟩
      · exact Or.inr ⟨_, t, [], if_neg ht, if_neg ht, hsame, hread⟩
  · rw [hl] at hread hsame
    rw [absorb_of_lines (by rw [hpath]; exact hl)]
    rcases he : t.entriesIn m p.toText lines with ⟨fault | values, notices⟩
    · exact Or.inr ⟨fault, t, notices, rfl, by simp only [he], hsame, hread⟩
    · have hvalues := Listing.splice_of_entries (congrArg Prod.fst he)
      obtain ⟨s, hcommit, _⟩ := commit_of_splice (hread.guarded.trans hg) hvalues
      refine Or.inl ⟨s, notices ++ [.loaded values.size p.toText], ?_, ?_⟩
      · simp only [Except.map, hcommit]
      · simp only [he, hcommit]

theorem absorb_of_isPresent (hp : p.Regular) (h : files.isPresent p = .error fault) :
    r.absorb files m p = .error fault := by
  rw [← Path.ofText_toText hp] at h
  rcases hl : r.linesAt files (Path.ofText p.toText) m.useKept with ⟨other | lines, t⟩
  · rcases refuses_of_linesAt hl with hfails | ⟨⟨b, hb⟩, _⟩
    · rw [FileTree.isPresent_eq_error_iff.mpr hfails] at h
      cases h
      exact absorb_of_lookUpFails hfails hl
    · rw [h] at hb
      simp at hb
  · obtain ⟨reader, hread, _⟩ := exists_of_linesAt hl
    rw [FileTree.isPresent_of_legible (Reader.legible_of_read hread)] at h
    cases h

/-- Files are loaded as wholes, up to the first one that fails. -/
theorem loadEach_cases (files : FileTree) (m : LoadMode) {ps : List Path}
    (hg : r.ambient.guarded = false) (hps : ∀ p ∈ ps, p.Regular) :
    (∃ s notices, (ps.filter (!files.isAbsent ·)).foldlM (absorb files m) r = .ok s ∧
      r.loadEach files m ps = (.ok (), s, notices)) ∨
    ∃ before p after t fault s notices, ps.filter (!files.isAbsent ·) = before ++ p :: after ∧
      before.foldlM (absorb files m) r = .ok t ∧ t.absorb files m p = .error fault ∧
      r.loadEach files m ps = (.error fault, s, notices) ∧ s.holdings = t.holdings ∧ Kept t s := by
  induction ps generalizing r with
  | nil => exact Or.inl ⟨r, [], rfl, rfl⟩
  | cons p ps ih =>
    obtain ⟨hp, hps⟩ := List.forall_mem_cons.mp hps
    rw [List.filter_cons]
    unfold loadEach
    cases hthere : files.isPresent p with
    | error fault =>
      -- it cannot be told whether the file is there: it counts as present, and fails before it is read
      have hfilter : (!files.isAbsent p) = true := by simp [FileTree.isAbsent, hthere]
      have hfail : r.absorb files m p = .error fault := absorb_of_isPresent hp hthere
      rw [if_pos hfilter]
      exact Or.inr ⟨[], p, _, r, fault, r, [], rfl, rfl, hfail, rfl, rfl, .refl r⟩
    | ok there =>
      cases there with
      | false =>
        have hfilter : ¬(!files.isAbsent p) = true := by simp [FileTree.isAbsent, hthere]
        rw [if_neg hfilter]
        exact ih hg hps
      | true =>
        have hfilter : (!files.isAbsent p) = true := by simp [FileTree.isAbsent, hthere]
        rw [if_pos hfilter]
        rcases loadFile_cases (m := m) hg hp hthere with
          ⟨s, told, habsorb, hload⟩ | ⟨fault, s, told, habsorb, hload, hsame, hkept⟩
        · simp only [hload]
          have hguarded := (kept_of_absorb habsorb).guarded.trans hg
          rcases ih hguarded hps with
            ⟨u, more, hfold, hrest⟩ |
              ⟨before, q, after, t, fault, u, more, hsplit, hfold, hfail, hrest, hu⟩
          · refine Or.inl ⟨u, told ++ more, ?_, by simp only [hrest]⟩
            rw [List.foldlM_cons]
            exact Results.bind_eq_ok.mpr ⟨s, habsorb, hfold⟩
          · refine Or.inr ⟨p :: before, q, after, t, fault, u, told ++ more, ?_, ?_, hfail,
              by simp only [hrest], hu⟩
            · rw [hsplit, List.cons_append]
            · rw [List.foldlM_cons]
              exact Results.bind_eq_ok.mpr ⟨s, habsorb, hfold⟩
        · exact Or.inr ⟨[], p, _, r, fault, s, told, rfl, rfl, habsorb, by simp only [hload], hsame,
            hkept⟩

theorem regular_of_mem_paths (h : p ∈ r.paths) : p.Regular := by
  obtain ⟨root, _, h⟩ := List.mem_flatMap.mp h
  obtain ⟨name, _, rfl⟩ := List.mem_map.mp h
  exact (Path.regular_ofText root).join (Path.regular_ofText name)

theorem ne_noFile_of_absorb (h : r.absorb files m p = .error fault) (roots names : List Text) :
    fault ≠ .noFile roots names := by
  rintro rfl
  rcases absorb_eq_error h with hfails | ⟨_, _, _, hfault⟩ | ⟨lines, t, _, hentries⟩
  · cases hfails
  · simp at hfault
  · -- what lines can fail with is never about places
    have htextual : Textual (t.entriesIn m p.toText lines).1 := Listing.entries_textual _ _ _ _
    have hfault := htextual _ hentries
    simp [Fault.isOfPlaces] at hfault

/-- What is loaded is that no file is there, or the files that are, one by one. -/
theorem loadFiles_cases (r : Registry) (files : FileTree) (m : LoadMode) :
    (r.present files = [] ∧ r.loadFiles files m =
      if m.tolerant then (.ok (), r, [.noFile r.roots]) else (.error (.noFile r.roots r.names), r, [])) ∨
    r.present files ≠ [] ∧ r.loadFiles files m = r.loadEach files m r.paths := by
  have hnone : r.paths.all files.isAbsent ↔ r.present files = [] := by
    simp [present]
  unfold loadFiles
  split
  next h => exact Or.inl ⟨hnone.mp h, rfl⟩
  next h => exact Or.inr ⟨fun he => h (hnone.mpr he), rfl⟩

end Registry

/-- Two files in the root directory. -/
def FileTree.pair (t u : Text) : FileTree :=
  { here := []
    nodes := .ofList [([baseName], .file (Utf8.encode t)),
      ([".env.local".toList], .file (Utf8.encode u))] }

/-- A registry that loads the two and publishes. -/
def Registry.paired : Registry :=
  .fresh ["/".toList] [baseName, ".env.local".toList] true true ∅ (.plain ∅)

/-- A call that loads files. -/
inductive LoadCall
  | load (keys : List Text) (force tolerant : Bool)
  | loadSome (filter : KeyFilter) (reset : Bool)
deriving DecidableEq, Repr

namespace LoadCall

def mode : LoadCall → Registry.LoadMode
  | load keys force tolerant => ⟨if keys.isEmpty then .all else .among keys, tolerant, !force⟩
  | loadSome filter _ => ⟨filter, false, true⟩

/-- The registry as the first file finds it: without kept lines, or without what it held. -/
def prepare (r : Registry) : LoadCall → Registry
  | load _ force _ => if force then r.forgetLines else r
  | loadSome _ reset => if reset then r.unload else r

def perform (r : Registry) (files : FileTree) : LoadCall → Except Fault Unit × Registry × List Notice
  | load keys force tolerant => r.load files keys force tolerant
  | loadSome filter reset => r.loadSome files filter reset

variable {c : LoadCall} {r s : Registry} {files : FileTree} {fault : Fault} {notices : List Notice}

theorem loadFiles_of_perform (h : c.perform r files = (.error fault, s, notices)) :
    ∃ told, (c.prepare r).loadFiles files c.mode = (.error fault, s, told) := by
  cases c with
  | load keys force tolerant =>
    simp only [perform, Registry.load] at h
    split at h
    next => simp at h
    next =>
      split at h
      next => simp at h
      next => exact ⟨notices, h⟩
  | loadSome filter reset =>
    simp only [perform, Registry.loadSome] at h
    cases reset with
    | true =>
      simp only [↓reduceIte, Prod.mk.injEq] at h
      exact ⟨_, Prod.ext h.1 (Prod.ext h.2.1 rfl)⟩
    | false =>
      simp only [Bool.false_eq_true, ↓reduceIte, Prod.mk.injEq] at h
      exact ⟨_, Prod.ext h.1 (Prod.ext h.2.1 rfl)⟩

theorem guarded_prepare (c : LoadCall) (r : Registry) :
    (c.prepare r).ambient.guarded = r.ambient.guarded := by
  cases c with
  | load _ force _ => cases force <;> rfl
  | loadSome _ reset => cases reset <;> rfl

theorem present_prepare (c : LoadCall) (r : Registry) (files : FileTree) :
    (c.prepare r).present files = r.present files := by
  cases c with
  | load _ force _ => cases force <;> rfl
  | loadSome _ reset => cases reset <;> rfl

/-- A call that fails leaves a registry with the files before the one that it failed at, each taken
over as a whole, and with nothing of that file. If no file is there at all it leaves what it began
with. -/
theorem perform_takes_whole_files (hg : r.ambient.guarded = false)
    (h : c.perform r files = (.error fault, s, notices)) :
    s.loaded = (c.prepare r).loaded ∧
    ((∃ roots names, fault = .noFile roots names) →
      (c.prepare r).present files = [] ∧ s.holdings = (c.prepare r).holdings) ∧
    ((∀ roots names, fault ≠ .noFile roots names) → ∃ before p after t,
      (c.prepare r).present files = before ++ p :: after ∧
      before.foldlM (Registry.absorb files c.mode) (c.prepare r) = .ok t ∧
      t.absorb files c.mode p = .error fault ∧ s.holdings = t.holdings) := by
  obtain ⟨told, h⟩ := loadFiles_of_perform h
  have hguarded := (guarded_prepare c r).trans hg
  generalize c.prepare r = start at h hguarded ⊢
  rcases start.loadFiles_cases files c.mode with ⟨hnone, hload⟩ | ⟨_, hload⟩
  · rw [h] at hload
    split at hload
    next => simp at hload
    next =>
      cases hload
      exact ⟨rfl, fun _ => ⟨hnone, rfl⟩, fun hne => absurd rfl (hne _ _)⟩
  · rw [h] at hload
    rcases Registry.loadEach_cases files c.mode hguarded
        (fun _ => Registry.regular_of_mem_paths) with
      ⟨_, _, _, heach⟩ | ⟨before, p, after, t, fault', u, _, hsplit, hfold, hfail, heach, hsame, hkept⟩
    · rw [heach] at hload
      simp at hload
    · rw [heach] at hload
      cases hload
      have hloaded := hkept.loaded.trans (Registry.kept_of_foldlM hfold).loaded
      refine ⟨hloaded, ?_, fun _ => ⟨before, p, after, t, hsplit, hfold, hfail, hsame⟩⟩
      rintro ⟨roots, names, he⟩
      exact absurd he (Registry.ne_noFile_of_absorb hfail roots names)

/-- The second file breaks off at its last line; the first one is kept. -/
theorem perform_takes_whole_files_pair :
    let files := FileTree.pair "A=1\n".toList "B=2\nC\n".toList
    let fault := Fault.malformed ⟨"missing '=' in declaration".toList, some "C".toList, some 2,
      some "/.env.local".toList⟩
    let c := load [] false false
    Registry.paired.ambient.guarded = false ∧
    ∃ s notices, c.perform Registry.paired files = (.error fault, s, notices) ∧
      s.holdings = ⟨.ofList [("A".toList, .int 1)], .plain (.ofList [("A".toList, .text "1".toList)]),
        ["A".toList], ["A".toList]⟩ ∧
      s.loaded = false ∧ ∃ before p after t,
        Registry.paired.present files = before ++ p :: after ∧
        before.foldlM (Registry.absorb files c.mode) Registry.paired = .ok t ∧
        t.absorb files c.mode p = .error fault ∧ s.holdings = t.holdings := by
  intro files fault c
  have hfault : (c.perform Registry.paired files).1 = .error fault := by decide +kernel
  have hperform : c.perform Registry.paired files =
      (.error fault, (c.perform Registry.paired files).2.1, (c.perform Registry.paired files).2.2) :=
    Prod.ext hfault rfl
  obtain ⟨hloaded, _, hfiles⟩ := perform_takes_whole_files (c := c) rfl hperform
  exact ⟨rfl, _, _, hperform, by decide +kernel, hloaded, hfiles (by simp [fault])⟩

end LoadCall

end EnvFile
