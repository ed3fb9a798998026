import EnvFile.Proofs.Gathering

namespace EnvFile

namespace Table

variable {κ α β : Type} [DecidableEq κ]

theorem latest?_map (ts : List (Table κ α)) (f : α → β) (k : κ) :
    latest? (ts.map (·.map f)) k = (latest? ts k).map f := by
  induction ts with
  | nil => rfl
  | cons t ts ih => rw [List.map_cons, latest?_cons, latest?_cons, ih, get?_map, Option.map_or]

theorem exists_of_latest? {ts : List (Table κ α)} {k : κ} {v : α} (h : latest? ts k = some v) :
    ∃ t ∈ ts, t.get? k = some v := by
  obtain ⟨t, ht, hv⟩ := List.exists_of_findSome?_eq_some h
  exact ⟨t, List.mem_reverse.mp ht, hv⟩

/-- Keys keep their places, and new ones come after them, in order of first mention. -/
theorem keys_foldl_insert [BEq κ] [LawfulBEq κ] (t : Table κ α) (es : List (κ × α)) :
    (es.foldl (fun t e => t.insert e.1 e.2) t).keys =
      t.keys ++ ((es.map Prod.fst).filter (· ∉ t.keys)).eraseDups := by
  induction es generalizing t with
  | nil => simp [List.eraseDups]
  | cons e es ih =>
    rw [List.foldl_cons, ih, keys_insert, List.map_cons]
    by_cases h : e.1 ∈ t.keys
    · rw [if_pos h, List.filter_cons_of_neg (by simpa using h)]
    · rw [if_neg h, List.filter_cons_of_pos (by simpa using h), List.eraseDups_cons, List.filter_filter,
        List.append_assoc, List.singleton_append]
      refine congrArg (fun ks => t.keys ++ e.1 :: ks.eraseDups) (List.filter_congr fun k _ => ?_)
      by_cases hk : k = e.1 <;> simp [hk]

theorem keys_foldl_insertAll [BEq κ] [LawfulBEq κ] (t : Table κ α) (ts : List (Table κ α)) :
    (ts.foldl insertAll t).keys =
      t.keys ++ ((ts.flatMap keys).filter (· ∉ t.keys)).eraseDups := by
  have hflat : ts.foldl insertAll t =
      (ts.flatMap entries).foldl (fun t e => t.insert e.1 e.2) t := by
    rw [List.foldl_flatMap]
    rfl
  rw [hflat, keys_foldl_insert, List.map_flatMap]
  rfl

end Table

namespace Registry

/-- What a load takes from a file: its values, or none where it may pass over one that it cannot
read. -/
def taken (r : Registry) (files : FileTree) (m : LoadMode) (p : Path) :
    Except Fault (Table Text Value) :=
  match (r.entriesAt files m p.toText).1 with
  | .error (.access path reason) => if m.tolerant then .ok ∅ else .error (.access path reason)
  | result => result

/-- What it takes from several files, each of them read as those before it have left the registry. -/
def takenEach (files : FileTree) (m : LoadMode) :
    Registry → List Path → Except Fault (List (Table Text Value))
  | _, [] => .ok []
  | r, p :: ps => do
    let values ← r.taken files m p
    let s ← r.absorb files m p
    let more ← takenEach files m s ps
    .ok (values :: more)

/-- What a registry has become by the values of some files. -/
structure Takes (r : Registry) (tables : List (Table Text Value)) (s : Registry) : Prop where
  publishing : s.publishing = r.publishing
  cache : s.cache = tables.foldl .insertAll r.cache
  spliced : s.publishing → ∀ values ∈ tables, ∀ e ∈ values.entries, ∃ t, e.2.splice = .ok t
  ambient : s.ambient.table = if r.publishing then
    (tables.map (·.map Value.rendered)).foldl .insertAll r.ambient.table else r.ambient.table

variable {r s t : Registry} {files : FileTree} {m : LoadMode} {p : Path} {notices : List Notice}
  {tables : List (Table Text Value)} {values : Table Text Value}

theorem takes_nil (r : Registry) : r.Takes [] r :=
  ⟨rfl, rfl, fun _ _ hmem => absurd hmem List.not_mem_nil, by simp⟩

theorem Takes.append {more : List (Table Text Value)} (h : r.Takes tables s) (h' : s.Takes more t) :
    r.Takes (tables ++ more) t := by
  refine ⟨h'.publishing.trans h.publishing, ?_, fun hp values hmem => ?_, ?_⟩
  · rw [h'.cache, h.cache, List.foldl_append]
  · exact (List.mem_append.mp hmem).elim (h.spliced (h'.publishing ▸ hp) values)
      (h'.spliced hp values)
  · rw [h'.ambient, h.ambient, h.publishing, List.map_append, List.foldl_append]
    split <;> rfl

theorem publishAll_eq_ok {es : List (Text × Value)} (h : r.publishAll es = (.ok (), s)) :
    s.publishing = r.publishing ∧ s.cache = r.cache ∧
      (s.publishing → ∀ e ∈ es, ∃ t, e.2.splice = .ok t) ∧
      s.ambient.table = if r.publishing then
        es.foldl (fun t e => t.insert e.1 e.2.rendered) r.ambient.table else r.ambient.table := by
  induction es generalizing r with
  | nil =>
    cases h
    exact ⟨rfl, rfl, by simp, by simp⟩
  | cons e es ih =>
    unfold publishAll at h
    split at h
    next => simp at h
    next u hu =>
      obtain ⟨hpublishing, hcache, hspliced, hambient⟩ := ih h
      rcases publish_cases hu with ⟨t, hp, ht, rfl⟩ | ⟨hp, rfl⟩
      · refine ⟨hpublishing, hcache, fun hs => List.forall_mem_cons.mpr ⟨⟨t, ht⟩, hspliced hs⟩, ?_⟩
        rw [hambient, if_pos hp, if_pos hp, List.foldl_cons, Value.rendered_of_splice ht]
      · refine ⟨hpublishing, hcache, fun hs => absurd (hpublishing ▸ hs) hp, ?_⟩
        rw [hambient, if_neg hp, if_neg hp]

theorem takes_of_commit (h : r.commit values = (.ok (), s)) : r.Takes [values] s := by
  obtain ⟨hpublishing, hcache, hspliced, hambient⟩ := publishAll_eq_ok h
  refine ⟨hpublishing, hcache, fun hp => by simpa using hspliced hp, hambient.trans ?_⟩
  rw [List.map_singleton, List.foldl_cons, List.foldl_nil, Table.insertAll_map]

theorem taken_of_lines {lines : List Text}
    (h : r.linesAt files (Path.ofText p.toText) m.useKept = (.ok lines, t)) :
    r.taken files m p = (t.entriesIn m p.toText lines).1 := by
  have htextual : Textual (t.entriesIn m p.toText lines).1 := Listing.entries_textual _ _ _ _
  unfold taken entriesAt
  rw [h]
  simp only
  split
  next hfault =>
    have hplace := htextual _ hfault
    simp [Fault.isOfPlaces] at hplace
  next => rfl

theorem takes_of_linesAt {useKept : Bool} {lines : Except Fault (List Text)}
    (h : r.linesAt files p useKept = (lines, s)) : r.Takes [] s := by
  unfold linesAt at h
  cases h
  exact ⟨rfl, rfl, fun _ _ hmem => absurd hmem List.not_mem_nil, by simp⟩

/-- A file that is loaded gives its values, or none if it cannot be read. -/
theorem loadFile_eq_ok (hp : p.Regular) (hthere : files.isPresent p = .ok true)
    (h : r.loadFile files m p = (.ok (), s, notices)) :
    ∃ values, r.taken files m p = .ok values ∧ r.absorb files m p = .ok s ∧ r.Takes [values] s := by
  have hpath := Path.ofText_toText hp
  unfold loadFile at h
  rcases hl : r.linesAt files p m.useKept with ⟨fault | lines, t⟩
  · have htakes := takes_of_linesAt hl
    rw [hl] at h
    rcases refuses_of_linesAt hl with hfails | ⟨_, reason, rfl⟩
    · rw [FileTree.isPresent_eq_error_iff.mpr hfails] at hthere
      cases hthere
    · rw [← hpath] at hl
      by_cases ht : m.tolerant
      · simp only [ht, ↓reduceIte, Prod.mk.injEq, true_and] at h
        obtain ⟨rfl, _⟩ := h
        have htaken : r.taken files m p = .ok ∅ := by
          unfold taken entriesAt
          rw [hl]
          exact if_pos ht
        have habsorb : r.absorb files m p = .ok t := (absorb_of_unreadable hl).trans (if_pos ht)
        exact ⟨∅, htaken, habsorb, htakes.publishing, htakes.cache,
          fun _ values hmem e he => absurd (List.mem_singleton.mp hmem ▸ he) List.not_mem_nil,
          htakes.ambient⟩
      · simp [ht] at h
  · have htakes := takes_of_linesAt hl
    rw [hl] at h
    rw [← hpath] at hl
    have hentries := taken_of_lines hl
    have habsorb := absorb_of_lines hl
    rcases he : t.entriesIn m p.toText lines with ⟨fault | values, told⟩
    · simp [he] at h
    · simp only [he] at h
      rw [he] at hentries habsorb
      rcases hcommit : t.commit values with ⟨fault | _, u⟩
      · simp [hcommit] at h
      · simp only [hcommit, Prod.mk.injEq, true_and] at h
        obtain ⟨rfl, _⟩ := h
        refine ⟨values, hentries, ?_, htakes.append (takes_of_commit hcommit)⟩
        rw [habsorb, Except.map, hcommit]

/-- Files that are loaded give their values one after another. -/
theorem loadEach_eq_ok {ps : List Path} (hps : ∀ p ∈ ps, p.Regular)
    (h : r.loadEach files m ps = (.ok (), s, notices)) :
    ∃ tables, takenEach files m r (ps.filter (!files.isAbsent ·)) = .ok tables ∧ r.Takes tables s := by
  induction ps generalizing r notices with
  | nil =>
    cases h
    exact ⟨[], rfl, takes_nil _⟩
  | cons p ps ih =>
    obtain ⟨hp, hps⟩ := List.forall_mem_cons.mp hps
    unfold loadEach at h
    split at h
    next => simp at h
    next hthere =>
      rw [List.filter_cons_of_neg (by simp [FileTree.isAbsent, hthere])]
      exact ih hps h
    next hthere =>
      rw [List.filter_cons_of_pos (by simp [FileTree.isAbsent, hthere])]
      split at h
      next => simp at h
      next t told hfile =>
        obtain ⟨values, htaken, habsorb, htakes⟩ := loadFile_eq_ok hp hthere hfile
        rcases hrest : t.loadEach files m ps with ⟨result, u, more⟩
        simp only [hrest, Prod.mk.injEq] at h
        obtain ⟨rfl, rfl, _⟩ := h
        obtain ⟨tables, hmore, htakes'⟩ := ih hps hrest
        refine ⟨values :: tables, ?_, htakes.append htakes'⟩
        exact Results.bind_eq_ok.mpr ⟨values, htaken, Results.bind_eq_ok.mpr ⟨t, habsorb,
          Results.bind_eq_ok.mpr ⟨tables, hmore, rfl⟩⟩⟩

theorem loadFiles_eq_ok (h : r.loadFiles files m = (.ok (), s, notices)) :
    ∃ tables, takenEach files m r (r.present files) = .ok tables ∧ r.Takes tables s := by
  rcases r.loadFiles_cases files m with ⟨hnone, hload⟩ | ⟨_, hload⟩
  · rw [hload] at h
    split at h
    next =>
      cases h
      exact ⟨[], by rw [hnone]; rfl, takes_nil _⟩
    next => simp at h
  · exact loadEach_eq_ok (fun _ => regular_of_mem_paths) (hload.symm.trans h)

end Registry

namespace LoadCall

/-- The call loads what is there, on top of what the registry holds. -/
def Adds (r : Registry) : LoadCall → Prop
  | load _ force _ => r.loaded = false ∨ force
  | loadSome _ reset => reset = false

variable {c : LoadCall} {r s : Registry} {files : FileTree} {notices : List Notice}

theorem loadFiles_of_adds (hc : c.Adds r) (h : c.perform r files = (.ok (), s, notices)) :
    ∃ t told, (c.prepare r).loadFiles files c.mode = (.ok (), t, told) ∧
      s.cache = t.cache ∧ s.ambient = t.ambient := by
  cases c with
  | load keys force tolerant =>
    have hruns : (r.loaded && !force) = false := by
      rcases hc with hc | hc <;> simp [hc]
    rw [perform, Registry.load_of_runs hruns] at h
    split at h
    next t told hload =>
      cases h
      exact ⟨_, _, hload, rfl, rfl⟩
    next hfailed => exact absurd h (hfailed _ _)
  | loadSome filter reset =>
    obtain rfl : reset = false := hc
    simp only [perform, Registry.loadSome, Bool.false_eq_true, ↓reduceIte, Prod.mk.injEq] at h
    exact ⟨s, _, Prod.ext h.1 (Prod.ext h.2.1 rfl), rfl, rfl⟩

theorem takes_of_prepare {tables : List (Table Text Value)} (hc : c.Adds r)
    (h : (c.prepare r).Takes tables s) : r.Takes tables s := by
  cases c with
  | load keys force tolerant => cases force <;> exact ⟨h.publishing, h.cache, h.spliced, h.ambient⟩
  | loadSome filter reset =>
    obtain rfl : reset = false := hc
    exact h

/-- After a call that loads, a key has its value from the last file that gave it one, in the cache
and, as a text, where the registry publishes. All else is as it was, and new keys come last. -/
theorem perform_keeps_latest (hc : c.Adds r) (h : c.perform r files = (.ok (), s, notices)) :
    ∃ tables, Registry.takenEach files c.mode (c.prepare r) (r.present files) = .ok tables ∧
      (∀ key, s.cache.get? key = (Table.latest? tables key).or (r.cache.get? key)) ∧
      s.cache.keys =
        r.cache.keys ++ ((tables.flatMap Table.keys).filter (· ∉ r.cache.keys)).eraseDups ∧
      (r.publishing →
        (∀ key v, Table.latest? tables key = some v →
          ∃ t, v.splice = .ok t ∧ s.ambient.table.get? key = some (.text t)) ∧
        (∀ key, Table.latest? tables key = none →
          s.ambient.table.get? key = r.ambient.table.get? key) ∧
        s.ambient.table.keys = r.ambient.table.keys ++
          ((tables.flatMap Table.keys).filter (· ∉ r.ambient.table.keys)).eraseDups) ∧
      (¬r.publishing → s.ambient.table = r.ambient.table) := by
  obtain ⟨t, told, hload, hcache, hambient⟩ := loadFiles_of_adds hc h
  obtain ⟨tables, htaken, htakes⟩ := Registry.loadFiles_eq_ok hload
  rw [present_prepare] at htaken
  have htakes := takes_of_prepare hc htakes
  rw [hcache, hambient, htakes.cache]
  refine ⟨tables, htaken, Table.get?_foldl_insertAll r.cache tables,
    Table.keys_foldl_insertAll r.cache tables, fun hp => ?_, fun hp => ?_⟩
  · have hpublic := htakes.ambient
    rw [if_pos hp] at hpublic
    have hget (key : Text) : t.ambient.table.get? key =
        ((Table.latest? tables key).map Value.rendered).or (r.ambient.table.get? key) := by
      rw [hpublic, Table.get?_foldl_insertAll, Table.latest?_map]
    refine ⟨fun key v hv => ?_, fun key hnone => ?_, ?_⟩
    · obtain ⟨values, hvalues, hkey⟩ := Table.exists_of_latest? hv
      obtain ⟨shown, hshown⟩ := htakes.spliced (htakes.publishing ▸ hp) values hvalues (key, v)
        (Table.mem_entries_iff.mpr hkey)
      refine ⟨shown, hshown, ?_⟩
      rw [hget, hv, Option.map_some, Option.some_or, Value.rendered_of_splice hshown]
    · rw [hget, hnone, Option.map_none, Option.none_or]
    · rw [hpublic, Table.keys_foldl_insertAll, List.flatMap_map]
      simp only [Table.keys_map]
  · rw [htakes.ambient, if_neg hp]

/-- The second file takes a value that the first one has just given, and overrides another. -/
theorem perform_keeps_latest_pair :
    let files := FileTree.pair "A=1\nB=${Z}\n".toList "A=${B}!\noops\nC=2\n".toList
    let r := { Registry.paired with
      cache := .ofList [("Z".toList, .int 7), ("A".toList, .null)]
      ambient := .ofEnvironment (.ofList [("HOME".toList, "/".toList), ("B".toList, "8".toList)])
      loaded := true }
    let c := load [] true true
    let cached : List (Text × Value) := [("Z".toList, .int 7), ("A".toList, .text "7!".toList),
      ("B".toList, .int 7), ("C".toList, .int 2)]
    let shown : List (Text × Text) := [("HOME".toList, "/".toList), ("B".toList, "7".toList),
      ("A".toList, "7!".toList), ("C".toList, "2".toList)]
    c.Adds r ∧ ∃ s notices, c.perform r files = (.ok (), s, notices) ∧
      s.cache = .ofList cached ∧ s.ambient = .ofEnvironment (.ofList shown) ∧
      ∃ tables, Registry.takenEach files c.mode (c.prepare r) (r.present files) = .ok tables ∧
        (∀ key, s.cache.get? key = (Table.latest? tables key).or (r.cache.get? key)) ∧
        s.cache.keys =
          r.cache.keys ++ ((tables.flatMap Table.keys).filter (· ∉ r.cache.keys)).eraseDups ∧
        ∀ key, Table.latest? tables key = none →
          s.ambient.table.get? key = r.ambient.table.get? key := by
  intro files r c cached shown
  have hadds : c.Adds r := Or.inr rfl
  have hresult : (c.perform r files).1 = .ok () := by decide +kernel
  have hperform : c.perform r files =
      (.ok (), (c.perform r files).2.1, (c.perform r files).2.2) := Prod.ext hresult rfl
  obtain ⟨tables, htaken, hcache, hkeys, hpublic, _⟩ := perform_keeps_latest hadds hperform
  obtain ⟨_, hothers, _⟩ := hpublic rfl
  exact ⟨hadds, _, _, hperform, by decide +kernel, by decide +kernel, tables, htaken, hcache, hkeys,
    hothers⟩

end LoadCall

end EnvFile
