import EnvFile.Proofs.Mentions
import EnvFile.Proofs.WholeFiles

namespace EnvFile

theorem FileTree.node?_normalise {f : FileTree} {p : Path} {content : ByteArray}
    (h : f.content? p = some content) : f.node? (f.normalise p) = some (.file content) := by
  obtain ⟨place, hl, hn⟩ := content?_eq_some_iff.mp h
  rw [normalise_of_locate hl, hn]

namespace Reader

/-- The kept lines are those of the files as they are. -/
def Faithful (reader : Reader) (files : FileTree) : Prop :=
  ∀ place lines, reader.kept.get? place = some lines →
    ∃ content, files.node? place = some (.file content) ∧ current content = .ok lines

theorem faithful_of_empty {reader : Reader} (h : reader.kept = ∅) (files : FileTree) :
    reader.Faithful files := by
  intro place lines hl
  rw [h] at hl
  simp at hl

theorem Faithful.linesOf {reader : Reader} {files : FileTree} (h : reader.Faithful files) {p : Path}
    {useKept : Bool} {lines : List Text} (hp : files.Legible p)
    (hs : reader.served? files p useKept = some lines) : files.linesOf p = .ok lines := by
  obtain ⟨_, _, hkept⟩ := served?_eq_some_iff.mp hs
  obtain ⟨content, hnode, hcurrent⟩ := h _ _ hkept
  obtain ⟨other, hc⟩ := Option.isSome_iff_exists.mp hp.1
  -- kept lines are those of the content that stands there now
  rw [FileTree.node?_normalise hc] at hnode
  cases hnode
  exact FileTree.linesOf_eq_ok_iff.mpr ⟨content, hc, hp.2, hcurrent⟩

theorem Faithful.keep {reader : Reader} {files : FileTree} (h : reader.Faithful files) {p : Path}
    {lines : List Text} (hl : files.linesOf p = .ok lines) :
    (reader.keep (files.normalise p) lines).Faithful files := by
  obtain ⟨content, hc, _, hcurrent⟩ := FileTree.linesOf_eq_ok_iff.mp hl
  unfold Reader.keep
  split
  next =>
    intro place other hother
    rw [Table.get?_insert] at hother
    split at hother
    next he =>
      cases hother
      exact ⟨content, he ▸ FileTree.node?_normalise hc, hcurrent⟩
    next => exact h place other hother
  next => exact h

/-- A faithful reader reads what is there and stays faithful. -/
theorem Faithful.read {reader : Reader} {files : FileTree} (h : reader.Faithful files) (p : Path)
    (useKept : Bool) : (reader.read files p useKept).1 = files.linesOf p ∧
      (reader.read files p useKept).2.Faithful files := by
  rcases hread : reader.read files p useKept with ⟨result, next⟩
  rcases read_cases hread with ⟨lines, rfl, hp, hs, rfl⟩ | ⟨fault, rfl, hl, rfl⟩ | ⟨lines, rfl, hl, rfl⟩
  · exact ⟨(h.linesOf hp hs).symm, h⟩
  · exact ⟨hl.symm, h⟩
  · exact ⟨hl.symm, h.keep hl⟩

end Reader

namespace Listing

/-- Where every name has the same value, lines have the same entries. -/
theorem entriesFrom_congr {s s' : Scope} {m : Manner} {number : Nat} {lines : List Text}
    {staged : Table Text Value}
    (h : ∀ staged, Scope.AgreesOn (fun _ => True) { s with overlay := staged }
      { s' with overlay := staged }) :
    entriesFrom s m number lines staged = entriesFrom s' m number lines staged := by
  induction lines generalizing number staged with
  | nil => rfl
  | cons line lines ih =>
    unfold entriesFrom
    split
    next => exact ih
    next => simp only [ih]
    next key draft _ =>
      rw [value_congr (h staged) key fun _ _ => trivial]
      simp only [ih]

theorem entries_congr {cache cache' ambient ambient' : Table Text Value} {m : Manner}
    {lines : List Text}
    (h : ∀ name, elsewhere cache ambient name = elsewhere cache' ambient' name) :
    entries cache ambient m lines = entries cache' ambient' m lines :=
  entriesFrom_congr fun _ =>
    ⟨rfl, fun name _ => congrArg (Option.or _) (h name), fun _ _ => rfl, fun _ _ _ _ _ _ => trivial⟩

end Listing

/-- The text that a value is published as. -/
def Value.rendered (v : Value) : Value := .text (v.splice.toOption.getD [])

theorem Value.rendered_of_splice {v : Value} {t : Text} (h : v.splice = .ok t) :
    v.rendered = .text t := by
  rw [rendered, h]
  rfl

namespace Registry

variable {r s : Registry} {files : FileTree} {p : Path} {useKept : Bool}

/-- A table that is no process environment takes the text of a value as it is. -/
theorem publish_plain (key : Text) {v : Value} (hg : r.ambient.guarded = false)
    (hv : ∃ t, v.splice = .ok t) :
    ∃ published, r.publish key v = .ok
      { r with
        published
        ambient := if r.publishing then .plain (r.ambient.table.insert key v.rendered)
          else r.ambient } := by
  obtain ⟨t, ht⟩ := hv
  have hambient : r.ambient.publish key t = .ok (.plain (r.ambient.table.insert key (.text t))) := by
    simp [Ambient.publish, hg, Ambient.plain]
  unfold publish
  by_cases hp : r.publishing
  · rw [if_pos hp, if_pos hp, Value.rendered_of_splice ht]
    exact ⟨r.published.insert key, Results.bind_eq_ok.mpr
      ⟨t, ht, Results.bind_eq_ok.mpr ⟨_, hambient, rfl⟩⟩⟩
  · rw [if_neg hp, if_neg hp]
    exact ⟨r.published, rfl⟩

theorem publishAll_plain {es : List (Text × Value)} (hg : r.ambient.guarded = false)
    (hes : ∀ e ∈ es, ∃ t, e.2.splice = .ok t) :
    ∃ published, (r.publishAll es).2 =
      { r with
        published
        ambient := if r.publishing then
          .plain (es.foldl (fun t e => t.insert e.1 e.2.rendered) r.ambient.table) else r.ambient } := by
  induction es generalizing r with
  | nil =>
    have hplain : Ambient.plain r.ambient.table = r.ambient := by rw [Ambient.plain, ← hg]
    exact ⟨r.published, by simp [publishAll, hplain]⟩
  | cons e es ih =>
    obtain ⟨he, hes⟩ := List.forall_mem_cons.mp hes
    obtain ⟨published, hpublish⟩ := publish_plain e.1 hg he
    unfold publishAll
    rw [hpublish]
    cases hp : r.publishing with
    | true =>
      obtain ⟨published', h⟩ := ih (r := { r with
        published
        ambient := .plain (r.ambient.table.insert e.1 e.2.rendered) }) rfl hes
      exact ⟨published', by simpa [hp, Ambient.plain] using h⟩
    | false =>
      obtain ⟨published', h⟩ := ih (r := { r with published }) hg hes
      exact ⟨published', by simpa [hp] using h⟩

theorem commit_plain {values : Table Text Value} (hg : r.ambient.guarded = false)
    (hv : ∀ e ∈ values.entries, ∃ t, e.2.splice = .ok t) :
    ∃ owned published, (r.commit values).2 =
      { r with
        cache := r.cache.insertAll values
        owned
        published
        ambient := if r.publishing then
          .plain (r.ambient.table.insertAll (values.map Value.rendered)) else r.ambient } := by
  obtain ⟨published, h⟩ := publishAll_plain
    (r := { r with
      cache := r.cache.insertAll values
      owned := values.keys.foldl (fun ks k => ks.insert k) r.owned }) hg hv
  refine ⟨values.keys.foldl (fun ks k => ks.insert k) r.owned, published, ?_⟩
  rw [Table.insertAll_map]
  exact h

/-- A registry that has nothing from elsewhere than from files as they are. -/
structure Sound (r : Registry) (files : FileTree) : Prop where
  faithful : r.reader.Faithful files
  plain : r.ambient.guarded = false
  covered : ∀ name ∈ r.ambient.table.keys, name ∈ r.cache.keys

theorem Sound.elsewhere_eq (h : r.Sound files) (name : Text) :
    Listing.elsewhere r.cache r.ambient.table name = Listing.elsewhere r.cache ∅ name := by
  unfold Listing.elsewhere
  cases hc : r.cache.get? name with
  | some v => rfl
  | none =>
    cases ha : r.ambient.table.get? name with
    | none => rfl
    | some v =>
      have hmem := h.covered name (Table.mem_keys_iff_get?.mpr ⟨v, ha⟩)
      exact absurd hmem (Table.get?_eq_none_iff.mp hc)

theorem Sound.commit (h : r.Sound files) {values : Table Text Value}
    (hv : ∀ e ∈ values.entries, ∃ t, e.2.splice = .ok t) : (r.commit values).2.Sound files := by
  obtain ⟨owned, published, hcommit⟩ := commit_plain h.plain hv
  rw [hcommit]
  refine ⟨h.faithful, ?_, fun name hname => ?_⟩
  · simp only
    split
    · rfl
    · exact h.plain
  · simp only at hname ⊢
    rw [Table.mem_keys_insertAll]
    split at hname
    next =>
      rw [Ambient.plain, Table.mem_keys_insertAll, Table.keys_map] at hname
      exact hname.imp_left (h.covered name)
    next => exact Or.inl (h.covered name hname)

/-- How a file is taken over, apart from what the reader keeps of it. -/
theorem Sound.absorb (h : r.Sound files) (hp : p.Regular) (useKept : Bool) :
    ∃ reader, reader.Faithful files ∧ r.absorb files ⟨.all, false, useKept⟩ p = (do
      let lines ← files.linesOf p
      let values ← (Listing.entries r.cache ∅ ⟨.all, false, p.toText⟩ lines).1
      .ok ({ r with reader }.commit values).2) := by
  have hpath := Path.ofText_toText hp
  obtain ⟨hlines, hfaithful⟩ := h.faithful.read p useKept
  refine ⟨_, hfaithful, ?_⟩
  rw [← hlines]
  rcases hread : r.reader.read files p useKept with ⟨fault | lines, reader⟩
  · have hl : r.linesAt files p useKept = (.error fault, { r with reader }) := by
      unfold linesAt
      rw [hread]
    rcases refuses_of_linesAt hl with hfails | ⟨_, reason, rfl⟩
    · exact absorb_of_lookUpFails hfails (by rw [hpath]; exact hl)
    · rw [absorb_of_unreadable (by rw [hpath]; exact hl)]
      rfl
  · have hl : r.linesAt files p useKept = (.ok lines, { r with reader }) := by
      unfold linesAt
      rw [hread]
    rw [absorb_of_lines (by rw [hpath]; exact hl), entriesIn, Listing.entries_congr h.elsewhere_eq]
    rfl

/-- The values of some files in order, each of them read among those of the files before it. -/
def gather (files : FileTree) (cache : Table Text Value) :
    List Path → Except Fault (List (Table Text Value))
  | [] => .ok []
  | p :: ps => do
    let lines ← files.linesOf p
    let values ← (Listing.entries cache ∅ ⟨.all, false, p.toText⟩ lines).1
    let more ← gather files (cache.insertAll values) ps
    .ok (values :: more)

/-- What a registry becomes by the values of some files. -/
structure Gathers (r : Registry) (tables : List (Table Text Value)) (s : Registry) : Prop where
  paths : s.paths = r.paths
  publishing : s.publishing = r.publishing
  cache : s.cache = tables.foldl .insertAll r.cache
  ambient : s.ambient = if r.publishing then
    .plain ((tables.map (·.map Value.rendered)).foldl .insertAll r.ambient.table) else r.ambient

theorem Sound.gathers_nil (h : r.Sound files) : r.Gathers [] r := by
  have hplain : Ambient.plain r.ambient.table = r.ambient := by rw [Ambient.plain, ← h.plain]
  exact ⟨rfl, rfl, rfl, by simp [hplain]⟩

theorem Sound.gathers_cons {reader : Reader} {values : Table Text Value}
    {tables : List (Table Text Value)} (h : r.Sound files)
    (hv : ∀ e ∈ values.entries, ∃ t, e.2.splice = .ok t)
    (hs : Gathers ({ r with reader }.commit values).2 tables s) : r.Gathers (values :: tables) s := by
  obtain ⟨owned, published, hcommit⟩ := commit_plain (r := { r with reader }) h.plain hv
  rw [hcommit] at hs
  refine ⟨hs.paths, hs.publishing, hs.cache, hs.ambient.trans ?_⟩
  by_cases hp : r.publishing <;> simp [hp, Ambient.plain]

/-- Files are taken over just where they can be gathered. -/
theorem Sound.foldlM_cases {ps : List Path} (h : r.Sound files) (hps : ∀ p ∈ ps, p.Regular)
    (useKept : Bool) :
    (∃ tables s, gather files r.cache ps = .ok tables ∧
      ps.foldlM (Registry.absorb files ⟨.all, false, useKept⟩) r = .ok s ∧
      s.Sound files ∧ r.Gathers tables s) ∨
    ∃ fault, gather files r.cache ps = .error fault ∧
      ps.foldlM (Registry.absorb files ⟨.all, false, useKept⟩) r = .error fault := by
  induction ps generalizing r with
  | nil => exact Or.inl ⟨[], r, rfl, rfl, h, h.gathers_nil⟩
  | cons p ps ih =>
    obtain ⟨hp, hps⟩ := List.forall_mem_cons.mp hps
    obtain ⟨reader, hfaithful, habsorb⟩ := h.absorb hp useKept
    have hreader : Sound { r with reader } files := ⟨hfaithful, h.plain, h.covered⟩
    rw [List.foldlM_cons, habsorb, gather]
    cases files.linesOf p with
    | error fault => exact Or.inr ⟨fault, rfl, rfl⟩
    | ok lines =>
      simp only [bind, Except.bind]
      cases hentries : (Listing.entries r.cache ∅ ⟨.all, false, p.toText⟩ lines).1 with
      | error fault => exact Or.inr ⟨fault, rfl, rfl⟩
      | ok values =>
        have hv := Listing.splice_of_entries hentries
        obtain ⟨owned, published, hcommit⟩ := commit_plain hreader.plain hv
        have hcache : ({ r with reader }.commit values).2.cache = r.cache.insertAll values := by
          rw [hcommit]
        simp only
        rcases ih (hreader.commit hv) hps with
          ⟨tables, s, hgather, hfold, hsound, hs⟩ | ⟨fault, hgather, hfold⟩
        · rw [hcache] at hgather
          rw [hgather]
          exact Or.inl ⟨values :: tables, s, rfl, hfold, hsound, h.gathers_cons hv hs⟩
        · rw [hcache] at hgather
          rw [hgather]
          exact Or.inr ⟨fault, rfl, hfold⟩

theorem foldlM_of_split {before : List Path} {t : Registry} {m : LoadMode} {fault : Fault}
    (after : List Path) (ht : before.foldlM (Registry.absorb files m) r = .ok t)
    (hfail : t.absorb files m p = .error fault) :
    (before ++ p :: after).foldlM (Registry.absorb files m) r = .error fault := by
  have hrest : (p :: after).foldlM (Registry.absorb files m) t = .error fault := by
    rw [List.foldlM_cons, hfail]
    rfl
  rw [List.foldlM_append, ht]
  exact hrest

/-- A load of all keys takes over what can be gathered from the files that are there, if any are. -/
theorem Sound.loadFiles_cases (h : r.Sound files) (useKept : Bool) :
    (∃ tables s notices, gather files r.cache (r.present files) = .ok tables ∧
      r.present files ≠ [] ∧ r.loadFiles files ⟨.all, false, useKept⟩ = (.ok (), s, notices) ∧
      s.Sound files ∧ r.Gathers tables s) ∨
    ∃ fault s notices, r.loadFiles files ⟨.all, false, useKept⟩ = (.error fault, s, notices) ∧
      (r.present files ≠ [] → ∃ other, gather files r.cache (r.present files) = .error other) := by
  rcases r.loadFiles_cases files ⟨.all, false, useKept⟩ with ⟨hnone, hload⟩ | ⟨hsome, hload⟩
  · exact Or.inr ⟨_, r, [], hload, fun hne => absurd hnone hne⟩
  · have hpresent : ∀ p ∈ r.present files, p.Regular :=
      fun p hp => regular_of_mem_paths (List.mem_of_mem_filter hp)
    rw [hload]
    rcases loadEach_cases files ⟨.all, false, useKept⟩ h.plain
        (fun _ => regular_of_mem_paths) with
      ⟨s, notices, hfold, heach⟩ |
        ⟨before, p, after, t, fault, s, notices, hsplit, ht, hfail, heach, _⟩
    · rcases h.foldlM_cases hpresent useKept with
        ⟨tables, s', hgather, hfold', hsound, hs⟩ | ⟨fault, _, hfold'⟩
      · obtain rfl : s = s' := Except.ok.inj (hfold.symm.trans hfold')
        exact Or.inl ⟨tables, s, notices, hgather, hsome, heach, hsound, hs⟩
      · exact absurd (hfold.symm.trans hfold') (by simp)
    · rcases h.foldlM_cases hpresent useKept with ⟨_, _, _, hfold', _⟩ | ⟨other, hgather, _⟩
      · have hfold := foldlM_of_split after ht hfail
        rw [← hsplit] at hfold
        exact absurd (hfold.symm.trans hfold') (by simp)
      · exact Or.inr ⟨fault, s, notices, heach, fun _ => ⟨other, hgather⟩⟩

end Registry

end EnvFile
