import EnvFile.Proofs.ForwardReferences
import EnvFile.Proofs.Gathering

namespace EnvFile

namespace Listing

/-- The files with these declarations refer forward, if at all, to lasting names only. -/
def Steady : (known : List Text) → (sources : List (List (Text × Text))) → Prop
  | _, [] => True
  | known, file :: later =>
    Steadily file (later.flatten.map Prod.fst) known file ∧ Steady (file.map Prod.fst ++ known) later

/-- A name whose drafts mention only new names that lead no further. -/
theorem lasting_of_ends {file rest : List (Text × Text)} {known later : List Text} {n : Text}
    (hlater : n ∉ later)
    (hends : ∀ draft, (n, draft) ∈ rest → ∀ m ∈ Template.names (Template.ofText draft),
      m ∉ known ∧ (rest.map Prod.fst).count m ≤ 1 ∧
        ∀ last, Table.find? m file.reverse = some last → Template.names (Template.ofText last) = []) :
    Lasting file rest known later n := by
  refine ⟨hlater, fun between draft below hrest _ m ⟨k, hk, hreach⟩ hm => ?_⟩
  obtain ⟨hnew, honce, hlast⟩ := hends draft (by simp [hrest]) k hk
  obtain rfl : k = m := by
    rcases Relation.ReflTransGen.cases_head hreach with he | ⟨_, ⟨d, hd, hmem⟩, _⟩
    · exact he
    · simp [hlast d hd] at hmem
  have hmem : k ∈ rest.map Prod.fst := by
    rw [hrest, List.map_append]
    exact List.mem_append_left _ hm
  exact ⟨hnew, Nat.le_antisymm honce (List.count_pos_iff.mpr hmem)⟩

end Listing

/-- What the lines of a file declare, as far as it can be read. -/
def FileTree.declaredAt (files : FileTree) (p : Path) : List (Text × Text) :=
  match files.linesOf p with
  | .ok lines => Listing.declared lines
  | .error _ => []

namespace Registry

variable {files : FileTree} {cache cache' final values : Table Text Value}
  {tables : List (Table Text Value)} {p : Path} {ps : List Path} {known : List Text}

theorem gather_cons_eq_ok : gather files cache (p :: ps) = .ok tables ↔
    ∃ lines values more, files.linesOf p = .ok lines ∧
      (Listing.entries cache ∅ ⟨.all, false, p.toText⟩ lines).1 = .ok values ∧
      gather files (cache.insertAll values) ps = .ok more ∧ tables = values :: more := by
  rw [gather, Results.bind_eq_ok]
  constructor
  · rintro ⟨lines, hlines, h⟩
    obtain ⟨values, hvalues, h⟩ := Results.bind_eq_ok.mp h
    obtain ⟨more, hmore, h⟩ := Results.bind_eq_ok.mp h
    exact ⟨lines, values, more, hlines, hvalues, hmore, (Except.ok.inj h).symm⟩
  · rintro ⟨lines, values, more, hlines, hvalues, hmore, rfl⟩
    exact ⟨lines, hlines, Results.bind_eq_ok.mpr
      ⟨values, hvalues, Results.bind_eq_ok.mpr ⟨more, hmore, rfl⟩⟩⟩

theorem declaredAt_of_linesOf {lines : List Text} (h : files.linesOf p = .ok lines) :
    files.declaredAt p = Listing.declared lines := by
  rw [FileTree.declaredAt, h]

theorem entries_eq_ok {path : Text} {lines : List Text} :
    (Listing.entries cache ∅ ⟨.all, false, path⟩ lines).1 = .ok values ↔
      (∀ line ∈ lines, ∀ problem, Line.ofText line ≠ .broken problem) ∧
      (Listing.declared lines).foldlM
        (Listing.stage ⟨∅, cache, ∅, Listing.drafts lines, Scope.defaultLimit⟩) ∅ = .ok values := by
  constructor
  · intro h
    have hb := Listing.not_broken_of_entriesFrom rfl h
    exact ⟨hb, (Listing.entries_all hb).symm.trans h⟩
  · rintro ⟨hb, h⟩
    exact (Listing.entries_all hb).trans h

theorem keys_of_entries {path : Text} {lines : List Text} {key : Text}
    (h : (Listing.entries cache ∅ ⟨.all, false, path⟩ lines).1 = .ok values) :
    key ∈ values.keys ↔ key ∈ (Listing.declared lines).map Prod.fst := by
  obtain ⟨_, h⟩ := entries_eq_ok.mp h
  constructor
  · intro hk
    by_contra hnot
    have hnone := Listing.get?_of_foldlM_none h hnot
    exact Table.get?_eq_none_iff.mp (hnone.trans (Table.get?_empty key)) hk
  · intro hk
    cases hd : Table.find? key (Listing.declared lines).reverse with
    | none =>
      rw [Table.find?_eq_none_iff, List.map_reverse, List.mem_reverse] at hd
      exact absurd hk hd
    | some draft =>
      obtain ⟨_, v, _, hv⟩ := Listing.get?_of_foldlM h hd
      exact Table.mem_keys_iff_get?.mpr ⟨v, hv⟩

theorem keys_of_gather (h : gather files cache ps = .ok tables) {key : Text} :
    (∃ t ∈ tables, key ∈ t.keys) ↔ key ∈ ((ps.map files.declaredAt).flatten).map Prod.fst := by
  induction ps generalizing cache tables with
  | nil =>
    cases h
    simp
  | cons p ps ih =>
    obtain ⟨lines, values, more, hlines, hvalues, hmore, rfl⟩ := gather_cons_eq_ok.mp h
    rw [List.map_cons, List.flatten_cons, List.map_append, List.mem_append, ← ih hmore,
      declaredAt_of_linesOf hlines, ← keys_of_entries hvalues]
    simp

theorem get?_of_not_later (h : gather files (cache.insertAll values) ps = .ok tables) {n : Text}
    (hn : n ∉ ((ps.map files.declaredAt).flatten).map Prod.fst) :
    (tables.foldl Table.insertAll (cache.insertAll values)).get? n =
      (values.get? n).or (cache.get? n) := by
  have hnone : Table.latest? tables n = none :=
    Table.latest?_eq_none_iff.mpr fun t ht hk => hn ((keys_of_gather h).mp ⟨t, ht, hk⟩)
  rw [Table.get?_foldl_insertAll, hnone, Option.none_or, Table.get?_insertAll]

/-- Files that refer forward to lasting names only have the same values once more among those that
all of them have come to. -/
theorem gather_again (h : gather files cache ps = .ok tables)
    (hknown : ∀ n, n ∈ known ↔ n ∈ cache.keys)
    (hsteady : Listing.Steady known (ps.map files.declaredAt))
    (hcache : ∀ n, cache'.get? n = (cache.get? n).or ((tables.foldl Table.insertAll cache).get? n)) :
    gather files cache' ps = .ok tables := by
  induction ps generalizing cache cache' tables known with
  | nil =>
    cases h
    rfl
  | cons p ps ih =>
    obtain ⟨lines, values, more, hlines, hvalues, hmore, rfl⟩ := gather_cons_eq_ok.mp h
    rw [List.foldl_cons] at hcache
    -- before each file the second cache is the first one, filled up with the values of the end
    obtain ⟨hfile, hsteady⟩ := hsteady
    rw [declaredAt_of_linesOf hlines] at hfile hsteady
    obtain ⟨hb, hfold⟩ := entries_eq_ok.mp hvalues
    have hrefills : Listing.Refills ⟨∅, cache, ∅, Listing.drafts lines, Scope.defaultLimit⟩
        ⟨∅, cache', ∅, Listing.drafts lines, Scope.defaultLimit⟩
        (more.foldl Table.insertAll (cache.insertAll values)) := by
      refine ⟨rfl, rfl, fun n => ?_⟩
      simp only [Listing.elsewhere, Table.get?_empty, Option.or_none]
      exact hcache n
    have hfold' := Listing.foldlM_of_refills hrefills (Listing.get?_drafts lines)
      (fun e he => Listing.isKey_of_mem_declared he)
      (fun n v hn hv => by rw [get?_of_not_later hmore hn, hv, Option.some_or])
      (fun n hn hk hfile => by
        have hvalue : values.get? n = none :=
          Table.get?_eq_none_iff.mpr fun hm => hfile ((keys_of_entries hvalues).mp hm)
        have hold : cache.get? n = none :=
          Table.get?_eq_none_iff.mpr fun hm => hk ((hknown n).mpr hm)
        rw [get?_of_not_later hmore hn, hvalue, hold, Option.or_none])
      (List.nil_append _).symm (by simp)
      (fun n => by
        rw [hknown, Table.mem_keys_iff]
        simp [Scope.value?, Table.contains])
      hfile hfold
    refine gather_cons_eq_ok.mpr ⟨lines, values, more, hlines, entries_eq_ok.mpr ⟨hb, hfold'⟩, ?_, rfl⟩
    refine ih hmore ?_ hsteady fun n => ?_
    · intro n
      rw [List.mem_append, Table.mem_keys_insertAll, hknown, keys_of_entries hvalues, or_comm]
    · rw [Table.get?_insertAll, Table.get?_insertAll, hcache, Option.or_assoc]

theorem sound_fresh (roots names : List Text) (publishing keepsLines : Bool) (files : FileTree) :
    (fresh roots names publishing keepsLines ∅ (.plain ∅)).Sound files :=
  ⟨Reader.faithful_of_empty rfl files, rfl, fun _ h => h⟩

/-- Values that are gathered once more change neither the cache nor the ambient table. -/
theorem Gathers.again {r s t : Registry} (h : r.Gathers tables s) (h' : s.Gathers tables t) :
    t.cache = s.cache ∧ t.ambient = s.ambient := by
  have hfirst := h.ambient
  have hsecond := h'.ambient
  rw [h.publishing] at hsecond
  refine ⟨?_, ?_⟩
  · rw [h'.cache, h.cache, Table.foldl_insertAll_again]
  · cases hp : r.publishing with
    | false => simpa [hp] using hsecond
    | true =>
      rw [if_pos hp] at hfirst hsecond
      rw [hsecond, hfirst]
      exact congrArg Ambient.plain (Table.foldl_insertAll_again _ _)

theorem values_congr {r s : Registry} (hp : s.publishing = r.publishing) (hc : s.cache = r.cache)
    (ha : s.ambient = r.ambient) : s.values = r.values := by
  simp only [Registry.values, hp, hc, ha]

/-- A forced load of unchanged files after a load of all keys succeeds too and gives every key its
value once more, where all that the files refer to before it has a value is lasting. -/
theorem load_again {roots names : List Text} {publishing keepsLines : Bool} {r : Registry}
    {notices : List Notice}
    (h : (fresh roots names publishing keepsLines ∅ (.plain ∅)).load files [] false false =
      (.ok (), r, notices))
    (hsteady : Listing.Steady []
      (((fresh roots names publishing keepsLines ∅ (.plain ∅)).present files).map files.declaredAt)) :
    ∃ s told, r.load files [] true false = (.ok (), s, told) ∧ s.values = r.values ∧
      s.cache = r.cache ∧ s.ambient = r.ambient := by
  have hsound := sound_fresh roots names publishing keepsLines files
  rw [load_of_not_loaded rfl] at h
  rcases hsound.loadFiles_cases true with
    ⟨tables, s, told, hgather, hsome, hload, hs, hgathers⟩ | ⟨fault, s, told, hload, _⟩
  · rw [hload] at h
    cases h
    -- the second load starts from the values of the first one, without kept lines
    let start := ({ s with loaded := true } : Registry).forgetLines
    have hstart : start.Sound files := ⟨Reader.faithful_of_empty rfl files, hs.plain, hs.covered⟩
    have hfirst : Gathers _ tables start :=
      ⟨hgathers.paths, hgathers.publishing, hgathers.cache, hgathers.ambient⟩
    have hpresent : start.present files =
        (fresh roots names publishing keepsLines ∅ (.plain ∅)).present files := by
      rw [present, hfirst.paths, ← present]
    have hagain : gather files start.cache (start.present files) = .ok tables := by
      rw [hpresent]
      refine gather_again hgather (fun _ => Iff.rfl) hsteady fun n => ?_
      rw [hfirst.cache]
      rfl
    rcases hstart.loadFiles_cases false with
      ⟨tables', t, told', hgather', _, hload', _, ht⟩ | ⟨_, _, _, _, hfails⟩
    · obtain rfl : tables = tables' := Except.ok.inj (hagain.symm.trans hgather')
      obtain ⟨hcache, hambient⟩ := hfirst.again ht
      refine ⟨{ t with loaded := true }, told', ?_, ?_, hcache, hambient⟩
      · rw [load_forced, hload']
      · exact values_congr ht.publishing hcache hambient
    · obtain ⟨other, hother⟩ := hfails (hpresent ▸ hsome)
      rw [hagain] at hother
      simp at hother
  · rw [hload] at h
    simp at h

/-- The first file refers forward to a name that there is not, and to one of its own that has two
drafts, the last of them with a name above it. -/
theorem load_again_forward :
    let files := FileTree.pair "A=${B}${D:-x}\nB=0\nC=1\nB=${C}\n".toList "E=${A}\n".toList
    Listing.Steady [] ((paired.present files).map files.declaredAt) ∧
    ∃ r told, paired.load files [] false false = (.ok (), r, told) ∧
      r.values = .ok (.ofList [("A".toList, .text "1x".toList), ("B".toList, .int 1),
        ("C".toList, .int 1), ("E".toList, .text "1x".toList)]) ∧
      ∃ s seen, r.load files [] true false = (.ok (), s, seen) ∧ s.values = r.values ∧
        s.cache = r.cache ∧ s.ambient = r.ambient := by
  intro files
  have hsources : (paired.present files).map files.declaredAt =
      [[("A".toList, "${B}${D:-x}".toList), ("B".toList, "0".toList), ("C".toList, "1".toList),
          ("B".toList, "${C}".toList)],
        [("E".toList, "${A}".toList)]] := by
    decide +kernel
  have hnames : ["${B}${D:-x}", "0", "1", "${C}", "${A}"].map
        (fun t => Template.names (Template.ofText t.toList)) =
      [["B".toList, "D".toList], [], [], ["C".toList], ["A".toList]] := by
    decide +kernel
  simp only [List.map_cons, List.map_nil, List.cons.injEq, and_true] at hnames
  obtain ⟨hA, hB, hC, hB', hE⟩ := hnames
  have hsteady : Listing.Steady [] ((paired.present files).map files.declaredAt) := by
    rw [hsources]
    refine ⟨⟨fun n hn _ => ?_, ?_, ?_, fun n hn hnew => ?_, trivial⟩, ⟨fun n hn hnew => ?_, trivial⟩,
      trivial⟩
    · rw [hA] at hn
      rcases List.mem_cons.mp hn with rfl | hn
      · refine Listing.lasting_of_ends (by decide) fun draft hd m hm => ?_
        simp only [List.mem_cons, Prod.mk.injEq, List.not_mem_nil, or_false] at hd
        rcases hd with ⟨h, _⟩ | ⟨_, rfl⟩ | ⟨h, _⟩ | ⟨_, rfl⟩
        · exact absurd h (by decide)
        · rw [hB] at hm
          exact absurd hm List.not_mem_nil
        · exact absurd h (by decide)
        · rw [hB'] at hm
          obtain rfl := List.mem_singleton.mp hm
          refine ⟨by simp, by decide, fun d hd => ?_⟩
          obtain rfl : "1".toList = d := Option.some.inj hd
          exact hC
      · obtain rfl := List.mem_singleton.mp hn
        refine Listing.lasting_of_ends (by decide) fun draft hd => ?_
        have hkey : "D".toList ∈ ["A".toList, "B".toList, "C".toList, "B".toList] :=
          List.mem_map_of_mem (f := Prod.fst) hd
        exact absurd hkey (by decide)
    · rw [hB]
      exact fun _ hn => absurd hn List.not_mem_nil
    · rw [hC]
      exact fun _ hn => absurd hn List.not_mem_nil
    · rw [hB'] at hn
      obtain rfl := List.mem_singleton.mp hn
      exact absurd (by decide) hnew
    · rw [hE] at hn
      obtain rfl := List.mem_singleton.mp hn
      exact absurd (by decide) hnew
  have hok : (paired.load files [] false false).1 = .ok () := by decide +kernel
  have hload : paired.load files [] false false =
      (.ok (), (paired.load files [] false false).2.1, (paired.load files [] false false).2.2) :=
    Prod.ext hok rfl
  exact ⟨hsteady, _, _, hload, by decide +kernel, load_again hload hsteady⟩

/-- A forward reference may meet another value the second time: that of a later file, or one made
from a name that has changed since. Then values change, or the load fails. -/
theorem load_again_otherwise :
    (∃ r told s seen, let files := FileTree.pair "A=${B-x}\n".toList "B=1\n".toList
      paired.load files [] false false = (.ok (), r, told) ∧
      r.load files [] true false = (.ok (), s, seen) ∧
      r.values = .ok (.ofList [("A".toList, .text "x".toList), ("B".toList, .int 1)]) ∧
      s.values = .ok (.ofList [("A".toList, .int 1), ("B".toList, .int 1)])) ∧
    (∃ r told s seen, let files := FileTree.pair "A=1\nB=${C}\nA=2\nC=${A}\n".toList []
      paired.load files [] false false = (.ok (), r, told) ∧
      r.load files [] true false = (.ok (), s, seen) ∧
      r.value? "B".toList = .ok (some (.int 1)) ∧ s.value? "B".toList = .ok (some (.int 2))) ∧
    ∃ r told s seen, let files := FileTree.pair "A=${B-x}://y\n".toList "B=php\n".toList
      paired.load files [] false false = (.ok (), r, told) ∧
      r.load files [] true false = (.error (.dangerous (some "A".toList)), s, seen) := by
  have hrun (files : FileTree) (result : Except Fault Unit)
      (hfirst : (paired.load files [] false false).1 = .ok ())
      (hsecond : ((paired.load files [] false false).2.1.load files [] true false).1 = result) :
      ∃ told seen, paired.load files [] false false =
          (.ok (), (paired.load files [] false false).2.1, told) ∧
        (paired.load files [] false false).2.1.load files [] true false =
          (result, ((paired.load files [] false false).2.1.load files [] true false).2.1, seen) :=
    ⟨_, _, Prod.ext hfirst rfl, Prod.ext hsecond rfl⟩
  refine ⟨?_, ?_, ?_⟩
  · obtain ⟨told, seen, hfirst, hsecond⟩ := hrun (FileTree.pair "A=${B-x}\n".toList "B=1\n".toList)
      (.ok ()) (by decide +kernel) (by decide +kernel)
    exact ⟨_, told, _, seen, hfirst, hsecond, by decide +kernel, by decide +kernel⟩
  · obtain ⟨told, seen, hfirst, hsecond⟩ := hrun (FileTree.pair "A=1\nB=${C}\nA=2\nC=${A}\n".toList [])
      (.ok ()) (by decide +kernel) (by decide +kernel)
    exact ⟨_, told, _, seen, hfirst, hsecond, by decide +kernel, by decide +kernel⟩
  · obtain ⟨told, seen, hfirst, hsecond⟩ := hrun
      (FileTree.pair "A=${B-x}://y\n".toList "B=php\n".toList)
      (.error (.dangerous (some "A".toList))) (by decide +kernel) (by decide +kernel)
    exact ⟨_, told, _, seen, hfirst, hsecond⟩

end Registry

end EnvFile
