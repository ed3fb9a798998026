import EnvFile.Proofs.ForwardReferences

namespace EnvFile

namespace Listing

open Scope

/-- Some draft of a name mentions another one. -/
def Refers (file : List (Text × Text)) (n m : Text) : Prop :=
  ∃ draft, (n, draft) ∈ file ∧ m ∈ Template.names (Template.ofText draft)

/-- What is known from elsewhere does not meddle with the value that a file gives to a key: of the
names that the key leads to nothing is known, and their declarations are admitted too; or none of
them has two declarations, and what is known of them has the text of what they finally are. -/
def Undisturbed (file : List (Text × Text)) (key : Text) (known : Text → Option Value)
    (admits : Text → Bool) (final : Text → Option Value) : Prop :=
  (∀ n, Relation.TransGen (Refers file) key n → known n = none ∧ admits n) ∨
    ∀ n, Relation.TransGen (Refers file) key n → (file.map Prod.fst).count n ≤ 1 ∧
      ∀ v, known n = some v → ∃ u, final n = some u ∧ v.splice = u.splice

variable {P : Text → Prop} {s s' base : Scope} {known : Text → Option Value}
  {drafts : Text → Option Text} {staged staged' overlay t t' values values' : Table Text Value}
  {file es : List (Text × Text)} {key : Text} {admits : Text → Bool}

theorem agreesOn_of_refers (hlimit : s.limit = s'.limit)
    (hdrafts : ∀ name, s.drafts.get? name = Table.find? name file.reverse)
    (hdrafts' : ∀ name, s'.drafts.get? name = Table.find? name file.reverse)
    (hclosed : ∀ n m, P n → Refers file n m → P m)
    (hvalue : ∀ n, P n → s.value? n = s'.value? n) : AgreesOn P s s' := by
  refine ⟨hlimit, hvalue, fun name _ => ?_, fun name draft hname hdraft m hm => ?_⟩
  · rw [hdrafts, hdrafts']
  · rw [hdrafts] at hdraft
    have hmem : (name, draft) ∈ file := List.mem_reverse.mp (Table.mem_of_find? hdraft)
    exact hclosed name m hname ⟨draft, hmem, hm⟩

/-- A key has the same value where only declarations are left out that do not bear on it. -/
theorem get?_of_foldlM_filter
    (ha : AgreesOn P { s with overlay := staged } { s' with overlay := staged' })
    (hes : ∀ e ∈ es, e.1 = key ∨ P e.1 →
      admits e.1 ∧ ∀ n ∈ Template.names (Template.ofText e.2), P n)
    (hkey : staged.get? key = staged'.get? key) (h : es.foldlM (stage s) staged = .ok t)
    (h' : (es.filter (admits ·.1)).foldlM (stage s') staged' = .ok t') :
    t.get? key = t'.get? key := by
  induction es generalizing staged staged' with
  | nil =>
    cases h
    cases h'
    exact hkey
  | cons e es ih =>
    obtain ⟨he, hes⟩ := List.forall_mem_cons.mp hes
    obtain ⟨v, hv, h⟩ := foldlM_cons_eq_ok.mp h
    by_cases hbears : e.1 = key ∨ P e.1
    · obtain ⟨hadmits, hnames⟩ := he hbears
      rw [List.filter_cons, if_pos hadmits] at h'
      obtain ⟨v', hv', h'⟩ := foldlM_cons_eq_ok.mp h'
      rw [value_congr ha e.1 hnames, hv'] at hv
      cases hv
      refine ih (ha.insert e.1 v) hes ?_ h h'
      rw [Table.get?_insert, Table.get?_insert, hkey]
    · rw [not_or] at hbears
      obtain ⟨hne, hP⟩ := hbears
      have hleft := ha.insert_left hP v
      have hkey' : (staged.insert e.1 v).get? key = staged'.get? key := by
        rw [Table.get?_insert, if_neg hne, hkey]
      rw [List.filter_cons] at h'
      split at h'
      next =>
        obtain ⟨v', _, h'⟩ := foldlM_cons_eq_ok.mp h'
        refine ih (hleft.insert_right hP v') hes ?_ h h'
        rw [Table.get?_insert _ _ _ v', if_neg hne, hkey']
      next => exact ih hleft hes hkey' h h'

theorem sees_insert (hs : Sees { base with overlay := overlay } known drafts) {v : Value} {u : Text}
    (hu : v.splice = .ok u) (hkey : Settles known drafts key (some u)) :
    Sees { base with overlay := overlay.insert key v } known drafts := by
  refine ⟨hs.known_eq, hs.drafts_eq, fun name w hw => ?_⟩
  simp only [Table.get?_insert] at hw
  split at hw
  next he =>
    cases hw
    exact he ▸ ⟨u, hu, hkey⟩
  next => exact hs.settled name w hw

/-- Declarations keep the names that count settled, if each of these has one draft and nothing else
is known of it. -/
theorem sees_of_agree (ha : AgreesOn P { s with overlay := staged } { base with overlay := overlay })
    (hs : Sees { base with overlay := overlay } known drafts)
    (hes : ∀ e ∈ es, P e.1 → Text.isKey e.1 ∧ known e.1 = none ∧ drafts e.1 = some e.2)
    (h : es.foldlM (stage s) staged = .ok values) :
    ∃ after, AgreesOn P { s with overlay := values } { base with overlay := after } ∧
      Sees { base with overlay := after } known drafts := by
  induction es generalizing staged overlay with
  | nil =>
    cases h
    exact ⟨overlay, ha, hs⟩
  | cons e es ih =>
    obtain ⟨he, hes⟩ := List.forall_mem_cons.mp hes
    obtain ⟨v, hv, h⟩ := foldlM_cons_eq_ok.mp h
    by_cases hP : P e.1
    · obtain ⟨hkey, hknown, hdraft⟩ := he hP
      have hnames := ha.closed e.1 e.2 hP
        ((ha.draft e.1 hP).trans ((hs.drafts_eq e.1).trans hdraft))
      rw [value_congr ha e.1 hnames] at hv
      obtain ⟨u, hu, hsettles⟩ := (reads_of_value hs hkey hdraft hv).settles hknown
      exact ih (ha.insert e.1 v) (sees_insert hs hu hsettles) hes h
    · exact ih (ha.insert_left hP v) hs hes h

/-- A draft has one value in all scopes that see the same. -/
theorem value_unique {draft : Text} {v w : Value} (hs : s.Sees known drafts)
    (hs' : s'.Sees known drafts) (hk : Text.isKey key) (hv : value s key draft = .ok v)
    (hw : value s' key draft = .ok w) : v = w := by
  obtain ⟨x, hx, _, hv⟩ := value_eq_ok.mp hv
  obtain ⟨y, hy, _, hw⟩ := value_eq_ok.mp hw
  rw [expand_of_isKey _ hk] at hx hy
  obtain ⟨names, hcomes⟩ := comesTo_of_expandIn hs hx
  obtain ⟨asked, hcomes'⟩ := comesTo_of_expandIn hs' hy
  obtain ⟨rfl, _⟩ := hcomes.unique hcomes'
  exact Except.ok.inj (hv.symm.trans hw)

/-- The last declaration of a key gives it its value, and for that the declarations before it count
only by the drafts that are seen. -/
theorem exists_value_of_last {above below : List (Text × Text)} {draft : Text}
    (ha : AgreesOn P { s with overlay := staged } { base with overlay := overlay })
    (hs : Sees { base with overlay := overlay } known drafts)
    (habove : ∀ e ∈ above, P e.1 → Text.isKey e.1 ∧ known e.1 = none ∧ drafts e.1 = some e.2)
    (hnames : ∀ n ∈ Template.names (Template.ofText draft), P n)
    (hlast : key ∉ below.map Prod.fst)
    (h : (above ++ (key, draft) :: below).foldlM (stage s) staged = .ok t) :
    ∃ after v, Sees { base with overlay := after } known drafts ∧
      value { base with overlay := after } key draft = .ok v ∧ t.get? key = some v := by
  rw [List.foldlM_append] at h
  obtain ⟨mid, hmid, h⟩ := Results.bind_eq_ok.mp h
  obtain ⟨v, hv, h⟩ := foldlM_cons_eq_ok.mp h
  obtain ⟨after, hagree, hsees⟩ := sees_of_agree ha hs habove hmid
  rw [value_congr hagree key hnames] at hv
  refine ⟨after, v, hsees, hv, ?_⟩
  rw [get?_of_foldlM_none h hlast, Table.get?_insert, if_pos rfl]

/-- What is known of some names may as well be staged: if it has the texts of what they finally are,
nothing else than the drafts is seen then. -/
theorem exists_sees_of_known {limit : Nat} {cache ambient final : Table Text Value}
    {drafts : Table Text Text}
    (hdrafts : ∀ name, drafts.get? name = Table.find? name file.reverse)
    (hclosed : ∀ n m, P n → Refers file n m → P m)
    (hknown : ∀ n, P n → ∀ v, elsewhere cache ambient n = some v →
      ∃ u, final.get? n = some u ∧ v.splice = u.splice)
    (hfinal : Sees ⟨final, ∅, ∅, drafts, limit⟩ (fun _ => none) drafts.get?) :
    ∃ founded, AgreesOn P ⟨∅, cache, ambient, drafts, limit⟩ ⟨founded, ∅, ∅, drafts, limit⟩ ∧
      Sees ⟨founded, ∅, ∅, drafts, limit⟩ (fun _ => none) drafts.get? := by
  classical
  let founded := (ambient.insertAll cache).restrict fun n => decide (P n)
  have hfounded (n : Text) (hn : P n) : founded.get? n = elsewhere cache ambient n := by
    simp only [founded, Table.get?_restrict, hn, decide_true, ↓reduceIte, Table.get?_insertAll]
    rfl
  refine ⟨founded, ?_, fun _ => rfl, fun _ => rfl, fun n v hv => ?_⟩
  · refine agreesOn_of_refers rfl hdrafts hdrafts hclosed fun n hn => ?_
    have hvalue : Scope.value? ⟨founded, ∅, ∅, drafts, limit⟩ n = (founded.get? n).or none := rfl
    rw [hvalue, Option.or_none, hfounded n hn]
    rfl
  · have hn : P n := by
      by_contra hn
      simp [founded, Table.get?_restrict, hn] at hv
    obtain ⟨u, hu, hsplice⟩ := hknown n hn v ((hfounded n hn).symm.trans hv)
    rw [hsplice]
    exact hfinal.settled n u hu

/-- What is known already of names that have one declaration each does no more to the value of a key
than those declarations, if it has their texts. -/
theorem get?_of_foldlM_known {w : Value} {limit : Nat} {cache ambient : Table Text Value}
    {drafts : Table Text Text}
    (hdrafts : ∀ name, drafts.get? name = Table.find? name file.reverse)
    (hkeys : ∀ e ∈ file, Text.isKey e.1)
    (honce : ∀ n, Relation.TransGen (Refers file) key n → (file.map Prod.fst).count n ≤ 1)
    (hknown : ∀ n, Relation.TransGen (Refers file) key n → ∀ v, elsewhere cache ambient n = some v →
      ∃ u, values.get? n = some u ∧ v.splice = u.splice)
    (hadmits : admits key)
    (h : file.foldlM (stage ⟨∅, ∅, ∅, drafts, limit⟩) ∅ = .ok values)
    (h' : (file.filter (admits ·.1)).foldlM (stage ⟨∅, cache, ambient, drafts, limit⟩) ∅ = .ok values')
    (hw : values.get? key = some w) : values'.get? key = some w := by
  let P := Relation.TransGen (Refers file) key
  let base : Scope := ⟨∅, ∅, ∅, drafts, limit⟩
  let store : Scope := ⟨∅, cache, ambient, drafts, limit⟩
  have hclosed : ∀ n m, P n → Refers file n m → P m := fun n m hn hm => hn.tail hm
  have hdeclared : ∀ e ∈ file, P e.1 →
      Text.isKey e.1 ∧ (none : Option Value) = none ∧ drafts.get? e.1 = some e.2 := by
    intro e he hP
    have hcount : (file.reverse.map Prod.fst).count e.1 ≤ 1 := by
      simpa [List.map_reverse] using honce e.1 hP
    refine ⟨hkeys e he, rfl, ?_⟩
    rw [hdrafts]
    exact Table.find?_of_count hcount (List.mem_reverse.mpr he)
  -- both readings see no more than the drafts: one begins with nothing, one with what is known
  have hempty : Sees { base with overlay := ∅ } (fun _ => none) drafts.get? :=
    ⟨fun _ => rfl, fun _ => rfl, fun _ _ hv => nomatch hv⟩
  have hblank : AgreesOn P { base with overlay := ∅ } { base with overlay := ∅ } :=
    agreesOn_of_refers rfl hdrafts hdrafts hclosed fun _ _ => rfl
  obtain ⟨final, hfinal, hsees⟩ := sees_of_agree hblank hempty hdeclared h
  have hsame (n : Text) (hn : P n) : values.get? n = final.get? n := by
    have hvalue := hfinal.value n hn
    have hleft : Scope.value? ⟨values, ∅, ∅, drafts, limit⟩ n = (values.get? n).or none := rfl
    have hright : Scope.value? ⟨final, ∅, ∅, drafts, limit⟩ n = (final.get? n).or none := rfl
    rwa [hleft, hright, Option.or_none, Option.or_none] at hvalue
  have hfinally : ∀ n, P n → ∀ v, elsewhere cache ambient n = some v →
      ∃ u, final.get? n = some u ∧ v.splice = u.splice := by
    intro n hn
    rw [← hsame n hn]
    exact hknown n hn
  have hfounded : ∃ founded, AgreesOn P { store with overlay := ∅ } { base with overlay := founded } ∧
      Sees { base with overlay := founded } (fun _ => none) drafts.get? :=
    exists_sees_of_known hdrafts hclosed hfinally hsees
  obtain ⟨founded, hagree, hstart⟩ := hfounded
  -- the last declaration of the key decides on both sides
  have hmem : key ∈ file.map Prod.fst := by
    by_contra hno
    rw [get?_of_foldlM_none h hno] at hw
    simp at hw
  obtain ⟨above, draft, below, hfile, hlast⟩ := Table.exists_last hmem
  have habove : ∀ e ∈ above, e ∈ file := fun e he => hfile ▸ List.mem_append_left _ he
  have hcurrent : (key, draft) ∈ file := by simp [hfile]
  have hnames : ∀ n ∈ Template.names (Template.ofText draft), P n :=
    fun n hn => .single ⟨draft, hcurrent, hn⟩
  rw [hfile] at h
  obtain ⟨after, v, hs, hv, hget⟩ := exists_value_of_last hblank hempty
    (fun e he => hdeclared e (habove e he)) hnames hlast h
  rw [hfile, List.filter_append, List.filter_cons, if_pos hadmits] at h'
  have hlast' : key ∉ (below.filter (admits ·.1)).map Prod.fst :=
    fun hin => hlast (List.map_subset _ (List.filter_subset_self _) hin)
  obtain ⟨after', v', hs', hv', hget'⟩ := exists_value_of_last hagree hstart
    (fun e he => hdeclared e (habove e (List.mem_of_mem_filter he))) hnames hlast' h'
  have hvalue := value_unique hs hs' (hkeys _ hcurrent) hv hv'
  rw [hget', ← hvalue, ← hget, hw]

/-- A key that is not disturbed has its value from a file whatever else is known. -/
theorem get?_of_undisturbed {lines : List Text} {cache ambient : Table Text Value}
    {filter : KeyFilter} {path path' : Text} {w : Value}
    (h : (entries ∅ ∅ ⟨.all, false, path⟩ lines).1 = .ok values)
    (h' : (entries cache ambient ⟨filter, false, path'⟩ lines).1 = .ok values')
    (hadmits : filter.admits key) (hw : values.get? key = some w)
    (hfree : Undisturbed (declared lines) key (elsewhere cache ambient) filter.admits values.get?) :
    values'.get? key = some w := by
  have hb := not_broken_of_entriesFrom rfl h
  rw [entries_all hb] at h
  have hfold : (entries cache ambient ⟨filter, false, path'⟩ lines).1 =
      ((declared lines).filter (filter.admits ·.1)).foldlM
        (stage ⟨∅, cache, ambient, Listing.drafts lines, defaultLimit⟩) ∅ :=
    entriesFrom_eq_foldlM (Or.inr hb)
  rw [hfold] at h'
  rcases hfree with hfree | hfree
  · let P := Relation.TransGen (Refers (declared lines)) key
    have hagree : AgreesOn P ⟨∅, ∅, ∅, Listing.drafts lines, defaultLimit⟩
        ⟨∅, cache, ambient, Listing.drafts lines, defaultLimit⟩ := by
      refine agreesOn_of_refers rfl (get?_drafts lines) (get?_drafts lines)
        (fun _ _ hn hm => hn.tail hm) fun n hn => ?_
      have hnone := (hfree n hn).1
      unfold elsewhere at hnone
      simp [Scope.value?, hnone]
    have hbears : ∀ e ∈ declared lines, e.1 = key ∨ P e.1 →
        filter.admits e.1 ∧ ∀ n ∈ Template.names (Template.ofText e.2), P n := by
      rintro e he (rfl | hP)
      · exact ⟨hadmits, fun n hn => .single ⟨e.2, he, hn⟩⟩
      · exact ⟨(hfree e.1 hP).2, fun n hn => hP.tail ⟨e.2, he, hn⟩⟩
    have hsame := get?_of_foldlM_filter hagree hbears rfl h h'
    rw [← hsame, hw]
  · exact get?_of_foldlM_known (get?_drafts lines) (fun _ => isKey_of_mem_declared)
      (fun n hn => (hfree n hn).1) (fun n hn => (hfree n hn).2) hadmits h h' hw

end Listing

end EnvFile
