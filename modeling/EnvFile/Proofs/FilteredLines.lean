import EnvFile.Proofs.Entries
import EnvFile.Proofs.FreshLoads
import EnvFile.Proofs.ReferredNames
import EnvFile.Proofs.SparedKeys

namespace EnvFile

namespace Template

mutual

/-- An item asks for none but the names that stand in it. -/
theorem mem_itemNames_of_fillItem? {given : Text → Option Text} :
    (item : Item) → (t : Text) → (asked : List Text) → fillItem? given item = some (t, asked) →
      ∀ n ∈ asked, n ∈ itemNames item
  | .literal _, _, _, h => by
    cases h
    simp
  | .value name, _, _, h => by
    obtain ⟨_, _, he⟩ := Option.map_eq_some_iff.mp h
    cases he
    simp [itemNames]
  | .withDefault name enough default, _, _, h => by
    unfold fillItem? at h
    split at h
    next =>
      obtain ⟨_, _, he⟩ := Option.map_eq_some_iff.mp h
      cases he
      simp [itemNames]
    next =>
      obtain ⟨⟨u, more⟩, hf, h⟩ := Option.bind_eq_some_iff.mp h
      obtain ⟨_, _, he⟩ := Option.map_eq_some_iff.mp h
      cases he
      have hdefault := mem_names_of_fill? default u more hf
      intro n hn
      exact List.mem_cons.mpr ((List.mem_cons.mp hn).imp_right (hdefault n))
  | .required name enough message, _, _, h => by
    obtain ⟨_, _, h⟩ := Option.bind_eq_some_iff.mp h
    obtain ⟨_, _, he⟩ := Option.map_eq_some_iff.mp h
    cases he
    simp [itemNames]
  | .broken _ _, _, _, h => by cases h

theorem mem_names_of_fill? {given : Text → Option Text} :
    (items : Template) → (t : Text) → (asked : List Text) → fill? given items = some (t, asked) →
      ∀ n ∈ asked, n ∈ names items
  | [], _, _, h => by
    cases h
    simp
  | item :: items, _, _, h => by
    obtain ⟨⟨t, first⟩, hf, h⟩ := Option.bind_eq_some_iff.mp h
    obtain ⟨⟨u, more⟩, hfs, he⟩ := Option.map_eq_some_iff.mp h
    cases he
    have hi := mem_itemNames_of_fillItem? item t first hf
    have his := mem_names_of_fill? items u more hfs
    intro n hn
    exact List.mem_append.mpr ((List.mem_append.mp hn).imp (hi n) (his n))

end

end Template

namespace Scope

open Template

/-- Two scopes find the names with a property alike, but for a key that is in the chain already.
Where a name has a value, it does not matter what its draft leads to. -/
structure AlikeBut (key : Text) (P : Text → Prop) (s s' : Scope) : Prop where
  limit : s.limit = s'.limit
  value : ∀ name, P name → name ≠ key → s.value? name = s'.value? name
  draft : ∀ name, P name → name ≠ key → s.drafts.get? name = s'.drafts.get? name
  closed : ∀ name draft, P name → name ≠ key → s.value? name = none →
    s.drafts.get? name = some draft → ∀ n ∈ names (Template.ofText draft), P n

variable {P : Text → Prop} {s s' : Scope} {key : Text}

theorem AlikeBut.findsAlike (h : AlikeBut key P s s') : FindsAlike [key] P s s' := by
  have hne {name : Text} (hc : name ∉ [key]) : name ≠ key := by simpa using hc
  refine ⟨h.limit, fun name hn hc => ?_, fun name draft hn hc hd => ?_⟩
  · exact definition_congr (h.value name hn (hne hc)) (h.draft name hn (hne hc))
  · obtain ⟨hvalue, hdraft⟩ := definition_eq_draft.mp hd
    exact h.closed name draft hn (hne hc) hvalue hdraft

variable {known known' : Text → Option Value} {drafts drafts' : Text → Option Text}

/-- What a name settles to hangs only on the names that its draft leads to. -/
theorem Settles.congr (hknown : ∀ n, P n → known n = known' n)
    (hdrafts : ∀ n, P n → drafts n = drafts' n)
    (hclosed : ∀ n draft, P n → known n = none → drafts n = some draft →
      ∀ m ∈ names (Template.ofText draft), P m)
    {name : Text} {x : Option Text} (h : Settles known drafts name x) (hn : P name) :
    Settles known' drafts' name x := by
  induction h with
  | known hk hs => exact .known ((hknown _ hn).symm.trans hk) hs
  | drafted given hk hd hf _ hv hs ih =>
    refine .drafted given ((hknown _ hn).symm.trans hk) ((hdrafts _ hn).symm.trans hd) hf ?_ hv hs
    intro n hm
    exact ih n hm (hclosed _ _ hn hk hd n (mem_names_of_fill? _ _ _ hf n hm))
  | absent hk hd => exact .absent ((hknown _ hn).symm.trans hk) ((hdrafts _ hn).symm.trans hd)

end Scope

namespace Listing

open Scope

theorem value_alike {key draft : Text} {P : Text → Prop} {s s' : Scope} (h : AlikeBut key P s s')
    (hk : Text.isKey key) (hn : ∀ n ∈ Template.names (Template.ofText draft), P n) :
    value s key draft = value s' key draft := by
  have hexpand : s.expandIn (s.limit - 1) [key] draft = s'.expandIn (s.limit - 1) [key] draft :=
    expandIn_alike h.findsAlike (by simp) hn
  unfold value
  rw [expand_of_isKey s hk, expand_of_isKey s' hk, hexpand, h.limit]

/-- Where nothing else is known of a name, its draft asks for another one. -/
def Asks (file : List (Text × Text)) (known : Text → Option Value) (n m : Text) : Prop :=
  known n = none ∧ Mentions file n m

/-- A name that stands in a draft, or one that the names of that ask for. -/
def ComesUpon (file : List (Text × Text)) (known : Text → Option Value) (draft n : Text) : Prop :=
  ∃ m ∈ Template.names (Template.ofText draft), Relation.ReflTransGen (Asks file known) m n

/-- A name that the lines of wanted keys come upon. -/
def Reached (file : List (Text × Text)) (known : Text → Option Value) (admits : Text → Bool)
    (n : Text) : Prop :=
  ∃ key draft, (key, draft) ∈ file ∧ admits key ∧ ComesUpon file known draft n

/-- A name that they come upon although its line is not wanted, or one that its draft leads to. -/
def Behind (file : List (Text × Text)) (known : Text → Option Value) (admits : Text → Bool)
    (n : Text) : Prop :=
  ∃ m, Reached file known admits m ∧ m ∈ file.map Prod.fst ∧ admits m = false ∧
    Relation.ReflTransGen (Asks file known) m n

/-- A name whose draft tells as much as its line: it has no two declarations, and if something else
is known of it, that has the text of its final value, and no line for it that is wanted comes upon the
name itself. -/
def Dispensable (file : List (Text × Text)) (known : Text → Option Value) (admits : Text → Bool)
    (final : Text → Option Value) (n : Text) : Prop :=
  (file.map Prod.fst).count n ≤ 1 ∧
    ∀ v u, known n = some v → final n = some u → v.splice = u.splice ∧
      ∀ draft, (n, draft) ∈ file → admits n → ¬ComesUpon file known draft n

variable {file es : List (Text × Text)} {known : Text → Option Value} {admits : Text → Bool}
  {n m key draft : Text}

theorem ComesUpon.asks (h : ComesUpon file known draft n) (hm : Asks file known n m) :
    ComesUpon file known draft m := by
  obtain ⟨l, hl, hreach⟩ := h
  exact ⟨l, hl, hreach.tail hm⟩

theorem Behind.asks (h : Behind file known admits n) (hm : Asks file known n m) :
    Behind file known admits m := by
  obtain ⟨l, hreached, hdeclared, hnot, hreach⟩ := h
  exact ⟨l, hreached, hdeclared, hnot, hreach.tail hm⟩

/-- What a wanted line comes upon and is declared itself, is wanted or behind. -/
theorem Reached.admits_of_not_behind (h : Reached file known admits n)
    (hdeclared : n ∈ file.map Prod.fst) (hnot : ¬Behind file known admits n) : admits n := by
  by_contra hadmits
  exact hnot ⟨n, h, hdeclared, by simpa using hadmits, .refl⟩

variable {b : Scope} {P R : Text → Prop} {staged overlay values : Table Text Value}

open Classical in
/-- A scope as the draft of a key sees it. Of the key itself nothing is known. What has been staged
counts as known from elsewhere, but for names with a property, of which the overlay holds some. -/
noncomputable def seenFrom (b : Scope) (P : Text → Prop) (staged : Table Text Value)
    (key draft : Text) (overlay : Table Text Value) : Scope where
  overlay := (overlay.restrict fun n => P n).erase key
  cache := ((b.ambient.insertAll b.cache).insertAll (staged.restrict fun n => ¬P n)).erase key
  ambient := ∅
  drafts := b.drafts.insert key draft
  limit := b.limit

theorem get?_cache_seenFrom (hn : n ≠ key) (hP : P n) :
    (seenFrom b P staged key draft overlay).cache.get? n = elsewhere b.cache b.ambient n := by
  simp [seenFrom, elsewhere, Table.get?_restrict, hn.symm, hP]

theorem get?_overlay_seenFrom {v : Value} :
    (seenFrom b P staged key draft overlay).overlay.get? n = some v ↔
      n ≠ key ∧ P n ∧ overlay.get? n = some v := by
  by_cases hn : n = key
  · simp [seenFrom, hn]
  · by_cases hP : P n
    · simp [seenFrom, Table.get?_restrict, Ne.symm hn, hn, hP]
    · simp [seenFrom, Table.get?_restrict, Ne.symm hn, hP]

theorem value?_seenFrom (hn : n ≠ key) (hstaged : ¬P n → overlay.get? n = staged.get? n) :
    (seenFrom b P staged key draft overlay).value? n =
      Scope.value? { b with overlay := overlay } n := by
  by_cases hP : P n
  · simp [seenFrom, Scope.value?, Table.get?_restrict, hn.symm, hP]
  · simp [seenFrom, Scope.value?, Table.get?_restrict, hn.symm, hP, hstaged hP]

/-- A name with one declaration has that for its draft. -/
theorem draft_of_count (hdrafts : ∀ name, b.drafts.get? name = Table.find? name file.reverse)
    (h : (key, draft) ∈ file) (hcount : (file.map Prod.fst).count key ≤ 1) :
    b.drafts.get? key = some draft := by
  have hreverse : (file.reverse.map Prod.fst).count key ≤ 1 := by
    simpa [List.map_reverse] using hcount
  rw [hdrafts]
  exact Table.find?_of_count hreverse (List.mem_reverse.mpr h)

/-- And its value stays to the end. -/
theorem get?_of_count {e : Text × Text} {v : Value} (hsub : (e :: es).Sublist file)
    (hcount : (file.map Prod.fst).count e.1 ≤ 1)
    (h : es.foldlM (stage b) (staged.insert e.1 v) = .ok values) : values.get? e.1 = some v := by
  have hrest : e.1 ∉ es.map Prod.fst := by
    have hle := (hsub.map Prod.fst).count_le e.1
    rw [List.map_cons, List.count_cons_self] at hle
    exact List.count_eq_zero.mp (by omega)
  rw [get?_of_foldlM_none h hrest, Table.get?_insert, if_pos rfl]

/-- What is staged of the names with the property has settled. -/
def Grounded (known : Text → Option Value) (drafts : Text → Option Text) (P : Text → Prop)
    (staged : Table Text Value) : Prop :=
  ∀ n v, P n → staged.get? n = some v → ∃ t, v.splice = .ok t ∧ Settles known drafts n (some t)

section

variable (hdrafts : ∀ name, b.drafts.get? name = Table.find? name file.reverse)
  (hknown : ∀ name, elsewhere b.cache b.ambient name = known name)
include hdrafts hknown

theorem alikeBut_seenFrom (hR : ∀ n m, R n → Asks file known n m → R m)
    (hstaged : ∀ n, R n → ¬P n → overlay.get? n = staged.get? n) :
    AlikeBut key R { b with overlay := overlay } (seenFrom b P staged key draft overlay) := by
  refine ⟨rfl, fun n hn hne => ?_, fun n _ hne => ?_, fun n d hn _ hv hd m hm => ?_⟩
  · exact (value?_seenFrom hne (hstaged n hn)).symm
  · simp [seenFrom, hne.symm]
  · have hnone : known n = none := by
      rw [← hknown n]
      exact (Option.or_eq_none_iff.mp hv).2
    exact hR n m hn ⟨hnone, d, (hdrafts n).symm.trans hd, hm⟩

/-- A name with the property settles alike with the key's own draft and without it. -/
theorem settles_seenFrom_iff (hP : ∀ n m, P n → Asks file known n m → P m)
    (hkey : P key → known key = none ∧ b.drafts.get? key = some draft) (hn : P n)
    {x : Option Text} :
    Settles known b.drafts.get? n x ↔
      Settles (seenFrom b P staged key draft overlay).cache.get? (b.drafts.insert key draft).get? n x := by
  have hsame (m : Text) (hm : P m) :
      known m = (seenFrom b P staged key draft overlay).cache.get? m := by
    by_cases he : m = key
    · rw [he, (hkey (he ▸ hm)).1]
      simp [seenFrom]
    · rw [get?_cache_seenFrom he hm, hknown]
  have hsame' (m : Text) (hm : P m) : b.drafts.get? m = (b.drafts.insert key draft).get? m := by
    rw [Table.get?_insert]
    split
    next he => exact he ▸ (hkey (he ▸ hm)).2
    next => rfl
  have hclosed (n draft : Text) (hn : P n) (hk : known n = none) (hd : b.drafts.get? n = some draft)
      (m : Text) (hm : m ∈ Template.names (Template.ofText draft)) : P m :=
    hP n m hn ⟨hk, draft, (hdrafts n).symm.trans hd, hm⟩
  constructor
  · exact fun h => h.congr hsame hsame' hclosed hn
  · refine fun h => h.congr (fun m hm => (hsame m hm).symm) (fun m hm => (hsame' m hm).symm) ?_ hn
    intro n d hn hk hd
    exact hclosed n d hn ((hsame n hn).trans hk) ((hsame' n hn).trans hd)

theorem sees_seenFrom (hP : ∀ n m, P n → Asks file known n m → P m)
    (hkey : P key → known key = none ∧ b.drafts.get? key = some draft)
    (hg : Grounded known b.drafts.get? P staged)
    (hoverlay : ∀ n v, overlay.get? n = some v → staged.get? n = some v) :
    (seenFrom b P staged key draft overlay).Sees
      (seenFrom b P staged key draft overlay).cache.get? (b.drafts.insert key draft).get? := by
  refine ⟨fun n => Option.or_none, fun _ => rfl, fun n v hv => ?_⟩
  obtain ⟨_, hn, hv⟩ := get?_overlay_seenFrom.mp hv
  obtain ⟨t, ht, hsettles⟩ := hg n v hn (hoverlay n v hv)
  exact ⟨t, ht, (settles_seenFrom_iff hdrafts hknown hP hkey hn).mp hsettles⟩

/-- What a draft reads as in the scope that it sees. -/
theorem reads_seenFrom {v : Value} (hP : ∀ n m, P n → Asks file known n m → P m)
    (hR : ∀ n m, R n → Asks file known n m → R m) (hk : Text.isKey key)
    (hnames : ∀ n ∈ Template.names (Template.ofText draft), R n)
    (hkey : P key → known key = none ∧ b.drafts.get? key = some draft)
    (hg : Grounded known b.drafts.get? P staged)
    (hv : value { b with overlay := staged } key draft = .ok v) :
    Reads (seenFrom b P staged key draft staged).cache.get? (b.drafts.insert key draft).get? key v := by
  have halike : AlikeBut key R { b with overlay := staged }
      (seenFrom b P staged key draft staged) :=
    alikeBut_seenFrom hdrafts hknown hR fun _ _ _ => rfl
  have hsees : (seenFrom b P staged key draft staged).Sees
      (seenFrom b P staged key draft staged).cache.get? (b.drafts.insert key draft).get? :=
    sees_seenFrom hdrafts hknown hP hkey hg fun _ _ h => h
  rw [value_alike halike hk hnames] at hv
  exact reads_of_value hsees hk (by simp) hv

/-- The value of a key whose line is read among settled names settles, too. -/
theorem settles_of_value {v : Value} (hP : ∀ n m, P n → Asks file known n m → P m)
    (hk : Text.isKey key) (hn : P key) (hnone : known key = none)
    (hdraft : b.drafts.get? key = some draft) (hg : Grounded known b.drafts.get? P staged)
    (hv : value { b with overlay := staged } key draft = .ok v) :
    ∃ t, v.splice = .ok t ∧ Settles known b.drafts.get? key (some t) := by
  have hkey : P key → known key = none ∧ b.drafts.get? key = some draft :=
    fun _ => ⟨hnone, hdraft⟩
  have hnames : ∀ m ∈ Template.names (Template.ofText draft), P m :=
    fun m hm => hP key m hn ⟨hnone, draft, (hdrafts key).symm.trans hdraft, hm⟩
  have hreads := reads_seenFrom hdrafts hknown hP hP hk hnames hkey hg hv
  obtain ⟨t, ht, hsettles⟩ := hreads.settles (by simp [seenFrom])
  exact ⟨t, ht, (settles_seenFrom_iff hdrafts hknown hP hkey hn).mpr hsettles⟩

/-- A draft reads as the same value where fewer names are staged, unless a chain of names gets too
deep, if those that are missing have the property, and have settled. -/
theorem value_of_fewer {v : Value} (hP : ∀ n m, P n → Asks file known n m → P m)
    (hR : ∀ n m, R n → Asks file known n m → R m) (hk : Text.isKey key)
    (hnames : ∀ n ∈ Template.names (Template.ofText draft), R n)
    (hkey : P key → known key = none ∧ b.drafts.get? key = some draft)
    (hg : Grounded known b.drafts.get? P staged)
    (hfewer : ∀ n v, overlay.get? n = some v → staged.get? n = some v)
    (hmissing : ∀ n, R n → ¬P n → overlay.get? n = staged.get? n)
    (hv : value { b with overlay := staged } key draft = .ok v) :
    OrTooDeep (value { b with overlay := overlay } key draft) v := by
  have hreads := reads_seenFrom hdrafts hknown hP hR hk hnames hkey hg hv
  have halike : AlikeBut key R { b with overlay := overlay }
      (seenFrom b P staged key draft overlay) :=
    alikeBut_seenFrom hdrafts hknown hR hmissing
  have hsees := sees_seenFrom hdrafts hknown hP hkey hg hfewer
  rw [value_alike halike hk hnames]
  exact value_of_reads hsees hk (by simp [seenFrom]) (by simp) hreads

/-- A draft reads as the same value where only what is wanted is staged, unless a chain of names gets
too deep on its way through lines that are not wanted. -/
theorem value_of_admitted {v : Value} (hk : Text.isKey key) (hdeclared : (key, draft) ∈ file)
    (hadmits : admits key) (hg : Grounded known b.drafts.get? (Behind file known admits) staged)
    (hstaged : ∀ n ∈ staged.keys, n ∈ file.map Prod.fst)
    (hkey : Behind file known admits key → ComesUpon file known draft key →
      known key = none ∧ b.drafts.get? key = some draft)
    (hv : value { b with overlay := staged } key draft = .ok v) :
    value { b with overlay := staged.restrict admits } key draft = .ok v ∨
      (∃ n, Behind file known admits n) ∧ ∃ chain limit,
        value { b with overlay := staged.restrict admits } key draft =
          .error (.tooDeep chain limit) := by
  let R := ComesUpon file known draft
  let P := fun n => Behind file known admits n ∧ R n
  have hnames : ∀ n ∈ Template.names (Template.ofText draft), R n := fun n hn => ⟨n, hn, .refl⟩
  have hR : ∀ n m, R n → Asks file known n m → R m := fun _ _ h hm => h.asks hm
  have hP : ∀ n m, P n → Asks file known n m → P m := fun _ _ h hm => ⟨h.1.asks hm, h.2.asks hm⟩
  have hmissing : ∀ n, R n → ¬Behind file known admits n →
      (staged.restrict admits).get? n = staged.get? n := by
    intro n hn hnot
    have hreached : Reached file known admits n := ⟨key, draft, hdeclared, hadmits, hn⟩
    rw [Table.get?_restrict]
    split
    next => rfl
    next hnotAdmits =>
      symm
      rw [Table.get?_eq_none_iff]
      exact fun hmem => hnotAdmits (hreached.admits_of_not_behind (hstaged n hmem) hnot)
  by_cases hexists : ∃ n, Behind file known admits n
  · have hfewer : ∀ n v, (staged.restrict admits).get? n = some v → staged.get? n = some v := by
      intro n v hn
      rw [Table.get?_restrict] at hn
      split at hn
      next => exact hn
      next => simp at hn
    have hground : Grounded known b.drafts.get? P staged := fun n v hn => hg n v hn.1
    have hdeep : OrTooDeep (value { b with overlay := staged.restrict admits } key draft) v :=
      value_of_fewer hdrafts hknown hP hR hk hnames (fun h => hkey h.1 h.2) hground hfewer
        (fun n hn hnot => hmissing n hn fun h => hnot ⟨h, hn⟩) hv
    exact hdeep.imp_right fun hdeep => ⟨hexists, hdeep⟩
  · -- no line is left out that matters: what is found is the same throughout
    have halike : AlikeBut key R { b with overlay := staged.restrict admits }
        { b with overlay := staged } := by
      refine ⟨rfl, fun n hn _ => ?_, fun _ _ _ => rfl, fun n d hn _ hvalue hd m hm => ?_⟩
      · unfold Scope.value?
        rw [hmissing n hn fun h => hexists ⟨n, h⟩]
      · have hfree : known n = none := by
          rw [← hknown n]
          exact (Option.or_eq_none_iff.mp hvalue).2
        exact hR n m hn ⟨hfree, d, (hdrafts n).symm.trans hd, hm⟩
    rw [value_alike halike hk hnames]
    exact Or.inl hv

/-- A declaration of a dispensable name leaves settled what is staged. -/
theorem Grounded.insert {e : Text × Text} {v : Value} (hkeys : ∀ e ∈ file, Text.isKey e.1)
    (hsub : (e :: es).Sublist file)
    (hspare : ∀ n, Behind file known admits n → Dispensable file known admits values.get? n)
    (hg : Grounded known b.drafts.get? (Behind file known admits) staged)
    (hv : value { b with overlay := staged } e.1 e.2 = .ok v)
    (h : es.foldlM (stage b) (staged.insert e.1 v) = .ok values) :
    Grounded known b.drafts.get? (Behind file known admits) (staged.insert e.1 v) := by
  have hmem : e ∈ file := hsub.subset List.mem_cons_self
  intro n w hn hw
  rw [Table.get?_insert] at hw
  split at hw
  next he =>
    cases hw
    subst he
    obtain ⟨hcount, hfinal⟩ := hspare e.1 hn
    cases hk : known e.1 with
    | none =>
      exact settles_of_value hdrafts hknown (fun _ _ h hm => h.asks hm) (hkeys e hmem) hn hk
        (draft_of_count hdrafts hmem hcount) hg hv
    | some u =>
      obtain ⟨t, ht⟩ := splice_of_value hv
      obtain ⟨hsplice, _⟩ := hfinal u v hk (get?_of_count hsub hcount h)
      exact ⟨t, ht, .known hk (hsplice.trans ht)⟩
  next => exact hg n w hn hw

/-- Lines that are not wanted may as well be left out. -/
theorem foldlM_filter (hkeys : ∀ e ∈ file, Text.isKey e.1) (hsub : es.Sublist file)
    (hspare : ∀ n, Behind file known admits n → Dispensable file known admits values.get? n)
    (hg : Grounded known b.drafts.get? (Behind file known admits) staged)
    (hstaged : ∀ n ∈ staged.keys, n ∈ file.map Prod.fst)
    (h : es.foldlM (stage b) staged = .ok values) :
    (es.filter (admits ·.1)).foldlM (stage b) (staged.restrict admits) =
        .ok (values.restrict admits) ∨
      (∃ n, Behind file known admits n) ∧ ∃ chain limit,
        (es.filter (admits ·.1)).foldlM (stage b) (staged.restrict admits) =
          .error (.tooDeep chain limit) := by
  induction es generalizing staged with
  | nil =>
    cases h
    exact Or.inl rfl
  | cons e es ih =>
    obtain ⟨v, hv, h⟩ := foldlM_cons_eq_ok.mp h
    have hmem : e ∈ file := hsub.subset List.mem_cons_self
    have hrest := ih ((List.sublist_cons_self e es).trans hsub)
      (hg.insert hdrafts hknown hkeys hsub hspare hv h)
      (fun n hn => (Table.mem_keys_insert.mp hn).elim (hstaged n)
        fun he => he ▸ List.mem_map_of_mem hmem) h
    by_cases hadmits : admits e.1
    · rw [List.filter_cons, if_pos hadmits, List.foldlM_cons]
      rw [Table.restrict_insert_of_pos hadmits] at hrest
      have hkey : Behind file known admits e.1 → ComesUpon file known e.2 e.1 →
          known e.1 = none ∧ b.drafts.get? e.1 = some e.2 := by
        intro hn hupon
        obtain ⟨hcount, hfinal⟩ := hspare e.1 hn
        refine ⟨Option.eq_none_iff_forall_ne_some.mpr fun u hu => ?_,
          draft_of_count hdrafts hmem hcount⟩
        obtain ⟨_, hnot⟩ := hfinal u v hu (get?_of_count hsub hcount h)
        exact hnot e.2 hmem hadmits hupon
      rcases value_of_admitted hdrafts hknown (hkeys e hmem) hmem hadmits hg hstaged hkey hv with
        hvalue | ⟨hexists, chain, limit, hvalue⟩
      · have hstage : stage b (staged.restrict admits) e =
            .ok ((staged.restrict admits).insert e.1 v) := by
          rw [stage, hvalue]
          rfl
        rw [hstage]
        exact hrest
      · refine Or.inr ⟨hexists, chain, limit, ?_⟩
        rw [stage, hvalue]
        rfl
    · rw [List.filter_cons, if_neg hadmits]
      rw [Table.restrict_insert_of_neg hadmits] at hrest
      exact hrest

end

theorem entries_filtered {cache ambient : Table Text Value} {tolerant : Bool} {path : Text}
    {filter : KeyFilter} {lines : List Text}
    (h : (entries cache ambient ⟨.all, tolerant, path⟩ lines).1 = .ok values)
    (hspare : ∀ n, Behind (declared lines) (elsewhere cache ambient) filter.admits n →
      Dispensable (declared lines) (elsewhere cache ambient) filter.admits values.get? n) :
    (entries cache ambient ⟨filter, tolerant, path⟩ lines).1 =
        .ok (values.restrict filter.admits) ∨
      (∃ n, Behind (declared lines) (elsewhere cache ambient) filter.admits n) ∧
        ∃ chain limit, (entries cache ambient ⟨filter, tolerant, path⟩ lines).1 =
          .error (.tooDeep chain limit) := by
  have hb : tolerant ∨ ∀ line ∈ lines, ∀ problem, Line.ofText line ≠ .broken problem := by
    cases tolerant with
    | true => exact Or.inl rfl
    | false => exact Or.inr (not_broken_of_entriesFrom rfl h)
  have hfold (filter : KeyFilter) : (entries cache ambient ⟨filter, tolerant, path⟩ lines).1 =
      ((declared lines).filter (filter.admits ·.1)).foldlM
        (stage ⟨∅, cache, ambient, Listing.drafts lines, defaultLimit⟩) ∅ :=
    entriesFrom_eq_foldlM hb
  have hall : (declared lines).filter (KeyFilter.all.admits ·.1) = declared lines := by
    simp [KeyFilter.admits]
  rw [hfold, hall] at h
  rw [hfold]
  exact foldlM_filter (get?_drafts lines) (fun _ => rfl) (fun _ => isKey_of_mem_declared)
    (List.Sublist.refl _) hspare (fun _ _ _ hv => by simp at hv)
    (fun _ hn => absurd hn List.not_mem_nil) h

end Listing

namespace Registry

open Listing

/-- Reading a file for some keys only gives the entries of these in the same order, as long as the
drafts that their lines come upon tell as much as the lines left out. But a chain of names may get too
deep where such a line would have cut it short. -/
theorem entriesAt_filtered {r : Registry} {files : FileTree} {path : Text} {tolerant useKept : Bool}
    {lines : List Text} {values : Table Text Value} (filter : KeyFilter)
    (hlines : (r.linesAt files (Path.ofText path) useKept).1 = .ok lines)
    (h : (r.entriesAt files ⟨.all, tolerant, useKept⟩ path).1 = .ok values)
    (hspare : ∀ n, Behind (declared lines) (elsewhere r.cache r.ambient.table) filter.admits n →
      Dispensable (declared lines) (elsewhere r.cache r.ambient.table) filter.admits values.get? n) :
    (r.entriesAt files ⟨filter, tolerant, useKept⟩ path).1 = .ok (values.restrict filter.admits) ∨
      (∃ n, Behind (declared lines) (elsewhere r.cache r.ambient.table) filter.admits n) ∧
        ∃ chain limit, (r.entriesAt files ⟨filter, tolerant, useKept⟩ path).1 =
          .error (.tooDeep chain limit) := by
  have hentries (filter : KeyFilter) := (entriesAt_of_lines (m := ⟨filter, tolerant, useKept⟩) hlines).1
  rw [hentries] at h ⊢
  exact entries_filtered h hspare

/-- The line for `A` comes upon that for `C`, which is left out, and so upon `B`, which is in the cache
with the text that it has in the file. -/
theorem entriesAt_filtered_cached :
    let r := { blank "/".toList false true with
      cache := .ofList [("B".toList, .bool true), ("E".toList, .int 5)] }
    let files := FileTree.holding "B=on\nC=${B}x\nA=${C}-${E}${D:-0}\n".toList
    let path := "/.env".toList
    let lines := ["B=on".toList, "C=${B}x".toList, "A=${C}-${E}${D:-0}".toList]
    let values := Table.ofList [("B".toList, .bool true), ("C".toList, .text "truex".toList),
      ("A".toList, .text "truex-50".toList)]
    let filter := KeyFilter.among ["A".toList]
    let known := elsewhere r.cache r.ambient.table
    (r.linesAt files (Path.ofText path) true).1 = .ok lines ∧
    (r.entriesAt files ⟨.all, false, true⟩ path).1 = .ok values ∧
    Behind (declared lines) known filter.admits "C".toList ∧
    (∀ n, Behind (declared lines) known filter.admits n →
      Dispensable (declared lines) known filter.admits values.get? n) ∧
    ((r.entriesAt files ⟨filter, false, true⟩ path).1 = .ok (values.restrict filter.admits) ∨
      (∃ n, Behind (declared lines) known filter.admits n) ∧
        ∃ chain limit, (r.entriesAt files ⟨filter, false, true⟩ path).1 =
          .error (.tooDeep chain limit)) := by
  intro r files path lines values filter known
  have hlines : (r.linesAt files (Path.ofText path) true).1 = .ok lines := by decide +kernel
  have hvalues : (r.entriesAt files ⟨.all, false, true⟩ path).1 = .ok values := by decide +kernel
  have hupon : ComesUpon (declared lines) known "${C}-${E}${D:-0}".toList "C".toList :=
    ⟨"C".toList, by decide +kernel, .refl⟩
  have hbehind : Behind (declared lines) known filter.admits "C".toList :=
    ⟨"C".toList, ⟨"A".toList, _, by decide +kernel, rfl, hupon⟩, by decide +kernel, rfl, .refl⟩
  have hnodup : ((declared lines).map Prod.fst).Nodup := by decide +kernel
  have hknown : ∀ e ∈ values.entries, (known e.1).all fun v =>
      decide (v.splice = e.2.splice) && !filter.admits e.1 := by decide +kernel
  have hspare : ∀ n, Behind (declared lines) known filter.admits n →
      Dispensable (declared lines) known filter.admits values.get? n := by
    intro n _
    refine ⟨List.nodup_iff_count_le_one.mp hnodup n, fun v u hv hu => ?_⟩
    have hentry := hknown (n, u) (Table.mem_entries_iff.mpr hu)
    simp only [hv, Option.all_some, Bool.and_eq_true, decide_eq_true_eq, Bool.not_eq_true'] at hentry
    exact ⟨hentry.1, fun _ _ hadmits => absurd hadmits (by simp [hentry.2])⟩
  exact ⟨hlines, hvalues, hbehind, hspare, entriesAt_filtered filter hlines hvalues hspare⟩

/-- A line that is left out is read by its last draft, or not at all if its name is known, and in a
longer chain of names; and a key may come back to itself there. -/
theorem entriesAt_filtered_otherwise :
    let read := fun (cache : Table Text Value) (text : String) (filter : KeyFilter) =>
      ({ blank "/".toList false true with cache }.entriesAt (FileTree.holding text.toList)
        ⟨filter, false, true⟩ "/.env".toList).1
    let only := KeyFilter.among ["A".toList]
    (read ∅ "B=1\nA=${B}\nB=2\n" .all =
        .ok (.ofList [("B".toList, .int 2), ("A".toList, .int 1)]) ∧
      read ∅ "B=1\nA=${B}\nB=2\n" only = .ok (.ofList [("A".toList, .int 2)])) ∧
    (read (.ofList [("B".toList, .int 5)]) "B=1\nA=${B}\n" .all =
        .ok (.ofList [("B".toList, .int 1), ("A".toList, .int 1)]) ∧
      read (.ofList [("B".toList, .int 5)]) "B=1\nA=${B}\n" only =
        .ok (.ofList [("A".toList, .int 5)])) ∧
    (read (.ofList [("A".toList, .int 1)]) "B=${A}\nA=${B}\n" .all =
        .ok (.ofList [("B".toList, .int 1), ("A".toList, .int 1)]) ∧
      read (.ofList [("A".toList, .int 1)]) "B=${A}\nA=${B}\n" only =
        .error (.recursive ["A".toList, "B".toList, "A".toList])) ∧
    let chained := "K=1\nJ=${K}\nI=${J}\nH=${I}\nG=${H}\nF=${G}\nE=${F}\nD=${E}\nC=${D}\n" ++
      "B=${C}\nA=${B}\n"
    (read ∅ chained .all).map (·.get? "A".toList) = .ok (some (.int 1)) ∧
      read ∅ chained only = .error (.tooDeep ["A".toList, "B".toList, "C".toList, "D".toList,
        "E".toList, "F".toList, "G".toList, "H".toList, "I".toList, "J".toList, "K".toList] 10) := by
  decide +kernel

end Registry

end EnvFile
