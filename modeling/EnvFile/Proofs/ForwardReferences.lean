import EnvFile.Proofs.DeclarationOrder
import EnvFile.Proofs.Readings
import EnvFile.Proofs.Resolving

namespace EnvFile

theorem Table.find?_of_count {k : Text} {v : Text} {es : List (Text × Text)}
    (h : (es.map Prod.fst).count k ≤ 1) (hm : (k, v) ∈ es) : find? k es = some v := by
  induction es with
  | nil => simp at hm
  | cons e es ih =>
    rw [List.map_cons] at h
    rcases List.mem_cons.mp hm with rfl | hm
    · simp [find?]
    · have hmem : k ∈ es.map Prod.fst := List.mem_map_of_mem hm
      have hpos := List.count_pos_iff.mpr hmem
      have hne : e.1 ≠ k := by
        rintro rfl
        rw [List.count_cons_self] at h
        omega
      rw [List.count_cons_of_ne hne] at h
      rw [find?, if_neg hne, ih h hm]

/-- An entry of a key is its last one, or there is one further on. -/
theorem Table.exists_last {k : Text} {es : List (Text × Text)} (h : k ∈ es.map Prod.fst) :
    ∃ above v below, es = above ++ (k, v) :: below ∧ k ∉ below.map Prod.fst := by
  induction es with
  | nil => simp at h
  | cons e es ih =>
    by_cases hm : k ∈ es.map Prod.fst
    · obtain ⟨above, v, below, rfl, hlast⟩ := ih hm
      exact ⟨e :: above, v, below, rfl, hlast⟩
    · obtain rfl : k = e.1 := (List.mem_cons.mp h).resolve_right hm
      exact ⟨[], e.2, es, rfl, hm⟩

namespace Scope

open Template

variable {s s' : Scope} {expand expand' : List Text → Text → Except Fault Text} {chain : List Text}

mutual

/-- An item yields the same text where the names in it are found alike. -/
theorem expandItem_of_lookUp : (item : Item) → (t : Text) →
    (∀ n ∈ itemNames item, ∀ x, s.lookUp expand chain n = .ok x → s'.lookUp expand' chain n = .ok x) →
      s.expandItem expand chain item = .ok t → s'.expandItem expand' chain item = .ok t
  | .literal _, _, _, h => h
  | .value name, _, hl, h => by
    obtain ⟨x, hx, h⟩ := Results.bind_eq_ok.mp h
    exact Results.bind_eq_ok.mpr ⟨x, hl name (by simp [itemNames]) x hx, h⟩
  | .withDefault name enough default, t, hl, h => by
    rw [expandItem_withDefault] at h ⊢
    obtain ⟨x, hx, h⟩ := Results.bind_eq_ok.mp h
    refine Results.bind_eq_ok.mpr ⟨x, hl name (by simp [itemNames]) x hx, ?_⟩
    split at h
    next => exact h
    next =>
      obtain ⟨u, hu, h⟩ := Results.bind_eq_ok.mp h
      have hdefault := expandItems_of_lookUp default u
        (fun n hn => hl n (by simp [itemNames, hn])) hu
      exact Results.bind_eq_ok.mpr ⟨u, hdefault, h⟩
  | .required name enough message, _, hl, h => by
    rw [expandItem_required] at h ⊢
    obtain ⟨x, hx, h⟩ := Results.bind_eq_ok.mp h
    exact Results.bind_eq_ok.mpr ⟨x, hl name (by simp [itemNames]) x hx, h⟩
  | .broken _ _, _, _, h => h

theorem expandItems_of_lookUp : (items : Template) → (t : Text) →
    (∀ n ∈ names items, ∀ x, s.lookUp expand chain n = .ok x → s'.lookUp expand' chain n = .ok x) →
      s.expandItems expand chain items = .ok t → s'.expandItems expand' chain items = .ok t
  | [], _, _, h => h
  | item :: items, _, hl, h => by
    obtain ⟨t, ht, h⟩ := Results.bind_eq_ok.mp h
    obtain ⟨u, hu, h⟩ := Results.bind_eq_ok.mp h
    have hi := expandItem_of_lookUp item t (fun n hn => hl n (by simp [names, hn])) ht
    have his := expandItems_of_lookUp items u (fun n hn => hl n (by simp [names, hn])) hu
    exact Results.bind_eq_ok.mpr ⟨t, hi, Results.bind_eq_ok.mpr ⟨u, his, h⟩⟩

end

end Scope

namespace Listing

open Scope

/-- The draft that counts for a name in a file mentions another name. -/
def Mentions (file : List (Text × Text)) (n m : Text) : Prop :=
  ∃ draft, Table.find? n file.reverse = some draft ∧ m ∈ Template.names (Template.ofText draft)

/-- A name that stands in a draft, or in one of those that the names of that lead to. -/
def LeadsTo (file : List (Text × Text)) (draft m : Text) : Prop :=
  ∃ n ∈ Template.names (Template.ofText draft), Relation.ReflTransGen (Mentions file) n m

/-- A name that is referred to before it has a value, from a line at the head of `rest`. No later
file declares it, and between that line and its own last draft no name that this leads to is
declared, unless it has no value yet and is declared only there. -/
structure Lasting (file rest : List (Text × Text)) (known later : List Text) (n : Text) : Prop where
  not_later : n ∉ later
  unchanged : ∀ between draft below, rest = between ++ (n, draft) :: below →
    n ∉ below.map Prod.fst → ∀ m, LeadsTo file draft m → m ∈ between.map Prod.fst →
      m ∉ known ∧ (rest.map Prod.fst).count m = 1

/-- All the names that the lines of a file refer to before they have a value are lasting. -/
def Steadily (file : List (Text × Text)) (later : List Text) :
    (known : List Text) → (rest : List (Text × Text)) → Prop
  | _, [] => True
  | known, e :: rest =>
    (∀ n ∈ Template.names (Template.ofText e.2), n ∉ known → Lasting file (e :: rest) known later n) ∧
      Steadily file later (e.1 :: known) rest

variable {P : Text → Prop} {s s' base : Scope} {known : Text → Option Value}
  {drafts : Text → Option Text} {staged overlay values : Table Text Value}
  {file above rest between below es : List (Text × Text)}

/-- Declarations keep a ledger of the names that count, if each of these has one draft and nothing
else is known of it. -/
theorem ledger_of_agree (hk : ∀ name, elsewhere base.cache base.ambient name = known name)
    (hd : ∀ name, base.drafts.get? name = drafts name)
    (ha : AgreesOn P { s with overlay := staged } { base with overlay := overlay })
    (hl : Ledger known drafts overlay)
    (hes : ∀ e ∈ es, P e.1 → Text.isKey e.1 ∧ known e.1 = none ∧ drafts e.1 = some e.2)
    (h : es.foldlM (stage s) staged = .ok values) :
    ∃ after, AgreesOn P { s with overlay := values } { base with overlay := after } ∧
      Ledger known drafts after := by
  induction es generalizing staged overlay with
  | nil =>
    cases h
    exact ⟨overlay, ha, hl⟩
  | cons e es ih =>
    obtain ⟨he, hes⟩ := List.forall_mem_cons.mp hes
    obtain ⟨v, hv, h⟩ := foldlM_cons_eq_ok.mp h
    by_cases hP : P e.1
    · obtain ⟨hkey, hknown, hdraft⟩ := he hP
      have hnames := ha.closed e.1 e.2 hP ((ha.draft e.1 hP).trans ((hd e.1).trans hdraft))
      rw [value_congr ha e.1 hnames] at hv
      have hreads := reads_of_value (hl.sees hk hd) hkey hdraft hv
      exact ih (ha.insert e.1 v) (hl.insert hknown hreads) hes h
    · exact ih (ha.insert_left hP v) hl hes h

/-- The scope in which what is staged counts as known. -/
def founded (s : Scope) (staged : Table Text Value) : Scope :=
  { s with overlay := ∅, cache := s.cache.insertAll staged }

theorem elsewhere_founded (s : Scope) (staged : Table Text Value) (name : Text) :
    elsewhere (founded s staged).cache (founded s staged).ambient name =
      Scope.value? { s with overlay := staged } name := by
  simp only [founded, elsewhere, Scope.value?, Table.get?_insertAll, Option.or_assoc]

theorem agreesOn_founded (hdrafts : ∀ name, s.drafts.get? name = Table.find? name file.reverse)
    (hP : ∀ name m, P name → Mentions file name m → P m) (staged : Table Text Value) :
    AgreesOn P { s with overlay := staged } (founded s staged) := by
  refine ⟨rfl, fun name _ => ?_, fun _ _ => rfl, fun name draft hname hdraft m hm => ?_⟩
  · rw [← elsewhere_founded]
    rfl
  · exact hP name m hname ⟨draft, (hdrafts name).symm.trans hdraft, hm⟩

/-- What a name is taken for before it has a value is what its draft settles to. -/
theorem settles_of_forward (hdrafts : ∀ name, s.drafts.get? name = Table.find? name file.reverse)
    {n : Text} {chain : List Text} {x : Option Text}
    (hx : Scope.lookUp { s with overlay := staged } (Scope.resolve { s with overlay := staged })
      chain n = .ok x) :
    Settles (Scope.value? { s with overlay := staged }) (Table.find? · file.reverse) n x := by
  have hsees : (founded s staged).Sees (Scope.value? { s with overlay := staged })
      (Table.find? · file.reverse) :=
    ledger_empty.sees (elsewhere_founded s staged) hdrafts
  have hfounded : (founded s staged).lookUp (founded s staged).resolve chain n = .ok x := by
    have ha := agreesOn_founded (P := Relation.ReflTransGen (Mentions file) n) hdrafts
      (fun _ _ h hm => h.tail hm) staged
    rw [← hx]
    exact (lookUp_congr ha (fun _ _ hnames => expandIn_congr ha hnames) .refl).symm
  exact settles_of_lookUp hsees (fun _ _ _ ht => comesTo_of_expandIn hsees ht) hfounded

theorem find?_of_rest (hfile : file = above ++ rest) {e : Text × Text} (he : e ∈ rest)
    (honce : (rest.map Prod.fst).count e.1 ≤ 1) : Table.find? e.1 file.reverse = some e.2 := by
  have hfind : Table.find? e.1 rest.reverse = some e.2 :=
    Table.find?_of_count (by simpa [List.map_reverse] using honce) (by simpa using he)
  rw [hfile, List.reverse_append, Table.find?_append, hfind, Option.some_or]

theorem find?_of_last {n draft : Text} (hfile : file = above ++ rest)
    (hrest : rest = between ++ (n, draft) :: below) (hlast : n ∉ below.map Prod.fst) :
    Table.find? n file.reverse = some draft := by
  have hnone : Table.find? n below.reverse = none := by
    rw [Table.find?_eq_none_iff, List.map_reverse, List.mem_reverse]
    exact hlast
  have hreverse : file.reverse = below.reverse ++ (n, draft) :: (above ++ between).reverse := by
    simp [hfile, hrest]
  rw [hreverse, Table.find?_append, hnone, Option.none_or, Table.find?, if_pos rfl]

/-- A name without a value gets one from its last draft in the rest of a file, and the draft settles
to the text of that already, if nothing that it leads to changes on the way there. -/
theorem settles_of_declared (hdrafts : ∀ name, s.drafts.get? name = Table.find? name file.reverse)
    (hkeys : ∀ e ∈ file, Text.isKey e.1) (hfile : file = above ++ rest) {n draft : Text}
    (hrest : rest = between ++ (n, draft) :: below) (hlast : n ∉ below.map Prod.fst)
    (h : rest.foldlM (stage s) staged = .ok values)
    (hnone : Scope.value? { s with overlay := staged } n = none)
    (hunchanged : ∀ m, LeadsTo file draft m → m ∈ between.map Prod.fst →
      Scope.value? { s with overlay := staged } m = none ∧ (rest.map Prod.fst).count m = 1) :
    ∃ v u, values.get? n = some v ∧ v.splice = .ok u ∧
      Settles (Scope.value? { s with overlay := staged }) (Table.find? · file.reverse) n (some u) := by
  have hkey (e : Text × Text) (he : e ∈ rest) : Text.isKey e.1 :=
    hkeys e (hfile ▸ List.mem_append_right above he)
  have hbetween : ∀ e ∈ between, LeadsTo file draft e.1 → Text.isKey e.1 ∧
      Scope.value? { s with overlay := staged } e.1 = none ∧
      Table.find? e.1 file.reverse = some e.2 := by
    intro e he hleads
    have hmem : e ∈ rest := hrest ▸ List.mem_append_left _ he
    obtain ⟨hnew, honce⟩ := hunchanged e.1 hleads (List.mem_map_of_mem he)
    exact ⟨hkey e hmem, hnew, find?_of_rest hfile hmem honce.le⟩
  rw [hrest, List.foldlM_append] at h
  obtain ⟨mid, hmid, h⟩ := Results.bind_eq_ok.mp h
  obtain ⟨v, hv, h⟩ := foldlM_cons_eq_ok.mp h
  have hget : values.get? n = some v := by
    rw [get?_of_foldlM_none h hlast, Table.get?_insert, if_pos rfl]
  -- where all that is staged is known from elsewhere, the way to the draft begins with an empty
  -- ledger and ends with one of all the names that count
  obtain ⟨after, ha, hl⟩ := ledger_of_agree (elsewhere_founded s staged) hdrafts
    (agreesOn_founded (P := LeadsTo file draft) hdrafts
      (fun _ _ ⟨k, hk, hreach⟩ hm => ⟨k, hk, hreach.tail hm⟩) staged) ledger_empty hbetween hmid
  have hsees := hl.sees (s := founded s staged) (elsewhere_founded s staged) hdrafts
  rw [value_congr ha n fun m hm => ⟨m, hm, .refl⟩] at hv
  have hreads := reads_of_value hsees (hkey (n, draft) (by simp [hrest]))
    (find?_of_last hfile hrest hlast) hv
  obtain ⟨u, hu, hsettles⟩ := hreads.settles hnone
  exact ⟨v, u, hget, hu, hsettles⟩

/-- A name is taken, before it has a value, for the text of the value that it gets by the end of the
file, if nothing that it leads to changes on the way to its last draft. -/
theorem text_of_lookUp (hdrafts : ∀ name, s.drafts.get? name = Table.find? name file.reverse)
    (hkeys : ∀ e ∈ file, Text.isKey e.1) (hfile : file = above ++ rest)
    (h : rest.foldlM (stage s) staged = .ok values) {n : Text}
    (hnone : Scope.value? { s with overlay := staged } n = none) (habove : n ∉ above.map Prod.fst)
    (hunchanged : ∀ between draft below, rest = between ++ (n, draft) :: below →
      n ∉ below.map Prod.fst → ∀ m, LeadsTo file draft m → m ∈ between.map Prod.fst →
        Scope.value? { s with overlay := staged } m = none ∧ (rest.map Prod.fst).count m = 1)
    {chain : List Text} {x : Option Text}
    (hx : Scope.lookUp { s with overlay := staged } (Scope.resolve { s with overlay := staged })
      chain n = .ok x) :
    n ∉ file.map Prod.fst ∧ s.drafts.get? n = none ∧ x = none ∨
      ∃ v u, values.get? n = some v ∧ v.splice = .ok u ∧ x = some u := by
  have hsettles := settles_of_forward hdrafts hx
  by_cases hmem : n ∈ rest.map Prod.fst
  · obtain ⟨between, draft, below, hrest, hlast⟩ := Table.exists_last hmem
    obtain ⟨v, u, hv, hu, hsettles'⟩ := settles_of_declared hdrafts hkeys hfile hrest hlast h hnone
      (hunchanged between draft below hrest hlast)
    exact Or.inr ⟨v, u, hv, hu, hsettles.unique hsettles'⟩
  · have hnot : n ∉ file.map Prod.fst := by
      rw [hfile, List.map_append, List.mem_append, not_or]
      exact ⟨habove, hmem⟩
    have hdraft : Table.find? n file.reverse = none := by
      rw [Table.find?_eq_none_iff, List.map_reverse, List.mem_reverse]
      exact hnot
    exact Or.inl ⟨hnot, (hdrafts n).trans hdraft, hsettles.unique (.absent hnone hdraft)⟩

/-- The second scope differs from the first only in that it also knows some final values. -/
structure Refills (s s' : Scope) (final : Table Text Value) : Prop where
  limit : s'.limit = s.limit
  drafts : s'.drafts = s.drafts
  known : ∀ name, elsewhere s'.cache s'.ambient name =
    (elsewhere s.cache s.ambient name).or (final.get? name)

variable {final : Table Text Value}

theorem Refills.value? (h : Refills s s' final) (staged : Table Text Value) (name : Text) :
    Scope.value? { s' with overlay := staged } name =
      (Scope.value? { s with overlay := staged } name).or (final.get? name) := by
  have hknown := h.known name
  unfold elsewhere at hknown
  simp only [Scope.value?, hknown, Option.or_assoc]

/-- A name is found alike with the final values if, wherever it has no value yet, it is taken for the
text of its final one. -/
theorem lookUp_of_refills (h : Refills s s' final) {chain : List Text} {n : Text} {x : Option Text}
    {expand expand' : List Text → Text → Except Fault Text}
    (hx : Scope.lookUp { s with overlay := staged } expand chain n = .ok x)
    (hlate : Scope.value? { s with overlay := staged } n = none →
      final.get? n = none ∧ s.drafts.get? n = none ∧ x = none ∨
        ∃ v u, final.get? n = some v ∧ v.splice = .ok u ∧ x = some u) :
    Scope.lookUp { s' with overlay := staged } expand' chain n = .ok x := by
  have hvalue := h.value? staged n
  unfold lookUp at hx ⊢
  split at hx
  next => simp at hx
  next hfree =>
    rw [if_neg hfree]
    split at hx
    next => simp at hx
    next hroom =>
      have hroom' : ¬s'.limit ≤ chain.length := by rwa [h.limit]
      rw [if_neg hroom']
      cases hv : Scope.value? { s with overlay := staged } n with
      | some v =>
        rw [hv, Option.some_or] at hvalue
        rw [hv] at hx
        rw [hvalue]
        exact hx
      | none =>
        rw [hv, Option.none_or] at hvalue
        rw [hvalue]
        rcases hlate hv with ⟨hfinal, hdraft, rfl⟩ | ⟨v, u, hfinal, hu, rfl⟩
        · simp only [hfinal, h.drafts, hdraft]
        · simp only [hfinal, hu]
          rfl

theorem value_of_refills (h : Refills s s' final) {key draft : Text} {v : Value}
    (hv : value { s with overlay := staged } key draft = .ok v)
    (hlate : ∀ n ∈ Template.names (Template.ofText draft),
      Scope.value? { s with overlay := staged } n = none → ∀ x,
        Scope.lookUp { s with overlay := staged } (Scope.resolve { s with overlay := staged })
          (Scope.start (some key)) n = .ok x →
        final.get? n = none ∧ s.drafts.get? n = none ∧ x = none ∨
          ∃ v u, final.get? n = some v ∧ v.splice = .ok u ∧ x = some u) :
    value { s' with overlay := staged } key draft = .ok v := by
  obtain ⟨t, ht, hc, hs⟩ := value_eq_ok.mp hv
  refine value_eq_ok.mpr ⟨t, ?_, hc, hs⟩
  rw [expand_eq_resolve, resolve_eq] at ht ⊢
  refine expandItems_of_lookUp _ t (fun n hn x hx => ?_) ht
  exact lookUp_of_refills h hx fun hnone => hlate n hn hnone x hx

/-- A file all of whose forward references are lasting has the same values once more among those that
all files have come to. -/
theorem foldlM_of_refills {later known : List Text} (h : Refills s s' final)
    (hdrafts : ∀ name, s.drafts.get? name = Table.find? name file.reverse)
    (hkeys : ∀ e ∈ file, Text.isKey e.1)
    (hlast : ∀ n v, n ∉ later → values.get? n = some v → final.get? n = some v)
    (hnone : ∀ n, n ∉ later → n ∉ known → n ∉ file.map Prod.fst → final.get? n = none)
    (hfile : file = above ++ rest) (habove : ∀ n ∈ above.map Prod.fst, n ∈ known)
    (hknown : ∀ n, n ∈ known ↔ (Scope.value? { s with overlay := staged } n).isSome)
    (hsteady : Steadily file later known rest) (hrest : rest.foldlM (stage s) staged = .ok values) :
    rest.foldlM (stage s') staged = .ok values := by
  induction rest generalizing above known staged with
  | nil => exact hrest
  | cons e rest ih =>
    obtain ⟨hline, hsteady⟩ := hsteady
    obtain ⟨v, hv, hmore⟩ := foldlM_cons_eq_ok.mp hrest
    refine foldlM_cons_eq_ok.mpr ⟨v, value_of_refills h hv fun n hn hvalue x hx => ?_, ?_⟩
    · have hn' : n ∉ known := by simp [hknown, hvalue]
      have hlasting := hline n hn hn'
      have hunchanged : ∀ between draft below, e :: rest = between ++ (n, draft) :: below →
          n ∉ below.map Prod.fst → ∀ m, LeadsTo file draft m → m ∈ between.map Prod.fst →
            Scope.value? { s with overlay := staged } m = none ∧
              ((e :: rest).map Prod.fst).count m = 1 := by
        intro between draft below hsplit hend m hleads hm
        obtain ⟨hnew, honce⟩ := hlasting.unchanged between draft below hsplit hend m hleads hm
        rw [hknown, Option.not_isSome_iff_eq_none] at hnew
        exact ⟨hnew, honce⟩
      rcases text_of_lookUp hdrafts hkeys hfile hrest hvalue (fun hm => hn' (habove n hm))
          hunchanged hx with
        ⟨hnot, hdraft, hx'⟩ | ⟨w, u, hw, hu, hx'⟩
      · exact Or.inl ⟨hnone n hlasting.not_later hn' hnot, hdraft, hx'⟩
      · exact Or.inr ⟨w, u, hlast n w hlasting.not_later hw, hu, hx'⟩
    · have hfile' : file = (above ++ [e]) ++ rest := by simp [hfile]
      refine ih ?_ hfile' ?_ ?_ hsteady hmore
      · exact fun n hl hk => hnone n hl fun hm => hk (List.mem_cons_of_mem _ hm)
      · intro n hm
        rw [List.map_append, List.mem_append] at hm
        rcases hm with hm | hm
        · exact List.mem_cons_of_mem _ (habove n hm)
        · simp at hm
          simp [hm]
      · intro n
        have hvalue : Scope.value? { s with overlay := staged.insert e.1 v } n =
            if e.1 = n then some v else Scope.value? { s with overlay := staged } n :=
          value?_insert { s with overlay := staged } e.1 n v
        rw [hvalue, List.mem_cons, hknown]
        by_cases he : e.1 = n
        · simp [he]
        · simp [he, Ne.symm he]

end Listing

end EnvFile
