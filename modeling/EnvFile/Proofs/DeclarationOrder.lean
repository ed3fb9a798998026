import EnvFile.Proofs.Declarations
import EnvFile.Proofs.Numerals
import EnvFile.Proofs.Settling

namespace EnvFile

namespace Listing

open Scope

/-- The value of an expanded draft. What a reference empties is an empty text. -/
def settled (draft t : Text) : Except Fault Value :=
  if t.isEmpty && !draft.isEmpty then .ok (.text []) else Value.ofText t

/-- The value that a key reads as, by its draft, wherever in a file that stands. -/
def Reads (known : Text → Option Value) (drafts : Text → Option Text) (key : Text) (v : Value) :
    Prop :=
  ∃ draft t names, drafts key = some draft ∧ ComesTo known drafts draft t names ∧
    Hazard.carried t = false ∧ settled draft t = .ok v

variable {known : Text → Option Value} {drafts : Text → Option Text}

theorem value_eq_ok {s : Scope} {key draft : Text} {v : Value} :
    value s key draft = .ok v ↔
      ∃ t, s.expand (some key) draft = .ok t ∧ Hazard.carried t = false ∧ settled draft t = .ok v := by
  unfold value
  rw [Results.bind_eq_ok]
  refine exists_congr fun t => and_congr_right fun _ => ?_
  by_cases hc : Hazard.carried t
  · simp [hc]
  · simp [hc, settled]

theorem expand_of_isKey (s : Scope) {key : Text} (hk : Text.isKey key) (draft : Text) :
    s.expand (some key) draft = s.expandIn (s.limit - 1) [key] draft := by
  obtain ⟨c, rest, rfl⟩ := List.exists_cons_of_ne_nil (Text.ne_nil_of_isKey hk)
  rfl

/-- A settled draft goes into other values as the text that it expands to would. -/
theorem splice_of_settled {draft t : Text} {v : Value} (h : settled draft t = .ok v) :
    ∃ w u, Value.ofText t = .ok w ∧ w.splice = .ok u ∧ v.splice = .ok u := by
  unfold settled at h
  split at h
  next he =>
    cases h
    obtain rfl := List.isEmpty_iff.mp (Bool.and_eq_true_iff.mp he).1
    exact ⟨.null, [], rfl, rfl, rfl⟩
  next =>
    obtain ⟨u, hu⟩ := Value.splice_of_ofText h
    exact ⟨v, u, h, hu, hu⟩

theorem Reads.settles {key : Text} {v : Value} (h : Reads known drafts key v)
    (hk : known key = none) : ∃ u, v.splice = .ok u ∧ Settles known drafts key (some u) := by
  obtain ⟨draft, t, names, hd, ⟨given, hf, hn⟩, _, hv⟩ := h
  obtain ⟨w, u, hw, hu, hvu⟩ := splice_of_settled hv
  exact ⟨u, hvu, .drafted given hk hd hf hn hw hu⟩

theorem Reads.unique {key : Text} {v w : Value} (h : Reads known drafts key v)
    (h' : Reads known drafts key w) : v = w := by
  obtain ⟨draft, t, names, hd, hc, _, hv⟩ := h
  obtain ⟨draft', t', names', hd', hc', _, hw⟩ := h'
  rw [hd] at hd'
  cases hd'
  obtain ⟨rfl, _⟩ := hc.unique hc'
  rw [hv] at hw
  cases hw
  rfl

/-- Every staged value is what its key reads as, and nothing else is known of the key. -/
def Ledger (known : Text → Option Value) (drafts : Text → Option Text) (staged : Table Text Value) :
    Prop :=
  ∀ key v, staged.get? key = some v → known key = none ∧ Reads known drafts key v

theorem Ledger.insert {staged : Table Text Value} (h : Ledger known drafts staged) {key : Text}
    {v : Value} (hk : known key = none) (hv : Reads known drafts key v) :
    Ledger known drafts (staged.insert key v) := by
  intro name w hw
  rw [Table.get?_insert] at hw
  split at hw
  next he =>
    cases hw
    exact he ▸ ⟨hk, hv⟩
  next => exact h name w hw

variable {s : Scope} {staged : Table Text Value}

theorem Ledger.sees (h : Ledger known drafts staged)
    (hk : ∀ name, (s.cache.get? name).or (s.ambient.get? name) = known name)
    (hd : ∀ name, s.drafts.get? name = drafts name) :
    Sees { s with overlay := staged } known drafts :=
  ⟨hk, hd, fun name v hv => (h name v hv).2.settles (h name v hv).1⟩

theorem reads_of_value {key draft : Text} {v : Value} (hs : s.Sees known drafts)
    (hk : Text.isKey key) (hd : drafts key = some draft) (h : value s key draft = .ok v) :
    Reads known drafts key v := by
  obtain ⟨t, ht, hc, hv⟩ := value_eq_ok.mp h
  rw [expand_of_isKey s hk] at ht
  obtain ⟨names, hcomes⟩ := comesTo_of_expandIn hs ht
  exact ⟨draft, t, names, hd, hcomes, hc, hv⟩

theorem value_of_reads {key draft : Text} {v : Value} (hs : s.Sees known drafts)
    (hk : Text.isKey key) (hknown : known key = none) (hd : drafts key = some draft)
    (h : Reads known drafts key v) : OrTooDeep (value s key draft) v := by
  obtain ⟨draft', t, names, hd', hcomes, hc, hv⟩ := h
  rw [hd] at hd'
  cases hd'
  have hchain : ∀ c ∈ [key], ∀ n ∈ names, Relation.TransGen (NeededBy known drafts) n c := by
    intro c hmem n hn
    obtain rfl := List.mem_singleton.mp hmem
    exact .single ⟨hknown, draft, t, names, hd, hcomes, hn⟩
  have he : OrTooDeep (s.expand (some key) draft) t := by
    rw [expand_of_isKey s hk]
    exact expandIn_of_comesTo hs hcomes hchain
  refine he.bind (Or.inl ?_)
  rw [hc, ← hv, settled]
  rfl

/-- What has been staged after a row of declarations: for each key declared or staged before, the
value that it reads as. -/
theorem ledger_of_foldlM (hk : ∀ name, (s.cache.get? name).or (s.ambient.get? name) = known name)
    (hd : ∀ name, s.drafts.get? name = drafts name) {es : List (Text × Text)}
    {t : Table Text Value} (hes : ∀ e ∈ es, Text.isKey e.1 ∧ known e.1 = none ∧ drafts e.1 = some e.2)
    (hl : Ledger known drafts staged) (h : es.foldlM (stage s) staged = .ok t) :
    Ledger known drafts t ∧ ∀ key, key ∈ t.keys ↔ key ∈ staged.keys ∨ key ∈ es.map Prod.fst := by
  induction es generalizing staged with
  | nil =>
    cases h
    exact ⟨hl, by simp⟩
  | cons e es ih =>
    obtain ⟨key, draft⟩ := e
    obtain ⟨hkey, hknown, hdraft⟩ := hes _ List.mem_cons_self
    rw [List.foldlM_cons] at h
    obtain ⟨next, hn, h⟩ := Results.bind_eq_ok.mp h
    obtain ⟨v, hv, rfl⟩ := Results.map_eq_ok.mp hn
    have hr := reads_of_value (hl.sees hk hd) hkey hdraft hv
    obtain ⟨hledger, hkeys⟩ := ih (fun e he => hes e (List.mem_cons_of_mem _ he))
      (hl.insert hknown hr) h
    refine ⟨hledger, fun name => ?_⟩
    rw [hkeys, Table.mem_keys_insert, List.map_cons, List.mem_cons, or_assoc]

/-- A row of declarations whose keys all read as some value is read to its end, unless a chain of
names gets too deep. -/
theorem foldlM_of_reads (hk : ∀ name, (s.cache.get? name).or (s.ambient.get? name) = known name)
    (hd : ∀ name, s.drafts.get? name = drafts name) {es : List (Text × Text)}
    (hes : ∀ e ∈ es, Text.isKey e.1 ∧ known e.1 = none ∧ drafts e.1 = some e.2)
    (hr : ∀ e ∈ es, ∃ v, Reads known drafts e.1 v) (hl : Ledger known drafts staged) :
    ∃ t, OrTooDeep (es.foldlM (stage s) staged) t := by
  induction es generalizing staged with
  | nil => exact ⟨staged, Or.inl rfl⟩
  | cons e es ih =>
    obtain ⟨hkey, hknown, hdraft⟩ := hes _ List.mem_cons_self
    obtain ⟨v, hv⟩ := hr _ List.mem_cons_self
    obtain ⟨t, ht⟩ := ih (fun e he => hes e (List.mem_cons_of_mem _ he))
      (fun e he => hr e (List.mem_cons_of_mem _ he)) (hl.insert hknown hv)
    have hstage : OrTooDeep (stage s staged e) (staged.insert e.1 v) := by
      rcases value_of_reads (hl.sees hk hd) hkey hknown hdraft hv with h | ⟨chain, limit, h⟩
      · exact Or.inl (Results.map_eq_ok.mpr ⟨v, h, rfl⟩)
      · exact Or.inr ⟨chain, limit, by rw [stage, h]; rfl⟩
    exact ⟨t, hstage.bind ht⟩

/-- What is known of a name from elsewhere when a file is read. -/
def elsewhere (cache ambient : Table Text Value) (name : Text) : Option Value :=
  (cache.get? name).or (ambient.get? name)

theorem entries_all {cache ambient : Table Text Value} {tolerant : Bool} {path : Text}
    {lines : List Text} (hb : ∀ line ∈ lines, ∀ problem, Line.ofText line ≠ .broken problem) :
    (entries cache ambient ⟨.all, tolerant, path⟩ lines).1 =
      (declared lines).foldlM (stage ⟨∅, cache, ambient, Listing.drafts lines, defaultLimit⟩) ∅ := by
  rw [entries, entriesFrom_eq_foldlM (Or.inr hb)]
  simp [KeyFilter.admits]

theorem ledger_empty : Ledger known drafts ∅ :=
  fun _ _ h => absurd h (by simp)

/-- The order of lines does not count: where they have entries, so they have in any other order,
and the same ones, unless a chain of names gets too deep. -/
theorem entries_perm_lines {cache ambient : Table Text Value} {tolerant : Bool} {path : Text}
    {lines others : List Text} {t : Table Text Value} (hp : lines.Perm others)
    (hb : ∀ line ∈ lines, ∀ problem, Line.ofText line ≠ .broken problem)
    (hn : ((declared lines).map Prod.fst).Nodup)
    (hfree : ∀ key ∈ (declared lines).map Prod.fst, cache.get? key = none ∧ ambient.get? key = none)
    (h : (entries cache ambient ⟨.all, tolerant, path⟩ lines).1 = .ok t) :
    (∃ t', (entries cache ambient ⟨.all, tolerant, path⟩ others).1 = .ok t' ∧
      t'.entries.Perm t.entries) ∨
    ∃ chain limit,
      (entries cache ambient ⟨.all, tolerant, path⟩ others).1 = .error (.tooDeep chain limit) := by
  have hd : (declared lines).Perm (declared others) := hp.filterMap _
  have hb' : ∀ line ∈ others, ∀ problem, Line.ofText line ≠ .broken problem :=
    fun line hl => hb line (hp.mem_iff.mpr hl)
  have hdrafts : ∀ name, (Listing.drafts others).get? name = (Listing.drafts lines).get? name :=
    get?_drafts_perm hp hn
  have hk : ∀ name, (cache.get? name).or (ambient.get? name) = elsewhere cache ambient name :=
    fun _ => rfl
  have hes : ∀ e ∈ declared lines, Text.isKey e.1 ∧ elsewhere cache ambient e.1 = none ∧
      (Listing.drafts lines).get? e.1 = some e.2 := by
    intro e he
    obtain ⟨hc, ha⟩ := hfree e.1 (List.mem_map_of_mem he)
    exact ⟨isKey_of_mem_declared he, by simp [elsewhere, hc, ha], (get?_drafts_of_nodup hn).mpr he⟩
  have hes' : ∀ e ∈ declared others, Text.isKey e.1 ∧ elsewhere cache ambient e.1 = none ∧
      (Listing.drafts lines).get? e.1 = some e.2 :=
    fun e he => hes e (hd.mem_iff.mpr he)
  -- what the keys read as is drawn from the first order, and does not mention it
  rw [entries_all hb] at h
  obtain ⟨hledger, hkeys⟩ := ledger_of_foldlM hk (fun _ => rfl) hes ledger_empty h
  have hr : ∀ e ∈ declared others, ∃ v,
      Reads (elsewhere cache ambient) (Listing.drafts lines).get? e.1 v := by
    intro e he
    have hmem : e.1 ∈ t.keys :=
      (hkeys e.1).mpr (Or.inr (List.mem_map_of_mem (hd.mem_iff.mpr he)))
    obtain ⟨v, hv⟩ := Table.mem_keys_iff_get?.mp hmem
    exact ⟨v, (hledger e.1 v hv).2⟩
  rw [entries_all hb']
  obtain ⟨t', ht' | hdeep⟩ := foldlM_of_reads
    (s := ⟨∅, cache, ambient, Listing.drafts others, defaultLimit⟩) hk hdrafts hes' hr ledger_empty
  · obtain ⟨hledger', hkeys'⟩ := ledger_of_foldlM hk hdrafts hes' ledger_empty ht'
    refine Or.inl ⟨t', ht', Table.entries_perm fun key => ?_⟩
    have hsame : key ∈ t'.keys ↔ key ∈ t.keys := by
      rw [hkeys', hkeys, (hd.map Prod.fst).mem_iff]
    cases hv : t.get? key with
    | none => exact Table.get?_eq_none_iff.mpr (hsame.not.mpr (Table.get?_eq_none_iff.mp hv))
    | some v =>
      obtain ⟨w, hw⟩ := Table.mem_keys_iff_get?.mp (hsame.mpr (Table.mem_keys_iff_get?.mpr ⟨v, hv⟩))
      rw [hw, (hledger' key w hw).2.unique (hledger key v hv).2]
  · exact Or.inr hdeep

def forwardLines : List Text := ["A=${B}${C:-x}".toList, "# ${A}".toList, "B = /on/".toList]

/-- The first line reads the last one, and after the two change places it reads the first. -/
theorem entries_perm_lines_forward :
    (entries ∅ ∅ ⟨.all, false, []⟩ forwardLines).1 =
      .ok (.ofList [("A".toList, .text "onx".toList), ("B".toList, .text "on".toList)]) ∧
    ((∃ t', (entries ∅ ∅ ⟨.all, false, []⟩ forwardLines.reverse).1 = .ok t' ∧ t'.entries.Perm
      [("A".toList, .text "onx".toList), ("B".toList, .text "on".toList)]) ∨
    ∃ chain limit,
      (entries ∅ ∅ ⟨.all, false, []⟩ forwardLines.reverse).1 = .error (.tooDeep chain limit)) := by
  have h : (entries ∅ ∅ ⟨.all, false, []⟩ forwardLines).1 =
      .ok (.ofList [("A".toList, .text "onx".toList), ("B".toList, .text "on".toList)]) := by
    decide +kernel
  have hb : ∀ line ∈ forwardLines, ∀ problem, Line.ofText line ≠ .broken problem := by
    intro line hl problem hp
    have hread : ∀ line ∈ forwardLines,
        Line.ofText line = .silent ∨ ((Line.ofText line).declared?).isSome := by decide +kernel
    rcases hread line hl with h | h <;> simp [hp, Line.declared?] at h
  exact ⟨h, entries_perm_lines (List.reverse_perm _).symm hb (by decide +kernel) (by decide +kernel) h⟩

end Listing

end EnvFile
