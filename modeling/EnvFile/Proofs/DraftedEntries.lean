import EnvFile.Proofs.Readings
import EnvFile.Proofs.Restoring

namespace EnvFile

namespace Listing

open Scope

variable {s : Scope} {staged values : Table Text Value} {es : List (Text × Text)} {lines : List Text}

/-- Values come to stand in the order of their drafts. -/
theorem keys_of_foldlM {texts : Table Text Text} (h : es.foldlM (stage s) staged = .ok values)
    (hk : staged.keys = texts.keys) :
    values.keys = (es.foldl (fun t e => t.insert e.1 e.2) texts).keys := by
  induction es generalizing staged texts with
  | nil =>
    cases h
    exact hk
  | cons e es ih =>
    obtain ⟨v, _, h⟩ := foldlM_cons_eq_ok.mp h
    rw [List.foldl_cons]
    refine ih h ?_
    rw [Table.keys_insert, Table.keys_insert, hk]

theorem restrict_drafts (lines : List Text) (p : Text → Bool) :
    (drafts lines).restrict p =
      ((declared lines).filter (p ·.1)).foldl (fun t e => t.insert e.1 e.2) ∅ := by
  rw [drafts_eq_foldl, Table.restrict_foldl_insert]
  rfl

/-- The draft of a key is that of the last line that declares it. -/
theorem exists_last_line {key draft : Text} (h : (drafts lines).get? key = some draft) :
    ∃ above line below, lines = above ++ line :: below ∧
      Line.ofText line = .declaration key draft ∧
      ∀ l ∈ below, ∀ d, Line.ofText l ≠ .declaration key d := by
  rw [get?_drafts] at h
  induction lines with
  | nil => simp [declared, Table.find?] at h
  | cons l lines ih =>
    have hcons : declared (l :: lines) = declared [l] ++ declared lines := declared_append [l] lines
    rw [hcons, List.reverse_append, Table.find?_append, Option.or_eq_some_iff] at h
    rcases h with h | ⟨hnone, h⟩
    · obtain ⟨above, line, below, rfl, hline, hlast⟩ := ih h
      exact ⟨l :: above, line, below, rfl, hline, hlast⟩
    · refine ⟨[], l, lines, rfl, ?_, fun m hm d hd => ?_⟩
      · cases hl : Line.ofText l <;> simp_all [declared, Line.declared?, Table.find?]
      · rw [Table.find?_eq_none_iff, List.map_reverse, List.mem_reverse] at hnone
        refine hnone (List.mem_map.mpr ⟨(key, d), ?_, rfl⟩)
        exact List.mem_filterMap.mpr ⟨m, hm, by rw [hd]; rfl⟩

/-- A draft without a dollar sign says by itself what its key reads as. -/
theorem value_of_not_mem {s : Scope} {key draft : Text} {v : Value} (hd : '$' ∉ draft)
    (h : value s key draft = .ok v) : Value.ofText draft = .ok v := by
  obtain ⟨t, ht, _, hv⟩ := value_eq_ok.mp h
  rw [s.expand_of_plain (some key) (Template.plain_of_not_mem hd)] at ht
  cases ht
  cases draft with
  | nil => exact hv
  | cons c draft => exact hv

/-- The entries of a file go by its drafts: their keys are the wanted ones among the keys of the
drafts, in the same order, and a key whose draft refers to nothing has the value that the draft says,
which is that of the last line for the key. -/
theorem entries_agree_with_drafts {cache ambient : Table Text Value} {limit : Nat} {m : Manner}
    (h : (entriesFrom ⟨∅, cache, ambient, drafts lines, limit⟩ m 1 lines ∅).1 = .ok values) :
    values.keys = (drafts lines).keys.filter m.filter.admits ∧
    ∀ key ∈ values.keys, ∃ above line below draft, lines = above ++ line :: below ∧
      Line.ofText line = .declaration key draft ∧
      (∀ l ∈ below, ∀ d, Line.ofText l ≠ .declaration key d) ∧
      (drafts lines).get? key = some draft ∧
      ('$' ∉ draft → ∃ v, Value.ofText draft = .ok v ∧ values.get? key = some v) := by
  have hb : m.tolerant ∨ ∀ line ∈ lines, ∀ problem, Line.ofText line ≠ .broken problem := by
    cases ht : m.tolerant with
    | true => exact Or.inl rfl
    | false => exact Or.inr (not_broken_of_entriesFrom ht h)
  rw [entriesFrom_eq_foldlM hb] at h
  have hkeys : values.keys = (drafts lines).keys.filter m.filter.admits := by
    have hempty : (∅ : Table Text Value).keys = (∅ : Table Text Text).keys := rfl
    rw [keys_of_foldlM h hempty, ← restrict_drafts, Table.keys_restrict]
  refine ⟨hkeys, fun key hk => ?_⟩
  rw [hkeys, List.mem_filter] at hk
  obtain ⟨draft, hdraft⟩ := Table.mem_keys_iff_get?.mp hk.1
  obtain ⟨above, line, below, hlines, hline, hlast⟩ := exists_last_line hdraft
  refine ⟨above, line, below, draft, hlines, hline, hlast, hdraft, fun hd => ?_⟩
  have hwanted : ((drafts lines).restrict m.filter.admits).get? key = some draft := by
    rw [Table.get?_restrict, if_pos hk.2, hdraft]
  rw [restrict_drafts, Table.get?_foldl_insert, Table.get?_empty, Option.or_none] at hwanted
  obtain ⟨before, v, hv, hget⟩ := get?_of_foldlM h hwanted
  exact ⟨v, value_of_not_mem hd hv, hget⟩

/-- A broken line is skipped, a key is not wanted, and one is declared again below a reference to
it. -/
theorem entries_agree_with_drafts_tolerant :
    let lines := ["A=1", "oops", " # c", "B=${A}x", "C=off", "export A = \" 2 \" # t", "D=$Z"].map
      String.toList
    let cache : Table Text Value := .ofList [("A".toList, .text "9".toList), ("Z".toList, .int 4)]
    let m : Manner := ⟨.among (["D", "A", "B"].map String.toList), true, "/.env".toList⟩
    ∃ values, (entriesFrom ⟨∅, cache, ∅, drafts lines, 2⟩ m 1 lines ∅).1 = .ok values ∧
      values.keys = ["A", "B", "D"].map String.toList ∧
      (drafts lines).get? "A".toList = some " 2 ".toList ∧
      values.get? "A".toList = some (.int 2) := by
  intro lines cache m
  let values : Table Text Value := .ofList
    [("A".toList, .int 2), ("B".toList, .text "1x".toList), ("D".toList, .int 4)]
  have h : (entriesFrom ⟨∅, cache, ∅, drafts lines, 2⟩ m 1 lines ∅).1 = .ok values := by
    decide +kernel
  have hdraft : (drafts lines).get? "A".toList = some " 2 ".toList := by decide +kernel
  obtain ⟨hkeys, hall⟩ := entries_agree_with_drafts h
  obtain ⟨_, _, _, draft, _, _, _, hd, hvalue⟩ := hall "A".toList (by decide +kernel)
  rw [hdraft] at hd
  cases hd
  obtain ⟨v, hv, hget⟩ := hvalue (by decide)
  have hread : Value.ofText " 2 ".toList = .ok (.int 2) := by decide +kernel
  rw [hread] at hv
  cases hv
  exact ⟨values, h, hkeys.trans (by decide +kernel), hdraft, hget⟩

end Listing

end EnvFile
