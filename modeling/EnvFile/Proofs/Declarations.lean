import EnvFile.Listing
import EnvFile.Proofs.Results
import EnvFile.Proofs.Tables

namespace EnvFile

/-- The key of a line and its draft, where the line declares one. -/
def Line.declared? : Line → Option (Text × Text)
  | declaration key draft => some (key, draft)
  | _ => none

theorem Text.ne_nil_of_isKey {t : Text} (h : isKey t) : t ≠ [] := by
  rintro rfl
  exact absurd h (by decide)

theorem Text.continuesKey_of_mem {t : Text} (h : isKey t) {c : Char} (hc : c ∈ t) :
    continuesKey c := by
  cases t with
  | nil => simp at hc
  | cons d t =>
    rw [isKey, Bool.and_eq_true] at h
    rcases List.mem_cons.mp hc with rfl | hc
    · rw [continuesKey, h.1, Bool.true_or]
    · exact List.all_eq_true.mp h.2 c hc

theorem Declaration.key_of_ofLine {line key right : Text} (h : ofLine line = .ok (key, right)) :
    key = Text.trim ((unexported (Text.trim line)).takeWhile (· != '=')) ∧ Text.isKey key := by
  unfold ofLine at h
  simp only at h
  split at h
  next => simp at h
  split at h
  next => simp at h
  next hk =>
    split at h
    next => simp at h
    next =>
      cases h
      exact ⟨rfl, by simpa using hk⟩

theorem Line.ofLine_of_ofText {line key draft : Text} (h : ofText line = declaration key draft) :
    ∃ right, Declaration.ofLine line = .ok (key, right) ∧ Declaration.draft right = draft := by
  unfold ofText at h
  split at h
  next => simp at h
  split at h
  next => simp at h
  next k right hl =>
    cases h
    exact ⟨right, hl, rfl⟩

theorem Line.isKey_of_ofText {line key draft : Text} (h : ofText line = declaration key draft) :
    Text.isKey key := by
  obtain ⟨right, hl, _⟩ := ofLine_of_ofText h
  exact (Declaration.key_of_ofLine hl).2

namespace Listing

/-- What the lines of a file declare, in their order. -/
def declared (lines : List Text) : List (Text × Text) :=
  lines.filterMap fun line => (Line.ofText line).declared?

theorem declared_append (lines more : List Text) :
    declared (lines ++ more) = declared lines ++ declared more :=
  List.filterMap_append

theorem drafts_eq_foldl (lines : List Text) :
    drafts lines = (declared lines).foldl (fun t e => t.insert e.1 e.2) ∅ := by
  rw [declared, List.foldl_filterMap, drafts]
  refine congrArg (fun f => lines.foldl f ∅) (funext fun t => funext fun line => ?_)
  cases Line.ofText line <;> rfl

/-- Of several drafts of a key the last counts. -/
theorem get?_drafts (lines : List Text) (key : Text) :
    (drafts lines).get? key = Table.find? key (declared lines).reverse := by
  rw [drafts_eq_foldl, Table.get?_foldl_insert, Table.get?_empty, Option.or_none]

theorem get?_drafts_of_nodup {lines : List Text} (hn : ((declared lines).map Prod.fst).Nodup)
    {key draft : Text} : (drafts lines).get? key = some draft ↔ (key, draft) ∈ declared lines := by
  rw [get?_drafts, Table.find?_reverse hn]
  exact ⟨Table.mem_of_find?, Table.find?_of_mem hn⟩

/-- Lines with distinct keys give the same drafts in any order. -/
theorem get?_drafts_perm {lines others : List Text} (hp : lines.Perm others)
    (hn : ((declared lines).map Prod.fst).Nodup) (key : Text) :
    (drafts others).get? key = (drafts lines).get? key := by
  have hd : (declared lines).Perm (declared others) := hp.filterMap _
  have hn' : ((declared others).map Prod.fst).Nodup := (hd.map Prod.fst).nodup_iff.mp hn
  refine Option.ext fun draft => ?_
  rw [get?_drafts_of_nodup hn, get?_drafts_of_nodup hn', hd.mem_iff]

theorem isKey_of_mem_declared {lines : List Text} {key draft : Text}
    (h : (key, draft) ∈ declared lines) : Text.isKey key := by
  obtain ⟨line, _, hl⟩ := List.mem_filterMap.mp h
  unfold Line.declared? at hl
  split at hl
  next k d hd =>
    cases hl
    exact Line.isKey_of_ofText hd
  next => simp at hl

/-- The step from the values staged so far to those with one more declaration read. -/
def stage (s : Scope) (staged : Table Text Value) (e : Text × Text) : Except Fault (Table Text Value) :=
  (value { s with overlay := staged } e.1 e.2).map (staged.insert e.1)

/-- Where every line is skipped or read, reading lines is reading what they declare, one after
another, as far as it is wanted. -/
theorem entriesFrom_eq_foldlM {s : Scope} {m : Manner} {number : Nat} {lines : List Text}
    {staged : Table Text Value}
    (hb : m.tolerant ∨ ∀ line ∈ lines, ∀ problem, Line.ofText line ≠ .broken problem) :
    (entriesFrom s m number lines staged).1 =
      ((declared lines).filter (m.filter.admits ·.1)).foldlM (stage s) staged := by
  induction lines generalizing number staged with
  | nil => rfl
  | cons line lines ih =>
    have hrest : m.tolerant ∨ ∀ line ∈ lines, ∀ problem, Line.ofText line ≠ .broken problem :=
      hb.imp_right fun h line hl => h line (List.mem_cons_of_mem _ hl)
    unfold entriesFrom
    split
    next hl => simpa [declared, hl, Line.declared?] using ih hrest
    next problem hl =>
      rcases hb with ht | hb
      · simpa [declared, hl, Line.declared?, ht] using ih hrest
      · exact absurd hl (hb line List.mem_cons_self problem)
    next key draft hl =>
      have hd : declared (line :: lines) = (key, draft) :: declared lines := by
        simp [declared, hl, Line.declared?]
      rw [hd, List.filter_cons]
      by_cases hk : m.filter.admits key
      · simp only [hk, ↓reduceIte, List.foldlM_cons, stage]
        cases hv : value { s with overlay := staged } key draft with
        | error fault => rfl
        | ok v => exact ih hrest
      · simp only [hk, Bool.false_eq_true, ↓reduceIte]
        exact ih hrest

/-- What holds of every value that a draft is read as, and of the values staged before, holds of all
values that lines are read as. -/
theorem forall_of_entriesFrom {P : Value → Prop}
    (hvalue : ∀ {s key draft v}, value s key draft = .ok v → P v) {s : Scope} {m : Manner}
    {number : Nat} {lines : List Text} {staged values : Table Text Value}
    (hs : ∀ key v, staged.get? key = some v → P v)
    (h : (entriesFrom s m number lines staged).1 = .ok values) :
    ∀ key v, values.get? key = some v → P v := by
  induction lines generalizing number staged with
  | nil =>
    obtain rfl : staged = values := by simpa [entriesFrom] using h
    exact hs
  | cons line lines ih =>
    unfold entriesFrom at h
    split at h
    next => exact ih hs h
    next =>
      split at h
      next => exact ih hs h
      next => simp at h
    next key draft _ =>
      split at h
      next =>
        split at h
        next => simp at h
        next v hv =>
          refine ih (fun k w hw => ?_) h
          rw [Table.get?_insert] at hw
          split at hw
          next =>
            cases hw
            exact hvalue hv
          next => exact hs k w hw
      next => exact ih hs h

end Listing

end EnvFile
