import EnvFile.Proofs.Entries
import EnvFile.Proofs.Readings
import EnvFile.Proofs.Restoring

namespace EnvFile

namespace Listing

open Edit Scope

/-- Each line of the text says nothing or declares a key. -/
def Unbroken (t : Text) : Prop :=
  ∀ line ∈ Text.lines t, ∀ problem, Line.ofText line ≠ .broken problem

theorem unbroken_append_end {c : Char} (hc : Text.endsLine c) {t u : Text} :
    Unbroken (t ++ c :: u) ↔ Unbroken t ∧ Unbroken u := by
  obtain ⟨empty, he, hl⟩ := Text.lines_append_end hc t u
  have hempty : ∀ line ∈ empty, ∀ problem, Line.ofText line ≠ .broken problem := by
    rcases he with rfl | rfl
    · simp
    · simp [Line.ofText, Text.isSilent, Text.trim, Text.trimLeft, Text.trimRight]
  unfold Unbroken
  rw [hl]
  simp only [List.mem_append]
  constructor
  · intro h
    exact ⟨fun line hm => h line (Or.inl (Or.inl hm)), fun line hm => h line (Or.inr hm)⟩
  · rintro ⟨ht, hu⟩ line ((hm | hm) | hm)
    · exact ht line hm
    · exact hempty line hm
    · exact hu line hm

theorem unbroken_nil : Unbroken [] := by simp [Unbroken, Text.lines]

theorem unbroken_join {ps : List Text} :
    Unbroken (Text.join ['\n'] ps) ↔ ∀ p ∈ ps, Unbroken p := by
  induction ps with
  | nil => simp [Text.join, unbroken_nil]
  | cons p ps ih =>
    cases ps with
    | nil => simp [Text.join]
    | cons q ps =>
      rw [Text.join_cons _ _ (List.cons_ne_nil q ps), List.append_assoc, List.singleton_append,
        unbroken_append_end (by decide), ih, ← List.forall_mem_cons]

variable {key line T : Text}

theorem unbroken_overwrite (hk : '\n' ∉ key) (hline : Unbroken line) (hT : Unbroken T) :
    Unbroken (overwrite key line T) := by
  have hended : Unbroken (line ++ ['\n']) :=
    (unbroken_append_end (by decide)).mpr ⟨hline, unbroken_nil⟩
  cases h : (Text.pieces '\n' T).any (rewrites key) with
  | true =>
    have hps : ∀ p ∈ Text.pieces '\n' T, Unbroken p := by
      rwa [← unbroken_join, Text.join_pieces]
    rw [overwrite_of_any hk h, unbroken_join]
    intro q hq
    obtain ⟨p, hp, rfl⟩ := List.mem_map.mp hq
    unfold rewritten
    split
    next => exact hline
    next => exact hps p hp
  | false =>
    rcases overwrite_of_not_any line hk h with ⟨he, _⟩ | ⟨he, rfl | ⟨u, rfl⟩⟩
    · rw [he]
      exact (unbroken_append_end (by decide)).mpr ⟨hT, hended⟩
    · rwa [he]
    · rw [he, List.append_assoc, List.singleton_append]
      rw [unbroken_append_end (by decide)] at hT
      exact (unbroken_append_end (by decide)).mpr ⟨hT.1, hended⟩

/-- A mark that is left in front of a text breaks its first line. -/
theorem head_ne_mark (hT : Unbroken T) : ∀ c ∈ T.head?, c ≠ '\uFEFF' := by
  rintro c hc rfl
  obtain ⟨t, rfl⟩ := List.head?_eq_some_iff.mp hc
  obtain ⟨l, ls, hl⟩ : ∃ l ls, Text.lines ('\uFEFF' :: t) = ('\uFEFF' :: l) :: ls := by
    have he : Text.endsLine '\uFEFF' = false := by decide
    cases ht : Text.lines t with
    | nil => exact ⟨[], [], by simp [Text.lines, he, ht]⟩
    | cons l ls => exact ⟨l, ls, by simp [Text.lines, he, ht]⟩
  have htrim : ∀ u, Text.trim ('\uFEFF' :: u) = '\uFEFF' :: Text.trimRight u := by
    intro u
    rw [Text.trim, Text.trimLeft_cons_of_not (by decide)]
    exact Text.trimRight_append_cons (by decide) [] u
  have hbroken := hT ('\uFEFF' :: l) (by rw [hl]; exact List.mem_cons_self)
  cases hline : Line.ofText ('\uFEFF' :: l) with
  | silent =>
    unfold Line.ofText at hline
    split at hline
    next hs =>
      rw [Text.isSilent, htrim] at hs
      simp at hs
    next => split at hline <;> simp at hline
  | broken problem => exact hbroken problem hline
  | declaration k d =>
    obtain ⟨right, ho, _⟩ := Line.ofLine_of_ofText hline
    obtain ⟨hkey, hisKey⟩ := Declaration.key_of_ofLine ho
    have hu : Declaration.unexported ('\uFEFF' :: Text.trimRight l) = '\uFEFF' :: Text.trimRight l := by
      simp [Declaration.unexported, Text.after?]
    rw [htrim, hu, List.takeWhile_cons_of_pos (by decide), htrim] at hkey
    have hmem : '\uFEFF' ∈ k := by simp [hkey]
    exact absurd (Text.continuesKey_of_mem hisKey hmem) (by decide)

variable {s s' : Scope} {staged staged' old : Table Text Value} {b : Text} {v : Value}

/-- The pieces of a text can be read after an edit of one key, where none of those kept mentions
it. -/
theorem foldlM_rewritten {ps : List Text} (hline : declaredIn line = [(key, b)])
    (hv : ∀ s, value s key b = .ok v)
    (hr : ∀ p ∈ ps, rewrites key p → ∀ e ∈ declaredIn p, e.1 = key)
    (hm : ∀ p ∈ ps, rewrites key p = false →
      ∀ e ∈ declaredIn p, ∀ n ∈ Template.names (Template.ofText e.2), n ≠ key)
    (ha : AgreesOn (· ≠ key) { s with overlay := staged } { s' with overlay := staged' })
    (h : (ps.flatMap declaredIn).foldlM (stage s) staged = .ok old) :
    ∃ new, ((ps.map (rewritten key line)).flatMap declaredIn).foldlM (stage s') staged' = .ok new := by
  -- after each piece the two runs agree on every name but the key
  induction ps generalizing staged staged' with
  | nil => exact ⟨staged', rfl⟩
  | cons p ps ih =>
    obtain ⟨hrp, hr⟩ := List.forall_mem_cons.mp hr
    obtain ⟨hmp, hm⟩ := List.forall_mem_cons.mp hm
    rw [List.flatMap_cons, List.foldlM_append] at h
    obtain ⟨middle, hmiddle, h⟩ := Results.bind_eq_ok.mp h
    rw [List.map_cons, List.flatMap_cons, List.foldlM_append]
    cases hp : rewrites key p with
    | true =>
      have hkeys : ∀ e ∈ declaredIn p, ¬e.1 ≠ key := fun e he => not_not_intro (hrp hp e he)
      have ha' := (agree_of_foldlM ha hkeys hmiddle).insert_right (not_not_intro rfl) v
      obtain ⟨new, hnew⟩ := ih hr hm ha' h
      refine ⟨new, Results.bind_eq_ok.mpr ⟨staged'.insert key v, ?_, hnew⟩⟩
      rw [rewritten, if_pos hp, hline]
      exact foldlM_cons_eq_ok.mpr ⟨v, hv _, rfl⟩
    | false =>
      obtain ⟨middle', hmiddle', ha'⟩ := foldlM_agree ha (hmp hp) hmiddle
      obtain ⟨new, hnew⟩ := ih hr hm ha' h
      refine ⟨new, Results.bind_eq_ok.mpr ⟨middle', ?_, hnew⟩⟩
      rwa [rewritten, if_neg (Bool.eq_false_iff.mp hp)]

theorem foldlM_overwrite (hk : '\n' ∉ key) (hhead : ∀ c ∈ line.head?, c ≠ '\uFEFF')
    (hmark : ∀ c ∈ T.head?, c ≠ '\uFEFF') (hline : declaredIn line = [(key, b)])
    (hv : ∀ s, value s key b = .ok v)
    (hr : ∀ p ∈ Text.pieces '\n' T, rewrites key p → ∀ e ∈ declaredIn p, e.1 = key)
    (hm : ∀ e ∈ declaredIn (overwrite key line T),
      ∀ n ∈ Template.names (Template.ofText e.2), n ≠ key)
    (ha : AgreesOn (· ≠ key) { s with overlay := staged } { s' with overlay := staged' })
    (h : (declaredIn T).foldlM (stage s) staged = .ok old) :
    ∃ new, (declaredIn (overwrite key line T)).foldlM (stage s') staged' = .ok new := by
  cases hany : (Text.pieces '\n' T).any (rewrites key) with
  | true =>
    have hpieces : declaredIn T = (Text.pieces '\n' T).flatMap declaredIn := by
      rw [← declaredIn_join, Text.join_pieces]
    rw [overwrite_of_any hk hany, declaredIn_join] at hm ⊢
    rw [hpieces] at h
    refine foldlM_rewritten hline hv hr (fun p hp hrp e he => hm e ?_) ha h
    refine List.mem_flatMap.mpr ⟨p, List.mem_map.mpr ⟨p, hp, ?_⟩, he⟩
    rw [rewritten, if_neg (Bool.eq_false_iff.mp hrp)]
  | false =>
    have hlast := declaredIn_overwrite_of_not_any hk hhead hany
    rw [unmarked_overwrite hk hhead hmark, Utf8.unmarked_of_head hmark, hline] at hlast
    rw [hlast] at hm ⊢
    obtain ⟨middle, hmiddle, _⟩ :=
      foldlM_agree ha (fun e he => hm e (List.mem_append_left _ he)) h
    rw [List.foldlM_append]
    exact ⟨middle.insert key v,
      Results.bind_eq_ok.mpr ⟨middle, hmiddle, foldlM_cons_eq_ok.mpr ⟨v, hv _, rfl⟩⟩⟩

/-- The lines that an edit of the key rewrites are single lines to a reader, and none below them
declares the key. -/
structure Clean (key t : Text) : Prop where
  plain : ∀ p ∈ Text.pieces '\n' t, rewrites key p → ∀ c ∈ p, Text.endsLine c = false
  last : draft? (below key (Text.pieces '\n' t)) key = none

/-- Where the lines of a text are read if nothing else is known. -/
def scopeOf (t : Text) : Scope := ⟨∅, ∅, ∅, drafts (Text.lines t), defaultLimit⟩

/-- How a text that has been read strictly reads after a restorable text has been written for a key:
the key has the value of that text, or else reading fails at a value, and some line mentions the
key. -/
theorem entries_overwrite {path t w : Text} (hk : Text.isAssignable key) (hkey : Text.isKey key)
    (ht : Value.Restorable t) (hw : (Value.text t).written = .ok w) (hv : Value.ofText t = .ok v)
    (hc : Hazard.carried t = false)
    (hT : (entries ∅ ∅ ⟨.all, false, path⟩ (Text.lines T)).1 = .ok old)
    (hclean : Clean key T) :
    (∃ new, (entries ∅ ∅ ⟨.all, false, path⟩
        (Text.lines (overwrite key (key ++ '=' :: w) T))).1 = .ok new ∧ new.get? key = some v) ∨
    ∃ fault, (entries ∅ ∅ ⟨.all, false, path⟩
        (Text.lines (overwrite key (key ++ '=' :: w) T))).1 = .error fault ∧
      (∃ e ∈ declaredIn (overwrite key (key ++ '=' :: w) T),
        key ∈ Template.names (Template.ofText e.2)) ∧
      ∃ e ∈ declaredIn (overwrite key (key ++ '=' :: w) T), ∃ s, value s e.1 e.2 = .error fault := by
  have hn : '\n' ∉ key := Text.not_mem_assignable hk (by decide)
  have hhead := head_line hk w
  have hone := not_endsLine_line hk (ht.written hw).1
  have hdeclares := ofText_of_restorable hkey ht hw
  have hline : declaredIn (key ++ '=' :: w) = [(key, Text.trim t)] := by
    simp [declaredIn_of_plain hone, declared, hdeclares, Line.declared?]
  have hT' : Unbroken T := not_broken_of_entriesFrom rfl hT
  have hmark := head_ne_mark hT'
  have hunbroken : Unbroken (overwrite key (key ++ '=' :: w) T) := by
    refine unbroken_overwrite hn (fun line hl => ?_) hT'
    rw [Text.lines_of_not_endsLine hone (by simp)] at hl
    obtain rfl := List.mem_singleton.mp hl
    simp [hdeclares]
  have hsame := (drafts_overwrite_iff hn hhead T).mpr (spares_of_plain hk hone hclean.plain hmark)
  rw [unmarked_overwrite hn hhead hmark] at hsame
  have hdraft : draft? [overwrite key (key ++ '=' :: w) T] key = some (Text.trim t) := by
    have hlast := draft?_overwrite hn hhead T key
    rw [unmarked_overwrite hn hhead hmark, hclean.last] at hlast
    simpa [draft?, hline, Table.find?] using hlast
  rw [entries_all hT'] at hT
  rw [entries_all hunbroken]
  change (declaredIn T).foldlM (stage (scopeOf T)) ∅ = .ok old at hT
  cases hnew : (declaredIn (overwrite key (key ++ '=' :: w) T)).foldlM
      (stage (scopeOf (overwrite key (key ++ '=' :: w) T))) ∅ with
  | ok new =>
    rw [draft?, List.flatMap_singleton] at hdraft
    obtain ⟨before, u, hu, hget⟩ := get?_of_foldlM hnew hdraft
    rw [value_of_restorable ht hv hc] at hu
    cases hu
    exact Or.inl ⟨new, hnew, hget⟩
  | error fault =>
    obtain ⟨e, he, before, hfails⟩ := exists_value_of_foldlM_error hnew
    refine Or.inr ⟨fault, hnew, ?_, e, he, _, hfails⟩
    -- if no line mentions the key, the run before the edit can be followed to its end
    by_contra hno
    have hm : ∀ e ∈ declaredIn (overwrite key (key ++ '=' :: w) T),
        ∀ n ∈ Template.names (Template.ofText e.2), n ≠ key :=
      fun e he n hmem heq => hno ⟨e, he, heq ▸ hmem⟩
    have ha : AgreesOn (· ≠ key) { scopeOf T with overlay := ∅ }
        { scopeOf (overwrite key (key ++ '=' :: w) T) with overlay := ∅ } := by
      refine ⟨rfl, fun _ _ => rfl, fun name hne => (hsame name hne).symm, ?_⟩
      intro name draft hne hd
      have hd' : (drafts (Text.lines (overwrite key (key ++ '=' :: w) T))).get? name = some draft :=
        (hsame name hne).trans hd
      rw [get?_drafts] at hd'
      exact hm (name, draft) (List.mem_reverse.mp (Table.mem_of_find? hd'))
    obtain ⟨new, hok⟩ := foldlM_overwrite hn hhead hmark hline (value_of_restorable ht hv hc · key)
      (fun p hp hr e he => key_of_mem_declaredIn hk hr (hclean.plain p hp hr) he) hm ha hT
    have hok' := hok.symm.trans hnew
    simp at hok'

end Listing

end EnvFile
