import EnvFile.Hazard
import EnvFile.Proofs.Blanks
import EnvFile.Proofs.Numerals

namespace EnvFile

namespace Hazard

theorem isPrefixOf_append {p t : Text} (u : Text) (h : p.isPrefixOf t) : p.isPrefixOf (t ++ u) := by
  rw [List.isPrefixOf_iff_prefix] at h ⊢
  exact h.trans (List.prefix_append t u)

theorem after?_append {start t r : Text} (u : Text) (h : Text.after? start t = some r) :
    Text.after? start (t ++ u) = some (r ++ u) := by
  rw [Text.after?_eq_some_iff] at h ⊢
  rw [h, List.append_assoc]

theorem opensTunnel_append {t : Text} (u : Text) (h : opensTunnel t) : opensTunnel (t ++ u) := by
  unfold opensTunnel at h
  split at h
  next r hr =>
    simp only [Bool.and_eq_true] at h
    obtain ⟨hkind, hsign⟩ := h
    have hne : r.dropWhile Text.isSmallLetter ≠ [] := by
      intro he
      rw [he] at hsign
      simp at hsign
    have hd : (r ++ u).dropWhile Text.isSmallLetter = r.dropWhile Text.isSmallLetter ++ u := by
      rw [List.dropWhile_append, if_neg (by simpa using hne)]
    have ht : (r ++ u).takeWhile Text.isSmallLetter = r.takeWhile Text.isSmallLetter := by
      rw [List.takeWhile_append, if_neg]
      intro hl
      have hs := congrArg List.length (List.takeWhile_append_dropWhile (p := Text.isSmallLetter) (l := r))
      rw [List.length_append] at hs
      exact hne (List.length_eq_zero_iff.mp (by omega))
    simp only [opensTunnel, after?_append u hr, hd, ht, Bool.and_eq_true]
    exact ⟨hkind, isPrefixOf_append u hsign⟩
  next => simp at h

theorem payloadAhead_append {t : Text} (u : Text) (h : payloadAhead t) : payloadAhead (t ++ u) := by
  induction t with
  | nil => simp [payloadAhead] at h
  | cons c t ih =>
    simp only [payloadAhead, Bool.or_eq_true, Bool.and_eq_true] at h
    rw [List.cons_append]
    simp only [payloadAhead, Bool.or_eq_true, Bool.and_eq_true]
    rcases h with h | ⟨hc, h⟩
    · exact Or.inl (isPrefixOf_append u h)
    · exact Or.inr ⟨hc, ih h⟩

theorem opensData_append {t : Text} (u : Text) (h : opensData t) : opensData (t ++ u) := by
  unfold opensData at h
  split at h
  next r hr =>
    simp only [opensData, after?_append u hr]
    exact payloadAhead_append u h
  next => simp at h

theorem opens_append {t : Text} (u : Text) (h : opens t) : opens (t ++ u) := by
  simp only [opens, Bool.or_eq_true] at h ⊢
  rcases h with (h | h) | h
  · obtain ⟨s, hs, hp⟩ := List.any_eq_true.mp h
    exact Or.inl (Or.inl (List.any_eq_true.mpr ⟨s, hs, isPrefixOf_append u hp⟩))
  · exact Or.inl (Or.inr (opensTunnel_append u h))
  · exact Or.inr (opensData_append u h)

theorem search_append {insideName : Bool} {t : Text} (u : Text) (h : search insideName t) :
    search insideName (t ++ u) := by
  induction t generalizing insideName with
  | nil => simp [search] at h
  | cons c t ih =>
    simp only [search, Bool.or_eq_true, Bool.and_eq_true] at h
    rw [List.cons_append]
    simp only [search, Bool.or_eq_true, Bool.and_eq_true]
    rcases h with ⟨hi, h⟩ | h
    · exact Or.inl ⟨hi, opens_append u h⟩
    · exact Or.inr (ih h)

/-- A text that ends outside a name leaves every scheme after it as it is. -/
theorem search_prepend {p t : Text} (insideName : Bool) (hp : p ≠ [])
    (hl : ∀ c, p.getLast? = some c → inScheme c = false) (h : search false t) :
    search insideName (p ++ t) := by
  induction p generalizing insideName with
  | nil => exact absurd rfl hp
  | cons c p ih =>
    rw [List.cons_append]
    simp only [search, Bool.or_eq_true]
    cases p with
    | nil =>
      have hc := hl c rfl
      exact Or.inr (by simpa [hc] using h)
    | cons d p => exact Or.inr (ih _ (by simp) (fun e he => hl e (by simpa using he)))

theorem carried_append {t : Text} (u : Text) (h : carried t) : carried (t ++ u) := by
  unfold carried at h ⊢
  rw [List.map_append]
  exact search_append _ h

theorem carried_prepend {p t : Text}
    (hl : ∀ c, p.getLast? = some c → inScheme (Text.foldCase c) = false) (h : carried t) :
    carried (p ++ t) := by
  by_cases hp : p = []
  · simpa [hp] using h
  unfold carried at h ⊢
  rw [List.map_append]
  refine search_prepend false (by simpa using hp) ?_ h
  intro c hc
  rw [List.getLast?_map] at hc
  obtain ⟨d, hd, rfl⟩ := Option.map_eq_some_iff.mp hc
  exact hl d hd

/-- Every scheme has a colon at its end. -/
theorem mem_of_opens {t : Text} (h : opens t) : ':' ∈ t := by
  simp only [opens, Bool.or_eq_true] at h
  rcases h with (h | h) | h
  · obtain ⟨s, _, hp⟩ := List.any_eq_true.mp h
    rw [List.isPrefixOf_iff_prefix] at hp
    exact hp.subset (List.mem_append_right s (by decide))
  · unfold opensTunnel at h
    split at h
    next r hr =>
      obtain rfl := Text.after?_eq_some_iff.mp hr
      have hp := (Bool.and_eq_true_iff.mp h).2
      rw [List.isPrefixOf_iff_prefix] at hp
      have hmem : ':' ∈ r := (List.dropWhile_sublist _).subset (hp.subset (by decide))
      exact List.mem_append_right _ hmem
    next => simp at h
  · unfold opensData at h
    split at h
    next r hr =>
      obtain rfl := Text.after?_eq_some_iff.mp hr
      exact List.mem_append_left r (by decide)
    next => simp at h

theorem mem_of_search {insideName : Bool} {t : Text} (h : search insideName t) : ':' ∈ t := by
  induction t generalizing insideName with
  | nil => simp [search] at h
  | cons c t ih =>
    simp only [search, Bool.or_eq_true, Bool.and_eq_true] at h
    rcases h with ⟨_, h⟩ | h
    · exact mem_of_opens h
    · exact List.mem_cons_of_mem c (ih h)

theorem carried_of_not_mem {t : Text} (h : ':' ∉ t) : carried t = false := by
  refine Bool.eq_false_iff.mpr fun hc => ?_
  obtain ⟨c, hm, hfold⟩ := List.mem_map.mp (mem_of_search hc)
  exact h (Text.eq_of_foldCase (by decide) hfold ▸ hm)

/-- A slash ends every name before it, so what stands between slashes hides no scheme. -/
theorem carried_of_forced {t inner : Text} (hf : Value.forced? t = some inner) (h : carried inner) :
    carried t := by
  obtain ⟨l, r, ht, _, _⟩ := Text.exists_trim t
  rw [Text.enclosed?_eq_some_iff.mp hf] at ht
  have hsplit : t = (l ++ ['/']) ++ (inner ++ ('/' :: r)) := by
    rw [ht]
    simp
  rw [hsplit]
  refine carried_prepend ?_ (carried_append _ h)
  intro c hc
  have hslash : c = '/' := by simpa using hc.symm
  subst hslash
  decide

end Hazard

namespace Value

/-- Only a text between slashes is cut when it is read; all other texts stay whole. -/
theorem eq_or_forced_of_ofText {t u : Text} (h : ofText t = .ok (text u)) :
    u = t ∨ forced? t = some u := by
  cases spells_of_ofText h with
  | forced hforced => exact Or.inr hforced
  | numeral _ hn =>
    rcases ofNumeral_eq_ok hn with ⟨_, _, _, _, _, hv⟩ | ⟨_, _, _, _, hv⟩
    · cases hv
    · cases hv
  | itself => exact Or.inl rfl

/-- Reading a text never brings a hazard to light. -/
theorem carried_of_ofText {t u : Text} (h : ofText t = .ok (text u)) (hu : Hazard.carried u) :
    Hazard.carried t := by
  rcases eq_or_forced_of_ofText h with rfl | hf
  · exact hu
  · exact Hazard.carried_of_forced hf hu

end Value

end EnvFile
