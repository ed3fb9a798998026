import EnvFile.Proofs.Segments

namespace EnvFile

namespace Edit

def IsPadding (t : Text) : Prop := ∀ c ∈ t, isPad c

/-- The lines that assign a value to a key: the key and a sign, with pads around the key, and before
that perhaps the word for export, which takes a pad at least after it. -/
inductive Assigns (key : Text) : Text → Prop
  | bare {front back right : Text} : IsPadding front → IsPadding back →
      Assigns key (front ++ (key ++ back ++ '=' :: right))
  | exported {front gap back right : Text} : IsPadding front → IsPadding gap → gap ≠ [] →
      IsPadding back →
      Assigns key (front ++ ("export".toList ++ (gap ++ (key ++ back ++ '=' :: right))))

variable {key line t u : Text}

theorem mem_unpadded_iff : u ∈ unpadded t ↔ ∃ front, IsPadding front ∧ t = front ++ u := by
  induction t with
  | nil =>
    rw [unpadded, List.mem_singleton]
    constructor
    · rintro rfl
      exact ⟨[], by simp [IsPadding], rfl⟩
    · rintro ⟨front, _, h⟩
      exact (List.append_eq_nil_iff.mp h.symm).2
  | cons c t ih =>
    rw [unpadded, List.mem_append, List.mem_singleton]
    constructor
    · rintro (h | rfl)
      · split at h
        next hc =>
          obtain ⟨front, hfront, rfl⟩ := ih.mp h
          exact ⟨c :: front, List.forall_mem_cons.mpr ⟨hc, hfront⟩, rfl⟩
        next => simp at h
      · exact ⟨[], by simp [IsPadding], rfl⟩
    · rintro ⟨front, hfront, h⟩
      cases front with
      | nil => exact Or.inr h.symm
      | cons d front =>
        obtain ⟨hd, hrest⟩ := List.forall_mem_cons.mp hfront
        obtain ⟨rfl, rfl⟩ := List.cons.inj h
        rw [if_pos hd]
        exact Or.inl (ih.mpr ⟨front, hrest, rfl⟩)

theorem isSome_afterSign? :
    (afterSign? key t).isSome ↔ ∃ back right, IsPadding back ∧ t = key ++ back ++ '=' :: right := by
  unfold afterSign?
  constructor
  · intro h
    split at h
    next right hm =>
      obtain ⟨u, hu, hd⟩ := Option.map_eq_some_iff.mp hm
      rw [Text.after?_eq_some_iff] at hu
      refine ⟨u.takeWhile isPad, right, fun c hc => List.all_eq_true.mp List.all_takeWhile c hc, ?_⟩
      rw [List.append_assoc, ← hd, List.takeWhile_append_dropWhile, hu]
    next => simp at h
  · rintro ⟨back, right, hback, rfl⟩
    have hafter : Text.after? key (key ++ back ++ '=' :: right) = some (back ++ '=' :: right) :=
      Text.after?_eq_some_iff.mpr (List.append_assoc _ _ _)
    have hsign : (back ++ '=' :: right).dropWhile isPad = '=' :: right := by
      rw [List.dropWhile_append_of_pos hback]
      rfl
    rw [hafter, Option.map_some, hsign]
    rfl

theorem isSome_afterExport? :
    (afterExport? key t).isSome ↔ ∃ gap back right, IsPadding gap ∧ gap ≠ [] ∧ IsPadding back ∧
      t = "export".toList ++ (gap ++ (key ++ back ++ '=' :: right)) := by
  unfold afterExport?
  constructor
  · intro h
    split at h
    next c u hu =>
      rw [Text.after?_eq_some_iff] at hu
      split at h
      next hc =>
        obtain ⟨v, hv, hsign⟩ := List.findSome?_isSome_iff.mp h
        obtain ⟨more, hmore, rfl⟩ := mem_unpadded_iff.mp hv
        obtain ⟨back, right, hback, rfl⟩ := isSome_afterSign?.mp hsign
        exact ⟨c :: more, back, right, List.forall_mem_cons.mpr ⟨hc, hmore⟩,
          List.cons_ne_nil c more, hback, hu⟩
      next => simp at h
    next => simp at h
  · rintro ⟨gap, back, right, hgap, hne, hback, rfl⟩
    obtain ⟨c, more, rfl⟩ := List.exists_cons_of_ne_nil hne
    obtain ⟨hc, hmore⟩ := List.forall_mem_cons.mp hgap
    have hafter : Text.after? "export".toList
        ("export".toList ++ (c :: more ++ (key ++ back ++ '=' :: right))) =
          some (c :: (more ++ (key ++ back ++ '=' :: right))) :=
      Text.after?_eq_some_iff.mpr rfl
    rw [hafter]
    simp only [hc, ↓reduceIte]
    exact List.findSome?_isSome_iff.mpr
      ⟨_, mem_unpadded_iff.mpr ⟨more, hmore, rfl⟩, isSome_afterSign?.mpr ⟨back, right, hback, rfl⟩⟩

/-- An edit of a key rewrites just the lines of that form. -/
theorem rewrites_iff : rewrites key line ↔ Assigns key line := by
  unfold rewrites afterDeclaration?
  rw [List.findSome?_isSome_iff]
  constructor
  · rintro ⟨u, hu, h⟩
    obtain ⟨front, hfront, rfl⟩ := mem_unpadded_iff.mp hu
    rw [Option.isSome_or, Bool.or_eq_true, isSome_afterExport?, isSome_afterSign?] at h
    rcases h with ⟨gap, back, right, hgap, hne, hback, rfl⟩ | ⟨back, right, hback, rfl⟩
    · exact .exported hfront hgap hne hback
    · exact .bare hfront hback
  · intro h
    cases h with
    | @bare front back right hfront hback =>
      refine ⟨_, mem_unpadded_iff.mpr ⟨front, hfront, rfl⟩, ?_⟩
      rw [Option.isSome_or, Bool.or_eq_true]
      exact Or.inr (isSome_afterSign?.mpr ⟨back, right, hback, rfl⟩)
    | @exported front gap back right hfront hgap hne hback =>
      refine ⟨_, mem_unpadded_iff.mpr ⟨front, hfront, rfl⟩, ?_⟩
      rw [Option.isSome_or, Bool.or_eq_true]
      exact Or.inl (isSome_afterExport?.mpr ⟨gap, back, right, hgap, hne, hback, rfl⟩)

theorem Assigns.mem (h : Assigns key line) : '=' ∈ line := by
  cases h with
  | bare => simp
  | exported => simp

instance : Decidable (Assigns key line) := decidable_of_iff _ rewrites_iff

end Edit

end EnvFile
