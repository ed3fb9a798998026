import EnvFile.Text.Basic

namespace EnvFile

namespace Text

theorem exists_trimLeft (t : Text) : ∃ l, t = l ++ trimLeft t ∧ ∀ c ∈ l, isBlank c :=
  ⟨t.takeWhile isBlank, List.takeWhile_append_dropWhile.symm, fun _ hc =>
    List.all_eq_true.mp List.all_takeWhile _ hc⟩

theorem exists_trimRight (t : Text) : ∃ r, t = trimRight t ++ r ∧ ∀ c ∈ r, isBlank c := by
  refine ⟨(t.reverse.takeWhile isBlank).reverse, ?_, ?_⟩
  · have h : t.reverse.takeWhile isBlank ++ t.reverse.dropWhile isBlank = t.reverse :=
      List.takeWhile_append_dropWhile
    have hr := congrArg List.reverse h
    rw [List.reverse_append, List.reverse_reverse] at hr
    exact hr.symm
  · intro c hc
    exact List.all_eq_true.mp List.all_takeWhile _ (List.mem_reverse.mp hc)

/-- Trimming takes nothing but blanks from the two ends. -/
theorem exists_trim (t : Text) :
    ∃ l r, t = l ++ trim t ++ r ∧ (∀ c ∈ l, isBlank c) ∧ ∀ c ∈ r, isBlank c := by
  obtain ⟨l, hl, hlb⟩ := exists_trimLeft t
  obtain ⟨r, hr, hrb⟩ := exists_trimRight (trimLeft t)
  refine ⟨l, r, ?_, hlb, hrb⟩
  rw [List.append_assoc, trim, ← hr, ← hl]

theorem trimLeft_append_of_blank {l : Text} (hl : ∀ c ∈ l, isBlank c) (t : Text) :
    trimLeft (l ++ t) = trimLeft t :=
  List.dropWhile_append_of_pos hl

theorem trimLeft_of_blank {t : Text} (h : ∀ c ∈ t, isBlank c) : trimLeft t = [] := by
  have hleft := trimLeft_append_of_blank h []
  rwa [List.append_nil] at hleft

/-- Nothing is left of a text just if there is nothing but blanks in it. -/
theorem trim_eq_nil_iff {t : Text} : trim t = [] ↔ ∀ c ∈ t, isBlank c := by
  constructor
  · intro h
    obtain ⟨l, r, ht, hl, hr⟩ := exists_trim t
    rw [h, List.append_nil] at ht
    rw [ht]
    exact fun c hc => (List.mem_append.mp hc).elim (hl c) (hr c)
  · intro h
    rw [trim, trimLeft_of_blank h]
    rfl

theorem trim_ne_nil_iff {t : Text} : trim t ≠ [] ↔ ∃ c ∈ t, isBlank c = false := by
  rw [Ne, trim_eq_nil_iff]
  simp

theorem trimLeft_cons_of_not {c : Char} (hc : isBlank c = false) (t : Text) :
    trimLeft (c :: t) = c :: t := by
  simp [trimLeft, hc]

theorem trimRight_append_of_blank {r : Text} (hr : ∀ c ∈ r, isBlank c) (t : Text) :
    trimRight (t ++ r) = trimRight t := by
  have hrev : ∀ c ∈ r.reverse, isBlank c := fun c hc => hr c (List.mem_reverse.mp hc)
  rw [trimRight, List.reverse_append, List.dropWhile_append_of_pos hrev]
  rfl

/-- What stands before a character that is no blank is not trimmed from the right. -/
theorem trimRight_append_cons {c : Char} (hc : isBlank c = false) (t u : Text) :
    trimRight (t ++ c :: u) = t ++ c :: trimRight u := by
  obtain ⟨r, hr, hblank⟩ := exists_trimRight u
  have hkept : trimRight (t ++ c :: trimRight u) = t ++ c :: trimRight u := by
    rcases hu : u.reverse.dropWhile isBlank with _ | ⟨d, w⟩
    · simp [trimRight, hu, hc]
    · have hd : isBlank d = false := by
        have := List.head?_dropWhile_not isBlank u.reverse
        simpa [hu] using this
      simp [trimRight, hu, hd]
  have hsplit : t ++ c :: u = t ++ c :: trimRight u ++ r := by
    rw [List.append_assoc, List.cons_append, ← hr]
  rw [hsplit, trimRight_append_of_blank hblank, hkept]

theorem trimRight_of_not_blank {t : Text} (h : ∀ c ∈ t, isBlank c = false) : trimRight t = t := by
  rcases List.eq_nil_or_concat t with rfl | ⟨u, c, rfl⟩
  · rfl
  · rw [List.concat_eq_append, trimRight_append_cons (h c (by simp))]
    rfl

theorem trim_of_not_blank {t : Text} (h : ∀ c ∈ t, isBlank c = false) : trim t = t := by
  have hleft : trimLeft t = t := by
    cases t with
    | nil => rfl
    | cons c t => exact trimLeft_cons_of_not (h c List.mem_cons_self) t
  rw [trim, hleft, trimRight_of_not_blank h]

theorem trimRight_trimRight (t : Text) : trimRight (trimRight t) = trimRight t := by
  obtain ⟨r, hr, hblank⟩ := exists_trimRight t
  conv =>
    rhs
    rw [hr, trimRight_append_of_blank hblank]

theorem trimLeft_trim (t : Text) : trimLeft (trim t) = trim t := by
  cases h : trimLeft t with
  | nil =>
    rw [trim, h]
    rfl
  | cons c u =>
    have hc : isBlank c = false := by
      have := List.head?_dropWhile_not isBlank t
      rw [trimLeft] at h
      simpa [h] using this
    have htrim : trim t = c :: trimRight u := by
      rw [trim, h]
      exact trimRight_append_cons hc [] u
    rw [htrim, trimLeft_cons_of_not hc]

theorem trimRight_trim (t : Text) : trimRight (trim t) = trim t := trimRight_trimRight _

theorem trim_trim (t : Text) : trim (trim t) = trim t := by
  rw [trim, trimLeft_trim, trimRight_trim]

theorem enclosed?_of_not_mem {mark : Char} {t : Text} (h : mark ∉ t) : enclosed? mark t = none := by
  cases he : enclosed? mark t with
  | none => rfl
  | some inner =>
    rw [enclosed?_eq_some_iff.mp he] at h
    simp at h

end Text

end EnvFile
