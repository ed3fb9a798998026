import EnvFile.Proofs.Declarations
import EnvFile.Text.Basic

namespace EnvFile

namespace Text

theorem pieces_cons_of_ne {mark c : Char} (h : c ≠ mark) (t : Text) :
    ∃ p ps, pieces mark t = p :: ps ∧ pieces mark (c :: t) = (c :: p) :: ps := by
  induction t generalizing c with
  | nil => exact ⟨[], [], rfl, by simp [pieces, h]⟩
  | cons d t ih =>
    by_cases hd : d = mark
    · exact ⟨[], pieces mark t, by simp [pieces, hd], by simp [pieces, h, hd]⟩
    · obtain ⟨p, ps, _, hp⟩ := ih hd
      exact ⟨d :: p, ps, hp, by rw [pieces, if_neg h, hp]⟩

theorem pieces_ne_nil (mark : Char) (t : Text) : pieces mark t ≠ [] := by
  cases t with
  | nil => simp [pieces]
  | cons c t =>
    by_cases h : c = mark
    · simp [pieces, h]
    · obtain ⟨p, ps, _, hp⟩ := pieces_cons_of_ne h t
      simp [hp]

/-- A mark between two texts parts their pieces. -/
theorem pieces_append (mark : Char) (t u : Text) :
    pieces mark (t ++ mark :: u) = pieces mark t ++ pieces mark u := by
  induction t with
  | nil => simp [pieces]
  | cons c t ih =>
    by_cases hc : c = mark
    · simp [pieces, hc, ih]
    · obtain ⟨p, ps, hp, hcp⟩ := pieces_cons_of_ne hc t
      obtain ⟨q, qs, hq, hcq⟩ := pieces_cons_of_ne hc (t ++ mark :: u)
      rw [hp, hq, List.cons_append, List.cons.injEq] at ih
      rw [List.cons_append, hcp, hcq, ih.1, ih.2, List.cons_append]

theorem pieces_of_not_mem {mark : Char} {t : Text} (h : mark ∉ t) : pieces mark t = [t] := by
  induction t with
  | nil => rfl
  | cons c t ih =>
    rw [List.mem_cons, not_or] at h
    rw [pieces, if_neg (Ne.symm h.1), ih h.2]

theorem not_mem_of_mem_pieces {mark : Char} {t p : Text} (h : p ∈ pieces mark t) : mark ∉ p := by
  induction t generalizing p with
  | nil =>
    obtain rfl := List.mem_singleton.mp h
    simp
  | cons c t ih =>
    by_cases hc : c = mark
    · rw [pieces, if_pos hc, List.mem_cons] at h
      rcases h with rfl | h
      · simp
      · exact ih h
    · obtain ⟨q, qs, hq, hcq⟩ := pieces_cons_of_ne hc t
      rw [hq] at ih
      rw [hcq, List.mem_cons] at h
      rcases h with rfl | h
      · rw [List.mem_cons, not_or]
        exact ⟨Ne.symm hc, ih List.mem_cons_self⟩
      · exact ih (List.mem_cons_of_mem _ h)

theorem join_cons {α : Type} (mark t : List α) {ts : List (List α)} (h : ts ≠ []) :
    join mark (t :: ts) = t ++ mark ++ join mark ts := by
  obtain ⟨u, us, rfl⟩ := List.exists_cons_of_ne_nil h
  rfl

theorem join_map {α β : Type} (g : α → β) (mark : List α) (ts : List (List α)) :
    join (mark.map g) (ts.map (·.map g)) = (join mark ts).map g := by
  induction ts with
  | nil => rfl
  | cons t ts ih =>
    cases ts with
    | nil => rfl
    | cons u ts =>
      have hne : (u :: ts).map (·.map g) ≠ [] := by simp
      rw [join_cons mark t (List.cons_ne_nil u ts), List.map_cons, join_cons _ _ hne, ih,
        List.map_append, List.map_append]

theorem join_pieces (mark : Char) (t : Text) : join [mark] (pieces mark t) = t := by
  induction t with
  | nil => rfl
  | cons c t ih =>
    by_cases h : c = mark
    · rw [pieces, if_pos h, join_cons _ _ (pieces_ne_nil mark t), ih, h]
      rfl
    · obtain ⟨p, ps, hp, hc⟩ := pieces_cons_of_ne h t
      rw [hp] at ih
      rw [hc, ← ih]
      cases ps with
      | nil => rfl
      | cons q ps => simp [join]

theorem pieces_join (mark : Char) {ps : List Text} (hne : ps ≠ []) (h : ∀ p ∈ ps, mark ∉ p) :
    pieces mark (join [mark] ps) = ps := by
  induction ps with
  | nil => exact absurd rfl hne
  | cons p ps ih =>
    obtain ⟨hp, hps⟩ := List.forall_mem_cons.mp h
    cases ps with
    | nil => exact pieces_of_not_mem hp
    | cons q ps =>
      rw [join_cons _ _ (List.cons_ne_nil q ps), List.append_assoc, List.singleton_append,
        pieces_append, pieces_of_not_mem hp, ih (List.cons_ne_nil q ps) hps, List.singleton_append]

theorem mem_of_mem_pieces {mark c : Char} {t p : Text} (hp : p ∈ pieces mark t) (hc : c ∈ p) :
    c ∈ t := by
  induction t generalizing p with
  | nil =>
    obtain rfl := List.mem_singleton.mp hp
    exact hc
  | cons d t ih =>
    by_cases hd : d = mark
    · rw [pieces, if_pos hd] at hp
      rcases List.mem_cons.mp hp with rfl | hp
      · simp at hc
      · exact List.mem_cons_of_mem _ (ih hp hc)
    · obtain ⟨q, qs, hq, hdq⟩ := pieces_cons_of_ne hd t
      rw [hq] at ih
      rw [hdq] at hp
      rcases List.mem_cons.mp hp with rfl | hp
      · rcases List.mem_cons.mp hc with rfl | hc
        · exact List.mem_cons_self
        · exact List.mem_cons_of_mem _ (ih List.mem_cons_self hc)
      · exact List.mem_cons_of_mem _ (ih (List.mem_cons_of_mem _ hp) hc)

theorem mem_of_mem_join {c : Char} {mark : Text} {ts : List Text} (h : c ∈ join mark ts) :
    c ∈ mark ∨ ∃ t ∈ ts, c ∈ t := by
  induction ts with
  | nil => simp [join] at h
  | cons t ts ih =>
    cases ts with
    | nil => exact Or.inr ⟨t, List.mem_cons_self, h⟩
    | cons u ts =>
      rw [join_cons _ _ (List.cons_ne_nil u ts), List.append_assoc] at h
      rcases List.mem_append.mp h with h | h
      · exact Or.inr ⟨t, List.mem_cons_self, h⟩
      · rcases List.mem_append.mp h with h | h
        · exact Or.inl h
        · rcases ih h with h | ⟨w, hw, hc⟩
          · exact Or.inl h
          · exact Or.inr ⟨w, List.mem_cons_of_mem _ hw, hc⟩

/-- The pieces hold all characters but the marks. -/
theorem exists_mem_pieces_iff {mark c : Char} {t : Text} :
    (∃ p ∈ pieces mark t, c ∈ p) ↔ c ∈ t ∧ c ≠ mark := by
  constructor
  · rintro ⟨p, hp, hc⟩
    refine ⟨mem_of_mem_pieces hp hc, ?_⟩
    rintro rfl
    exact not_mem_of_mem_pieces hp hc
  · rintro ⟨hc, hne⟩
    rw [← join_pieces mark t] at hc
    exact (mem_of_mem_join hc).resolve_left (by simpa using hne)

theorem forall_mem_pieces_iff {mark : Char} {t : Text} {P : Char → Prop} :
    (∀ p ∈ pieces mark t, ∀ c ∈ p, P c) ↔ ∀ c ∈ t, c = mark ∨ P c := by
  constructor
  · intro h c hc
    by_cases hmark : c = mark
    · exact Or.inl hmark
    · obtain ⟨p, hp, hcp⟩ := exists_mem_pieces_iff.mpr ⟨hc, hmark⟩
      exact Or.inr (h p hp c hcp)
  · intro h p hp c hcp
    obtain ⟨hc, hmark⟩ := exists_mem_pieces_iff.mp ⟨p, hp, hcp⟩
    exact (h c hc).resolve_left hmark

/-- A text that does not end with a mark has a last piece. -/
theorem pieces_concat_of_ne {mark c : Char} (h : c ≠ mark) (t : Text) :
    ∃ ps p, pieces mark (t ++ [c]) = ps ++ [p ++ [c]] := by
  induction t with
  | nil => exact ⟨[], [], by simp [pieces, h]⟩
  | cons d t ih =>
    obtain ⟨ps, p, hp⟩ := ih
    by_cases hd : d = mark
    · exact ⟨[] :: ps, p, by simp [pieces, hd, hp]⟩
    · obtain ⟨q, qs, hq, hdq⟩ := pieces_cons_of_ne hd (t ++ [c])
      rw [List.cons_append, hdq]
      cases ps with
      | nil =>
        rw [hp, List.nil_append, List.cons.injEq] at hq
        exact ⟨[], d :: p, by rw [← hq.1, ← hq.2]; rfl⟩
      | cons r ps =>
        rw [hp, List.cons_append, List.cons.injEq] at hq
        exact ⟨(d :: r) :: ps, p, by rw [← hq.1, ← hq.2]; rfl⟩

theorem lines_eq_nil_iff {t : Text} : lines t = [] ↔ t = [] := by
  cases t with
  | nil => simp [lines]
  | cons c t =>
    simp only [reduceCtorEq, iff_false]
    unfold lines
    split
    · simp
    · split <;> simp

/-- A line end between two texts parts their lines. It may leave an empty one between them. -/
theorem lines_append_end {c : Char} (hc : endsLine c) (t u : Text) :
    ∃ empty, (empty = [] ∨ empty = [[]]) ∧ lines (t ++ c :: u) = lines t ++ empty ++ lines u := by
  induction t with
  | nil => exact ⟨[[]], Or.inr rfl, by simp [lines, hc]⟩
  | cons d t ih =>
    obtain ⟨empty, he, hl⟩ := ih
    by_cases hd : endsLine d
    · exact ⟨empty, he, by simp [lines, hd, hl]⟩
    · cases ht : lines t with
      | nil =>
        obtain rfl := lines_eq_nil_iff.mp ht
        exact ⟨[], Or.inl rfl, by simp [lines, hd, hc]⟩
      | cons l ls => exact ⟨empty, he, by simp [lines, hd, hl, ht]⟩

theorem lines_of_not_endsLine {t : Text} (h : ∀ c ∈ t, endsLine c = false) (hne : t ≠ []) :
    lines t = [t] := by
  induction t with
  | nil => exact absurd rfl hne
  | cons c t ih =>
    rw [List.forall_mem_cons] at h
    cases t with
    | nil => simp [lines, h.1]
    | cons d t => rw [lines, h.1, ih h.2 (by simp)]; rfl

theorem not_mem_unifyNewlines (t : Text) : '\r' ∉ unifyNewlines t := by
  fun_induction unifyNewlines t with
  | case1 t ih => simpa using ih
  | case2 t _ ih => simpa using ih
  | case3 c t _ hc ih =>
    have hne : '\r' ≠ c := fun h => hc h.symm
    simpa [hne] using ih
  | case4 => simp

theorem unifyNewlines_of_not_mem {t : Text} (h : '\r' ∉ t) : unifyNewlines t = t := by
  induction t with
  | nil => rfl
  | cons c t ih =>
    rw [List.mem_cons, not_or] at h
    rw [unifyNewlines, ih h.2]
    · exact fun _ hc => absurd hc.symm h.1
    · exact fun hc => absurd hc.symm h.1

end Text

namespace Listing

def declaredIn (t : Text) : List (Text × Text) := declared (Text.lines t)

theorem declaredIn_append_end {c : Char} (hc : Text.endsLine c) (t u : Text) :
    declaredIn (t ++ c :: u) = declaredIn t ++ declaredIn u := by
  obtain ⟨empty, he, hl⟩ := Text.lines_append_end hc t u
  have hd : declared empty = [] := by
    rcases he with rfl | rfl <;> rfl
  rw [declaredIn, hl, declared_append, declared_append, hd, List.append_nil]
  rfl

theorem declaredIn_append_last {c : Char} (hc : Text.endsLine c) (t : Text) :
    declaredIn (t ++ [c]) = declaredIn t := by
  rw [declaredIn_append_end hc]
  exact List.append_nil _

theorem declaredIn_join (ps : List Text) :
    declaredIn (Text.join ['\n'] ps) = ps.flatMap declaredIn := by
  induction ps with
  | nil => rfl
  | cons p ps ih =>
    cases ps with
    | nil => simp [Text.join]
    | cons q ps =>
      rw [Text.join_cons _ _ (by simp), List.append_assoc, List.singleton_append,
        declaredIn_append_end (by decide), ih, ← List.flatMap_cons]

/-- The draft that pieces of a text give to a key: the last one. -/
def draft? (ps : List Text) (key : Text) : Option Text :=
  Table.find? key (ps.flatMap declaredIn).reverse

theorem draft?_append (ps qs : List Text) (key : Text) :
    draft? (ps ++ qs) key = (draft? qs key).or (draft? ps key) := by
  rw [draft?, List.flatMap_append, List.reverse_append, Table.find?_append]
  rfl

theorem draft?_cons (p : Text) (ps : List Text) (key : Text) :
    draft? (p :: ps) key = (draft? ps key).or (draft? [p] key) :=
  draft?_append [p] ps key

theorem draft?_join (ps : List Text) (key : Text) :
    draft? [Text.join ['\n'] ps] key = draft? ps key := by
  rw [draft?, List.flatMap_singleton, declaredIn_join]
  rfl

theorem draft?_pieces (t key : Text) : draft? (Text.pieces '\n' t) key = draft? [t] key := by
  rw [← draft?_join, Text.join_pieces]

theorem get?_drafts_lines (t key : Text) : (drafts (Text.lines t)).get? key = draft? [t] key := by
  rw [get?_drafts, draft?, List.flatMap_singleton]
  rfl

end Listing

end EnvFile
