import EnvFile.Proofs.Segments

namespace EnvFile

namespace Utf8

theorem unmarked_of_head {t : Text} (h : ∀ c ∈ t.head?, c ≠ '\uFEFF') : unmarked t = t := by
  unfold unmarked
  split
  next => exact absurd rfl (h '\uFEFF' rfl)
  next => rfl

theorem unmarked_append {u : Text} (h : ∀ c ∈ u.head?, c ≠ '\uFEFF') (t : Text) :
    unmarked (t ++ u) = unmarked t ++ u := by
  cases t with
  | nil => exact unmarked_of_head h
  | cons c t =>
    unfold unmarked
    by_cases hc : c = '\uFEFF'
    · simp [hc]
    · simp [hc]

end Utf8

namespace Edit

open Listing

variable {key line : Text}

/-- The pieces of a text that an edit of the key leaves, as they are read again: a mark that comes
to stand at the start of the file is lost. -/
def kept (key : Text) : List Text → List Text
  | [] => []
  | p :: ps =>
    (if rewrites key p then [] else [Utf8.unmarked p]) ++ ps.filter fun p => !rewrites key p

/-- The pieces below the last one that an edit of the key rewrites. -/
def below (key : Text) : List Text → List Text
  | [] => []
  | p :: ps => if ps.any (rewrites key) then below key ps else if rewrites key p then ps else []

def rewritten (key line p : Text) : Text := if rewrites key p then line else p

theorem contains_declaration (ps : List Text) :
    (ps.map (Segment.ofLine key)).contains .declaration = ps.any (rewrites key) := by
  induction ps with
  | nil => rfl
  | cons p ps ih =>
    rw [List.map_cons, List.contains_cons, ih, List.any_cons, Segment.ofLine]
    cases rewrites key p <;> rfl

theorem overwrite_of_any (hk : '\n' ∉ key) {t : Text}
    (h : (Text.pieces '\n' t).any (rewrites key)) :
    overwrite key line t = Text.join ['\n'] ((Text.pieces '\n' t).map (rewritten key line)) := by
  rw [overwrite, segments_eq_map hk, contains_declaration, h, if_pos rfl, List.map_map]
  refine congrArg (Text.join ['\n']) (List.map_congr_left fun p _ => ?_)
  simp only [Function.comp_apply, Segment.ofLine, rewritten]
  cases rewrites key p <;> rfl

/-- A line added to a text begins where the text is empty or after a line feed. -/
theorem overwrite_of_not_any (line : Text) (hk : '\n' ∉ key) {t : Text}
    (h : (Text.pieces '\n' t).any (rewrites key) = false) :
    (overwrite key line t = t ++ '\n' :: (line ++ ['\n']) ∧ ∃ u c, c ≠ '\n' ∧ t = u ++ [c]) ∨
      (overwrite key line t = t ++ (line ++ ['\n']) ∧ (t = [] ∨ ∃ u, t = u ++ ['\n'])) := by
  rw [overwrite, segments_eq_map hk, contains_declaration, h]
  rcases List.eq_nil_or_concat' t with rfl | ⟨u, c, rfl⟩
  · exact Or.inr ⟨by simp, Or.inl rfl⟩
  · by_cases hc : c = '\n'
    · subst hc
      exact Or.inr ⟨by simp, Or.inr ⟨u, rfl⟩⟩
    · exact Or.inl ⟨by simp [hc], u, c, hc, rfl⟩

/-- A string of characters makes the line that its text does. -/
theorem overwriteRaw_ofText (key line t : Text) :
    overwriteRaw key (RawText.ofText line) t = RawText.ofText (overwrite key line t) := by
  unfold overwriteRaw overwrite RawText.ofText
  simp only
  split
  next =>
    rw [← Text.join_map, List.map_map, List.map_singleton]
    refine congrArg (Text.join [CodePoint.char '\n']) (List.map_congr_left fun segment _ => ?_)
    cases segment <;> rfl
  next => rw [List.map_append, List.map_append, List.map_singleton]

theorem unmarked_join (p : Text) (ps : List Text) :
    Utf8.unmarked (Text.join ['\n'] (p :: ps)) = Text.join ['\n'] (Utf8.unmarked p :: ps) := by
  cases ps with
  | nil => rfl
  | cons q ps =>
    rw [Text.join_cons _ p (List.cons_ne_nil q ps), List.append_assoc, Utf8.unmarked_append (by simp),
      Text.join_cons _ (Utf8.unmarked p) (List.cons_ne_nil q ps), List.append_assoc]

theorem declaredIn_overwrite_of_not_any (hk : '\n' ∉ key) (hline : ∀ c ∈ line.head?, c ≠ '\uFEFF')
    {t : Text} (h : (Text.pieces '\n' t).any (rewrites key) = false) :
    declaredIn (Utf8.unmarked (overwrite key line t)) =
      declaredIn (Utf8.unmarked t) ++ declaredIn line := by
  have hended : declaredIn (line ++ ['\n']) = declaredIn line :=
    declaredIn_append_last (by decide) line
  have hhead : ∀ c ∈ (line ++ ['\n']).head?, c ≠ '\uFEFF' := by
    cases line with
    | nil => simp
    | cons c line => simpa using hline
  rcases overwrite_of_not_any line hk h with ⟨he, _⟩ | ⟨he, rfl | ⟨u, rfl⟩⟩
  · rw [he, Utf8.unmarked_append (by simp), declaredIn_append_end (by decide), hended]
  · rw [he, List.nil_append, Utf8.unmarked_of_head hhead, hended]
    rfl
  · have hu : Utf8.unmarked (u ++ ['\n']) = Utf8.unmarked u ++ ['\n'] :=
      Utf8.unmarked_append (by simp) u
    have hlast : declaredIn (Utf8.unmarked u ++ ['\n']) = declaredIn (Utf8.unmarked u) :=
      declaredIn_append_last (by decide) _
    rw [he, Utf8.unmarked_append hhead, hu, hlast, List.append_assoc, List.singleton_append,
      declaredIn_append_end (by decide), hended]

theorem draft?_map_rewritten {ps : List Text} (h : ps.any (rewrites key)) (k : Text) :
    draft? (ps.map (rewritten key line)) k =
      (draft? (below key ps) k).or
        ((draft? [line] k).or (draft? (ps.filter fun p => !rewrites key p) k)) := by
  induction ps with
  | nil => simp at h
  | cons p ps ih =>
    rw [List.map_cons, draft?_cons]
    by_cases hps : ps.any (rewrites key)
    · rw [ih hps]
      by_cases hp : rewrites key p
      · simp only [below, hps, rewritten, hp, ↓reduceIte, List.filter_cons, Bool.not_true,
          Bool.false_eq_true]
        cases draft? (below key ps) k <;> cases draft? [line] k <;> simp
      · have hcons := draft?_cons p (ps.filter fun p => !rewrites key p) k
        simp only [below, hps, rewritten, hp, ↓reduceIte, List.filter_cons, Bool.not_false,
          Bool.false_eq_true, hcons, Option.or_assoc]
    · have hp : rewrites key p := by simpa [hps] using h
      have hnone : ∀ q ∈ ps, rewrites key q = false := by simpa using hps
      have hmap : ps.map (rewritten key line) = ps := by
        conv_rhs => rw [← List.map_id ps]
        exact List.map_congr_left fun q hq => by simp [rewritten, hnone q hq]
      have hfilter : ps.filter (fun p => !rewrites key p) = ps :=
        List.filter_eq_self.mpr fun q hq => by simp [hnone q hq]
      simp only [below, hps, rewritten, hp, ↓reduceIte, List.filter_cons, Bool.not_true,
        Bool.false_eq_true, hfilter]
      rw [hmap]
      cases draft? ps k <;> cases draft? [line] k <;> simp

theorem filter_of_not_any {ps : List Text} (h : ps.any (rewrites key) = false) :
    ps.filter (fun p => !rewrites key p) = ps := by
  refine List.filter_eq_self.mpr fun p hp => ?_
  simp [List.any_eq_false.mp h p hp]

theorem below_of_not_any {ps : List Text} (h : ps.any (rewrites key) = false) :
    below key ps = [] := by
  cases ps with
  | nil => rfl
  | cons p ps =>
    rw [List.any_cons, Bool.or_eq_false_iff] at h
    simp [below, h.1, h.2]

/-- Where the drafts of an overwritten text come from, once it is read again. -/
theorem draft?_overwrite (hk : '\n' ∉ key) (hline : ∀ c ∈ line.head?, c ≠ '\uFEFF') (t k : Text) :
    draft? [Utf8.unmarked (overwrite key line t)] k =
      (draft? (below key (Text.pieces '\n' t)) k).or
        ((draft? [line] k).or (draft? (kept key (Text.pieces '\n' t)) k)) := by
  -- only the first piece can lose a mark, so it is taken apart from the others
  obtain ⟨p, ps, hp⟩ := List.exists_cons_of_ne_nil (Text.pieces_ne_nil '\n' t)
  by_cases hany : (Text.pieces '\n' t).any (rewrites key)
  · rw [overwrite_of_any hk hany]
    rw [hp] at hany ⊢
    rw [List.map_cons, unmarked_join, draft?_join]
    by_cases hr : rewrites key p
    · have hfirst : Utf8.unmarked (rewritten key line p) = rewritten key line p := by
        rw [rewritten, if_pos hr, Utf8.unmarked_of_head hline]
      rw [hfirst, ← List.map_cons, draft?_map_rewritten hany]
      simp [kept, hr]
    · have hps : ps.any (rewrites key) := by simpa [hr] using hany
      have hbelow : below key (p :: ps) = below key ps := by simp [below, hps]
      have hkept : kept key (p :: ps) =
          Utf8.unmarked p :: ps.filter fun p => !rewrites key p := by simp [kept, hr]
      rw [rewritten, if_neg hr, hbelow, hkept, draft?_cons, draft?_map_rewritten hps,
        draft?_cons (Utf8.unmarked p) (ps.filter fun p => !rewrites key p), Option.or_assoc,
        Option.or_assoc]
  · rw [Bool.not_eq_true] at hany
    have hdrafts : draft? [Utf8.unmarked (overwrite key line t)] k =
        (draft? [line] k).or (draft? [Utf8.unmarked t] k) := by
      rw [draft?, List.flatMap_singleton, declaredIn_overwrite_of_not_any hk hline hany,
        List.reverse_append, Table.find?_append]
      simp [draft?]
    have hmarked : draft? [Utf8.unmarked t] k = draft? (Utf8.unmarked p :: ps) k := by
      rw [← draft?_join (Utf8.unmarked p :: ps), ← unmarked_join, ← hp, Text.join_pieces]
    rw [hp] at hany ⊢
    have hps : ps.any (rewrites key) = false := (Bool.or_eq_false_iff.mp hany).2
    have hr : rewrites key p = false := (Bool.or_eq_false_iff.mp hany).1
    rw [hdrafts, hmarked, below_of_not_any hany]
    simp [kept, hr, filter_of_not_any hps, draft?, Table.find?]

/-- Nothing overrides the drafts below the last piece that is rewritten. -/
theorem draft?_of_below {ps : List Text} {k d : Text} (h : draft? (below key ps) k = some d) :
    draft? ps k = some d := by
  induction ps with
  | nil => exact h
  | cons p ps ih =>
    rw [draft?_cons]
    by_cases hps : ps.any (rewrites key)
    · rw [below, if_pos hps] at h
      rw [ih h]
      rfl
    · by_cases hp : rewrites key p
      · rw [below, if_neg hps, if_pos hp] at h
        rw [h]
        rfl
      · simp [below, hps, hp, draft?, Table.find?] at h

/-- An edit of one key leaves the drafts of the others if every other key that is not declared
below the last rewritten piece has its draft from the new line or from the pieces that are kept. -/
def Spares (key line t : Text) : Prop :=
  ∀ k, k ≠ key → draft? (below key (Text.pieces '\n' t)) k = none →
    (draft? [line] k).or (draft? (kept key (Text.pieces '\n' t)) k) =
      draft? (Text.pieces '\n' t) k

theorem drafts_overwrite_iff (hk : '\n' ∉ key) (hline : ∀ c ∈ line.head?, c ≠ '\uFEFF') (t : Text) :
    (∀ k, k ≠ key → (drafts (Text.lines (Utf8.unmarked (overwrite key line t)))).get? k =
      (drafts (Text.lines t)).get? k) ↔ Spares key line t := by
  refine forall_congr' fun k => imp_congr_right fun _ => ?_
  rw [get?_drafts_lines, get?_drafts_lines, draft?_overwrite hk hline, ← draft?_pieces t]
  cases hb : draft? (below key (Text.pieces '\n' t)) k with
  | none => simp
  | some d => simp [draft?_of_below hb]

end Edit

end EnvFile
