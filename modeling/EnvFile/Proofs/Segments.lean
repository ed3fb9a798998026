import EnvFile.Edit
import EnvFile.Proofs.Pieces

namespace EnvFile

theorem findSome?_eq_map {α β γ : Type} {f : α → Option γ} {g : α → Option β} {h : β → γ}
    {xs : List α} (he : ∀ x ∈ xs, f x = (g x).map h) : xs.findSome? f = (xs.findSome? g).map h := by
  induction xs with
  | nil => rfl
  | cons x xs ih =>
    obtain ⟨hx, hxs⟩ := List.forall_mem_cons.mp he
    cases hg : g x with
    | none => simpa [hx, hg] using ih hxs
    | some b => simp [hx, hg]

theorem Text.not_mem_of_after? {mark : Char} {start t r : Text} (h : after? start t = some r)
    (ht : mark ∉ t) : mark ∉ r := by
  rw [after?_eq_some_iff] at h
  rw [h, List.mem_append, not_or] at ht
  exact ht.2

/-- A beginning that holds no mark ends before the first one. -/
theorem Text.after?_append_cons {mark : Char} {start : Text} (h : mark ∉ start) (t u : Text) :
    after? start (t ++ mark :: u) = (after? start t).map (· ++ mark :: u) := by
  induction start generalizing t with
  | nil => rfl
  | cons s start ih =>
    rw [List.mem_cons, not_or] at h
    cases t with
    | nil => simp [after?, Ne.symm h.1]
    | cons c t =>
      by_cases hc : s = c
      · simp only [List.cons_append, after?, hc, ↓reduceIte, ih h.2]
      · simp [after?, hc]

namespace Edit

/-- An edit of the key takes the line for a declaration of it. -/
def rewrites (key line : Text) : Bool := (afterDeclaration? key line).isSome

theorem not_mem_of_mem_unpadded {mark : Char} {t u : Text} (h : u ∈ unpadded t) (ht : mark ∉ t) :
    mark ∉ u := by
  induction t with
  | nil =>
    obtain rfl := List.mem_singleton.mp h
    exact ht
  | cons c t ih =>
    rcases List.mem_append.mp h with h | h
    · split at h
      next => exact ih h fun hm => ht (List.mem_cons_of_mem _ hm)
      next => simp at h
    · obtain rfl := List.mem_singleton.mp h
      exact ht

section LineEnd

variable {key l rest : Text}

theorem after?_append_rest (hk : '\n' ∉ key) (hr : rest = [] ∨ ∃ r, rest = '\n' :: r) :
    Text.after? key (l ++ rest) = (Text.after? key l).map (· ++ rest) := by
  rcases hr with rfl | ⟨r, rfl⟩
  · simp
  · exact Text.after?_append_cons hk l r

theorem dropWhile_isPad_append_rest (hr : rest = [] ∨ ∃ r, rest = '\n' :: r) (u : Text) :
    (u ++ rest).dropWhile isPad = u.dropWhile isPad ++ rest := by
  induction u with
  | nil => rcases hr with rfl | ⟨r, rfl⟩ <;> rfl
  | cons c u ih =>
    by_cases hc : isPad c
    · simp [hc, ih]
    · simp [hc]

theorem dropWhile_line_append_rest (hl : '\n' ∉ l) (hr : rest = [] ∨ ∃ r, rest = '\n' :: r) :
    (l ++ rest).dropWhile (· != '\n') = rest := by
  rw [List.dropWhile_append_of_pos]
  · rcases hr with rfl | ⟨r, rfl⟩ <;> simp
  · intro c hc
    exact bne_iff_ne.mpr fun he => hl (he ▸ hc)

theorem takeWhile_line_append_rest (hl : '\n' ∉ l) (hr : rest = [] ∨ ∃ r, rest = '\n' :: r) :
    (l ++ rest).takeWhile (· != '\n') = l := by
  rw [List.takeWhile_append_of_pos]
  · rcases hr with rfl | ⟨r, rfl⟩ <;> simp
  · intro c hc
    exact bne_iff_ne.mpr fun he => hl (he ▸ hc)

theorem afterSign?_append_rest (hk : '\n' ∉ key) (hl : '\n' ∉ l)
    (hr : rest = [] ∨ ∃ r, rest = '\n' :: r) :
    afterSign? key (l ++ rest) = (afterSign? key l).map fun _ => rest := by
  unfold afterSign?
  rw [after?_append_rest hk hr]
  cases hu : Text.after? key l with
  | none => rfl
  | some u =>
    have hdrop : '\n' ∉ u.dropWhile isPad := fun hm =>
      Text.not_mem_of_after? hu hl ((List.dropWhile_sublist isPad).mem hm)
    simp only [Option.map_some]
    rw [dropWhile_isPad_append_rest hr]
    cases hd : u.dropWhile isPad with
    | nil => rcases hr with rfl | ⟨r, rfl⟩ <;> simp
    | cons c right =>
      rw [hd, List.mem_cons, not_or] at hdrop
      by_cases hc : c = '='
      · subst hc
        simp only [List.cons_append, Option.map_some]
        rw [dropWhile_line_append_rest hdrop.2 hr]
      · simp [hc]

theorem unpadded_append_rest (hr : rest = [] ∨ ∃ r, rest = '\n' :: r) (u : Text) :
    unpadded (u ++ rest) = (unpadded u).map (· ++ rest) := by
  induction u with
  | nil => rcases hr with rfl | ⟨r, rfl⟩ <;> simp [unpadded, isPad]
  | cons c u ih =>
    by_cases hc : isPad c
    · simp [unpadded, hc, ih]
    · simp [unpadded, hc]

theorem afterExport?_append_rest (hk : '\n' ∉ key) (hl : '\n' ∉ l)
    (hr : rest = [] ∨ ∃ r, rest = '\n' :: r) :
    afterExport? key (l ++ rest) = (afterExport? key l).map fun _ => rest := by
  unfold afterExport?
  rw [after?_append_rest (by decide) hr]
  cases hu : Text.after? "export".toList l with
  | none => rfl
  | some u =>
    cases u with
    | nil => rcases hr with rfl | ⟨r, rfl⟩ <;> simp [isPad]
    | cons c u =>
      have hnu : '\n' ∉ u := fun hm =>
        Text.not_mem_of_after? hu hl (List.mem_cons_of_mem _ hm)
      by_cases hc : isPad c
      · simp only [Option.map_some, List.cons_append, hc, ↓reduceIte]
        rw [unpadded_append_rest hr, List.findSome?_map]
        exact findSome?_eq_map fun v hv =>
          afterSign?_append_rest hk (not_mem_of_mem_unpadded hv hnu) hr
      · simp [hc]

/-- Whether a line is taken for a declaration hangs on the line alone. -/
theorem afterDeclaration?_append_rest (hk : '\n' ∉ key) (hl : '\n' ∉ l)
    (hr : rest = [] ∨ ∃ r, rest = '\n' :: r) :
    afterDeclaration? key (l ++ rest) = (afterDeclaration? key l).map fun _ => rest := by
  unfold afterDeclaration?
  rw [unpadded_append_rest hr, List.findSome?_map]
  refine findSome?_eq_map fun u hu => ?_
  have hnu := not_mem_of_mem_unpadded hu hl
  simp only [Function.comp_apply, afterExport?_append_rest hk hnu hr,
    afterSign?_append_rest hk hnu hr]
  cases afterExport? key u <;> rfl

end LineEnd

def Segment.ofLine (key line : Text) : Segment :=
  if rewrites key line then .declaration else .other line

theorem firstSegment_append_rest {key l rest : Text} (hk : '\n' ∉ key) (hl : '\n' ∉ l)
    (hr : rest = [] ∨ ∃ r, rest = '\n' :: r) :
    firstSegment key (l ++ rest) = (.ofLine key l, rest) := by
  unfold firstSegment Segment.ofLine rewrites
  rw [afterDeclaration?_append_rest hk hl hr]
  cases afterDeclaration? key l with
  | none =>
    simp [takeWhile_line_append_rest hl hr, dropWhile_line_append_rest hl hr]
  | some r => rfl

theorem segments_of_firstSegment_end {key t : Text} {s : Segment}
    (h : firstSegment key t = (s, [])) : segments key t = [s] := by
  rw [segments]
  split
  next => rw [h]
  next he => simp [h] at he

theorem segments_of_firstSegment_more {key t next : Text} {s : Segment} {c : Char}
    (h : firstSegment key t = (s, c :: next)) : segments key t = s :: segments key next := by
  rw [segments]
  split
  next he => simp [h] at he
  next he =>
    rw [h] at he
    cases he
    rw [h]

/-- An edit sees the pieces between line feeds, each for itself. -/
theorem segments_eq_map {key : Text} (hk : '\n' ∉ key) (t : Text) :
    segments key t = (Text.pieces '\n' t).map (.ofLine key) := by
  -- a segment ends where the first line feed is, so what is left after it is shorter
  induction hn : t.length using Nat.strongRecOn generalizing t with
  | ind n ih =>
    have ht : t.takeWhile (· != '\n') ++ t.dropWhile (· != '\n') = t :=
      List.takeWhile_append_dropWhile
    have hl : '\n' ∉ t.takeWhile (· != '\n') := by
      intro hm
      have := List.all_eq_true.mp (List.all_takeWhile (p := (· != '\n')) (l := t)) _ hm
      simp at this
    cases hrest : t.dropWhile (· != '\n') with
    | nil =>
      rw [hrest, List.append_nil] at ht
      rw [ht] at hl
      have hend : ([] : Text) = [] ∨ ∃ r : Text, [] = '\n' :: r := Or.inl rfl
      have hf := firstSegment_append_rest hk hl hend
      rw [List.append_nil] at hf
      rw [Text.pieces_of_not_mem hl, segments_of_firstSegment_end hf]
      rfl
    | cons c next =>
      have hc : c = '\n' := by
        have := List.head?_dropWhile_not (· != '\n') t
        simpa [hrest] using this
      subst hc
      rw [hrest] at ht
      have hlen : next.length < n := by
        rw [← hn, ← ht, List.length_append, List.length_cons]
        omega
      have hf := firstSegment_append_rest hk hl (Or.inr ⟨next, rfl⟩)
      rw [← ht, Text.pieces_append, Text.pieces_of_not_mem hl, List.singleton_append, List.map_cons,
        ← ih _ hlen next rfl, segments_of_firstSegment_more hf]

end Edit

end EnvFile
