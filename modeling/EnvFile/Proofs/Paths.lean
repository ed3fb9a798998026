import EnvFile.FileTree
import EnvFile.Proofs.Pieces

namespace EnvFile

namespace Path

/-- The form that texts are read in: no segment is idle, and no more than two slashes lead. -/
structure Regular (p : Path) : Prop where
  lead : p.lead = [] ∨ p.lead = ['/'] ∨ p.lead = ['/', '/']
  segments : ∀ s ∈ p.segments, s ≠ [] ∧ s ≠ ['.'] ∧ '/' ∉ s

theorem regular_ofText (t : Text) : (ofText t).Regular := by
  constructor
  · unfold ofText leadOf
    simp only
    split
    next => exact Or.inl rfl
    next => exact Or.inr (Or.inr rfl)
    next => exact Or.inr (Or.inl rfl)
  · intro s hs
    obtain ⟨hmem, hs⟩ := List.mem_filter.mp hs
    obtain ⟨hne, hpoint⟩ := of_decide_eq_true hs
    exact ⟨hne, hpoint, Text.not_mem_of_mem_pieces hmem⟩

variable {p q : Path}

theorem Regular.join (hp : p.Regular) (hq : q.Regular) : (p.join q).Regular := by
  unfold Path.join
  split
  next => exact ⟨hp.lead, List.forall_mem_append.mpr ⟨hp.segments, hq.segments⟩⟩
  next => exact hq

theorem Regular.filter_segments (h : p.Regular) :
    p.segments.filter (fun s => s ≠ [] ∧ s ≠ ['.']) = p.segments :=
  List.filter_eq_self.mpr fun s hs => decide_eq_true ⟨(h.segments s hs).1, (h.segments s hs).2.1⟩

theorem leadOf_append {lead t : Text} (hlead : lead = [] ∨ lead = ['/'] ∨ lead = ['/', '/'])
    (ht : t.takeWhile (· == '/') = []) : leadOf (lead ++ t) = lead := by
  have hall : ∀ c ∈ lead, (c == '/') = true := by
    rcases hlead with rfl | rfl | rfl <;> simp
  unfold leadOf
  rw [List.takeWhile_append_of_pos hall, ht, List.append_nil]
  rcases hlead with rfl | rfl | rfl <;> rfl

/-- A path in that form is read back from its text. -/
theorem ofText_toText (h : p.Regular) : ofText p.toText = p := by
  obtain ⟨lead, segments⟩ := p
  cases segments with
  | nil => rcases h.lead with rfl | rfl | rfl <;> decide
  | cons s ss =>
    have hlead := h.lead
    have hfilter := h.filter_segments
    simp only at hlead hfilter
    obtain ⟨hne, _, hslash⟩ := h.segments s List.mem_cons_self
    have hjoin := Text.pieces_join '/' (List.cons_ne_nil s ss)
      fun q hq => (h.segments q hq).2.2
    have hstart : (Text.join ['/'] (s :: ss)).takeWhile (· == '/') = [] := by
      obtain ⟨c, t, rfl⟩ := List.exists_cons_of_ne_nil hne
      rw [List.mem_cons, not_or] at hslash
      have hc : ¬(c == '/') = true := by simpa using Ne.symm hslash.1
      cases ss with
      | nil => exact List.takeWhile_cons_of_neg hc
      | cons _ _ => exact List.takeWhile_cons_of_neg hc
    have htext : toText ⟨lead, s :: ss⟩ = lead ++ Text.join ['/'] (s :: ss) := by
      simp [toText, isHere]
    rw [htext, ofText, leadOf_append hlead hstart]
    rcases hlead with rfl | rfl | rfl
    · rw [List.nil_append, hjoin, hfilter]
    · rw [List.singleton_append, Text.pieces, if_pos rfl, hjoin]
      simpa using hfilter
    · rw [List.cons_append, List.singleton_append, Text.pieces, if_pos rfl, Text.pieces, if_pos rfl,
        hjoin]
      simpa using hfilter

end Path

end EnvFile
