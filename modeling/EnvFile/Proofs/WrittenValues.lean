import EnvFile.Edit
import EnvFile.Proofs.Blanks
import EnvFile.Proofs.Results

namespace EnvFile

namespace Text

theorem mem_of_mem_trim {c : Char} {t : Text} (h : c ∈ trim t) : c ∈ t := by
  obtain ⟨l, r, ht, _, _⟩ := exists_trim t
  rw [ht]
  simp [h]

end Text

namespace Value

def needsMarks (t : Text) : Bool := (Text.trim t).contains '#' || Text.trim t != t

/-- A text is written trimmed, and between marks where it needs them. -/
theorem written_text {raw t : Text} (h : (text raw).written = .ok t) :
    '\n' ∉ raw ∧ '\r' ∉ raw ∧
      t = if needsMarks raw then '"' :: Text.trim raw ++ ['"'] else Text.trim raw := by
  obtain ⟨u, hu, h⟩ := Results.bind_eq_ok.mp h
  cases hu
  simp only at h
  split at h
  next => simp at h
  next hb =>
    rw [Bool.not_eq_true, Bool.or_eq_false_iff] at hb
    refine ⟨by simpa using hb.1, by simpa using hb.2, ?_⟩
    unfold needsMarks
    split at h
    next hq => rw [if_pos hq, Except.ok.inj h]
    next hq => rw [if_neg hq, Except.ok.inj h]

/-- A value other than null and the two truth values is written as the text that displays it. -/
theorem written_eq_written_text {v : Value} {t : Text} (h : v.written = .ok t) :
    (v = null ∧ t = []) ∨ (v = bool true ∧ t = "true".toList) ∨
      (v = bool false ∧ t = "false".toList) ∨
      ∃ raw, v.display = .ok raw ∧ (text raw).written = .ok t := by
  unfold written at h
  split at h
  next => exact Or.inl ⟨rfl, (Except.ok.inj h).symm⟩
  next => exact Or.inr (Or.inl ⟨rfl, (Except.ok.inj h).symm⟩)
  next => exact Or.inr (Or.inr (Or.inl ⟨rfl, (Except.ok.inj h).symm⟩))
  next =>
    obtain ⟨raw, hraw, h⟩ := Results.bind_eq_ok.mp h
    exact Or.inr (Or.inr (Or.inr ⟨raw, hraw, h⟩))

/-- An integer is written as its text would be. -/
theorem written_int {n : Int} {raw : Text} (h : (int n).display = .ok raw) :
    (int n).written = (text raw).written := by
  change (int n).display >>= _ = _
  rw [h]
  rfl

/-- A value is written on one line, as far as line feeds and carriage returns go. -/
theorem not_mem_written {v : Value} {t : Text} (h : v.written = .ok t) : '\n' ∉ t ∧ '\r' ∉ t := by
  rcases written_eq_written_text h with ⟨_, rfl⟩ | ⟨_, rfl⟩ | ⟨_, rfl⟩ | ⟨raw, _, h⟩
  · exact ⟨by decide, by decide⟩
  · exact ⟨by decide, by decide⟩
  · exact ⟨by decide, by decide⟩
  · obtain ⟨hn, hr, rfl⟩ := written_text h
    have hn' : '\n' ∉ Text.trim raw := fun hm => hn (Text.mem_of_mem_trim hm)
    have hr' : '\r' ∉ Text.trim raw := fun hm => hr (Text.mem_of_mem_trim hm)
    split
    · simp [hn', hr']
    · exact ⟨hn', hr'⟩

end Value

namespace RawText

theorem ofText_inj {t u : Text} : ofText t = ofText u ↔ t = u :=
  List.map_inj_right fun _ _ h => CodePoint.char.inj h

end RawText

end EnvFile
