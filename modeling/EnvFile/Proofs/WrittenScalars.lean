import EnvFile.Proofs.Numerals
import EnvFile.Proofs.Restoring

namespace EnvFile

namespace Text

def isTokenChar (c : Char) : Bool := isNameChar c || c == '-'

/-- A text of name characters and hyphens, so that no mark, sign or blank stands in it. -/
def IsToken (t : Text) : Prop := ∀ c ∈ t, isTokenChar c

variable {t : Text}

instance : Decidable (IsToken t) := decidable_of_iff (t.all isTokenChar) List.all_eq_true

theorem IsToken.not_mem (h : IsToken t) {c : Char} (hc : isTokenChar c = false) : c ∉ t := by
  intro hm
  rw [h c hm] at hc
  cases hc

theorem not_isTokenChar_of_isBlank {c : Char} (h : isBlank c) : isTokenChar c = false := by
  rw [isTokenChar, Bool.or_eq_false_iff, ← Bool.not_eq_true]
  refine ⟨not_isNameChar_of_isBlank h, beq_eq_false_iff_ne.mpr ?_⟩
  rintro rfl
  exact absurd h (by decide)

theorem IsToken.not_isBlank (h : IsToken t) {c : Char} (hc : c ∈ t) : isBlank c = false :=
  Bool.eq_false_iff.mpr fun hb => h.not_mem (not_isTokenChar_of_isBlank hb) hc

theorem IsToken.trim (h : IsToken t) : Text.trim t = t := trim_of_not_blank fun _ hc => h.not_isBlank hc

theorem isToken_of_digits {digits : Text} (h : ∀ c ∈ digits, c.isDigit) (negative : Bool) :
    IsToken (if negative then '-' :: digits else digits) := by
  have hdigits : IsToken digits := by
    intro c hc
    simp [isTokenChar, isNameChar, Char.isAlphanum, h c hc]
  cases negative with
  | true => exact List.forall_mem_cons.mpr ⟨rfl, hdigits⟩
  | false => exact hdigits

end Text

namespace Value

variable {t : Text} {v : Value}

theorem needsMarks_of_token (h : t.IsToken) : needsMarks t = false := by
  have hash : '#' ∉ t := h.not_mem rfl
  rw [needsMarks, h.trim]
  simpa using hash

theorem restorable_of_token (h : t.IsToken) : Restorable t where
  oneLine c hc := by
    rw [h.trim] at hc
    refine Bool.eq_false_iff.mpr fun he => ?_
    have hblank := h.not_isBlank hc
    rw [Text.isBlank_of_endsLine he] at hblank
    cases hblank
  plain := by
    rw [h.trim]
    exact Template.plain_of_not_mem (h.not_mem rfl)
  bare _ := by
    have hsign : '=' ∉ t := h.not_mem rfl
    refine ⟨Declaration.doublesSign_eq_false_iff.mpr fun rest ht => ?_, ?_⟩
    · exact absurd (ht ▸ List.mem_cons_self) hsign
    · exact Text.enclosed?_of_not_mem (h.not_mem rfl)
  marked hm := by
    rw [needsMarks_of_token h] at hm
    cases hm
  settled := Or.inl h.trim

theorem written_of_token (h : t.IsToken) : (text t).written = .ok t := by
  have hn : '\n' ∉ t := h.not_mem rfl
  have hr : '\r' ∉ t := h.not_mem rfl
  have hash : '#' ∉ t := h.not_mem rfl
  refine Results.bind_eq_ok.mpr ⟨t, rfl, ?_⟩
  simp [h.trim, hn, hr, hash]

theorem carried_of_token (h : t.IsToken) : Hazard.carried t = false :=
  Hazard.carried_of_not_mem (h.not_mem rfl)

/-- Digits after a minus sign or none are read as an integer. -/
theorem ofText_of_digits {digits : Text} (hd : ∀ c ∈ digits, c.isDigit) (hne : digits ≠ [])
    (negative : Bool) :
    ofText (if negative then '-' :: digits else digits) =
      (Numeral.readInt negative digits).map int := by
  have hnumeral := Numeral.ofText?_of_digits negative hd hne
  rw [← (Text.isToken_of_digits hd negative).trim] at hnumeral
  exact ofText_of_numeral hnumeral

/-- The values that a line holds just as they are: null, the truth values, and integers that are not
too long. -/
inductive IsExact : Value → Prop
  | null : IsExact null
  | bool (b : Bool) : IsExact (bool b)
  | int {n : Int} : (Text.ofNat n.natAbs).length ≤ Fault.digitLimit → IsExact (int n)

/-- Such a value is written as a token that stands for it. -/
theorem IsExact.exists_token (h : IsExact v) :
    ∃ t, t.IsToken ∧ v.written = .ok t ∧ ofText t = .ok v := by
  cases h with
  | null => exact ⟨[], by decide, rfl, rfl⟩
  | bool b =>
    cases b with
    | true => exact ⟨"true".toList, by decide, rfl, rfl⟩
    | false => exact ⟨"false".toList, by decide, rfl, rfl⟩
  | @int n hlen =>
    have hd : ∀ c ∈ Text.ofNat n.natAbs, c.isDigit := fun c hc => Text.isDigit_of_mem_ofNat hc
    have hspelled : Text.ofInt n =
        if decide (n < 0) then '-' :: Text.ofNat n.natAbs else Text.ofNat n.natAbs := by
      simp [Text.ofInt]
    have htoken := Text.isToken_of_digits hd (decide (n < 0))
    have hread := ofText_of_digits hd (Text.ofNat_ne_nil _) (decide (n < 0))
    rw [← hspelled] at htoken hread
    refine ⟨Text.ofInt n, htoken, ?_, ?_⟩
    · rw [written_int (Numeral.writeInt_of_length hlen), written_of_token htoken]
    · rw [hread, Numeral.readInt_ofNat hlen]
      rfl

end Value

namespace Listing

/-- The line that is written for null, a truth value or an integer is read as that value, wherever
it stands. -/
theorem entry_of_exact {key : Text} {v : Value} (hkey : Text.isKey key) (hv : v.IsExact) :
    ∃ t, v.written = .ok t ∧
      ∀ s : Scope, entry? s .all (key ++ '=' :: t) = .ok (some (key, v)) := by
  obtain ⟨t, htoken, hw, hread⟩ := hv.exists_token
  have hrestorable := Value.restorable_of_token htoken
  have hline := ofText_of_restorable hkey hrestorable (Value.written_of_token htoken)
  refine ⟨t, hw, fun s => ?_⟩
  have hvalue := value_of_restorable hrestorable hread (Value.carried_of_token htoken) s key
  unfold entry?
  rw [hline]
  simp only [KeyFilter.admits, ↓reduceIte, hvalue]
  rfl

/-- The key looks like the word for export, and has another value already and a draft that asks for
itself. -/
theorem entry_of_exact_export :
    let key := "export".toList
    Text.isKey key ∧ (Value.int (-1200)).IsExact ∧
    (Value.int (-1200)).written = .ok "-1200".toList ∧
    entry? ⟨.ofList [(key, .null)], ∅, ∅, .ofList [(key, "$export".toList)], 1⟩ .all
      "export=-1200".toList = .ok (some (key, .int (-1200))) := by
  intro key
  have hkey : Text.isKey key := by decide
  have hexact : (Value.int (-1200)).IsExact := .int (by decide)
  have hw : (Value.int (-1200)).written = .ok "-1200".toList := rfl
  obtain ⟨t, hw', hread⟩ := entry_of_exact hkey hexact
  rw [hw] at hw'
  cases hw'
  exact ⟨hkey, hexact, hw, hread _⟩

end Listing

end EnvFile
