import EnvFile.Text.Characters

namespace EnvFile

namespace Text

/-- Letters beyond ASCII that are taken for an `i`, an `s` or a `k` where case does not matter. -/
def lookalikes : List Char := ['\u0130', '\u0131', '\u017F', '\u212A']

/-- A key as it should be: ASCII letters, ASCII digits and underscores, and no digit in front. -/
structure IsPlainKey (key : Text) : Prop where
  ne_nil : key ≠ []
  isName : ∀ c ∈ key, isNameChar c
  front : ∀ c, key.head? = some c → c.isDigit = false

variable {c : Char} {key : Text}

theorem isSmallLetter_iff : isSmallLetter c ↔ 97 ≤ c.toNat ∧ c.toNat ≤ 122 := by
  simp only [isSmallLetter, Bool.and_eq_true, decide_eq_true_eq]
  exact Iff.rfl

theorem isAlpha_iff :
    c.isAlpha ↔ (65 ≤ c.toNat ∧ c.toNat ≤ 90) ∨ (97 ≤ c.toNat ∧ c.toNat ≤ 122) := by
  have hcapital : c.isUpper ↔ 65 ≤ c.toNat ∧ c.toNat ≤ 90 := decide_eq_true_iff
  have hsmall : c.isLower ↔ 97 ≤ c.toNat ∧ c.toNat ≤ 122 :=
    (Bool.and_eq_true_iff).trans (and_congr decide_eq_true_iff decide_eq_true_iff)
  change (c.isUpper || c.isLower) = true ↔ _
  rw [Bool.or_eq_true, hcapital, hsmall]

theorem isDigit_iff : c.isDigit ↔ 48 ≤ c.toNat ∧ c.toNat ≤ 57 := by
  simp only [Char.isDigit, Bool.and_eq_true, decide_eq_true_eq]
  exact Iff.rfl

theorem isSmallLetter_toLower : isSmallLetter c.toLower ↔ c.isAlpha := by
  rw [isSmallLetter_iff, isAlpha_iff]
  unfold Char.toLower
  split
  next h =>
    have hlow : 65 ≤ c.toNat := h.1
    have hhigh : c.toNat ≤ 90 := h.2
    have hlower : (c.val + ('a'.val - 'A'.val)).toNat = c.toNat + 32 := by
      rw [UInt32.toNat_add]
      exact Nat.mod_eq_of_lt (by change c.toNat + 32 < _; omega)
    change 97 ≤ (c.val + ('a'.val - 'A'.val)).toNat ∧ (c.val + ('a'.val - 'A'.val)).toNat ≤ 122 ↔ _
    omega
  next h =>
    have hcapital : ¬(65 ≤ c.toNat ∧ c.toNat ≤ 90) := h
    omega

theorem foldCase_of_not_lookalike (h : c ∉ lookalikes) : foldCase c = c.toLower := by
  simp only [lookalikes, List.mem_cons, List.not_mem_nil, or_false, not_or] at h
  obtain ⟨hdotted, hdotless, hlong, hkelvin⟩ := h
  rw [foldCase, if_neg (not_or.mpr ⟨hdotted, hdotless⟩), if_neg hlong, if_neg hkelvin]

theorem toLower_of_not_isAlpha (h : ¬c.isAlpha) : c.toLower = c := by
  rw [isAlpha_iff] at h
  have hcapital : ¬(c.val ≥ 'A'.val ∧ c.val ≤ 'Z'.val) := fun hc => h (Or.inl hc)
  exact dif_neg hcapital

/-- Folding gives a small letter for every letter and lookalike, and leaves all else as it is. -/
theorem foldCase_cases (c : Char) :
    isSmallLetter (foldCase c) ∧ (c.isAlpha ∨ c ∈ lookalikes) ∨
      foldCase c = c ∧ ¬c.isAlpha ∧ c ∉ lookalikes := by
  by_cases hl : c ∈ lookalikes
  · have hall : (lookalikes.all fun d => isSmallLetter (foldCase d)) = true := by decide
    exact Or.inl ⟨List.all_eq_true.mp hall c hl, Or.inr hl⟩
  · rw [foldCase_of_not_lookalike hl]
    by_cases ha : c.isAlpha
    · exact Or.inl ⟨isSmallLetter_toLower.mpr ha, Or.inl ha⟩
    · exact Or.inr ⟨toLower_of_not_isAlpha ha, ha, hl⟩

theorem eq_of_foldCase {d : Char} (hd : isSmallLetter d = false) (h : foldCase c = d) : c = d := by
  rcases foldCase_cases c with ⟨hsmall, _⟩ | ⟨hsame, _⟩
  · rw [h, hd] at hsmall
    cases hsmall
  · exact hsame.symm.trans h

theorem isNameChar_iff :
    isNameChar c ↔ (65 ≤ c.toNat ∧ c.toNat ≤ 90) ∨ (97 ≤ c.toNat ∧ c.toNat ≤ 122) ∨
      (48 ≤ c.toNat ∧ c.toNat ≤ 57) ∨ c.toNat = 95 := by
  have hline : c = '_' ↔ c.toNat = 95 := Char.toNat_inj.symm
  rw [isNameChar, Char.isAlphanum, Bool.or_eq_true, Bool.or_eq_true, isAlpha_iff, isDigit_iff,
    beq_iff_eq, hline, or_assoc, or_assoc]

theorem not_isNameChar_of_isBlank (h : isBlank c) : ¬isNameChar c := by
  rw [isNameChar_iff]
  simp only [isBlank, Bool.or_eq_true, Bool.and_eq_true, decide_eq_true_eq, beq_iff_eq] at h
  omega

theorem opensKey_iff : opensKey c ↔ c ∈ lookalikes ∨ isNameChar c ∧ c.isDigit = false := by
  by_cases h : c ∈ lookalikes
  · have hall : lookalikes.all opensKey = true := by decide
    exact iff_of_true (List.all_eq_true.mp hall c h) (Or.inl h)
  · have hdigit : c.isDigit = false ↔ ¬(48 ≤ c.toNat ∧ c.toNat ≤ 57) := by
      rw [← isDigit_iff, Bool.not_eq_true]
    simp only [opensKey, isNameChar, Char.isAlphanum, foldCase_of_not_lookalike h, Bool.or_eq_true,
      beq_iff_eq, isSmallLetter_toLower, isDigit_iff, hdigit, isAlpha_iff, h, false_or]
    constructor
    · rintro (hletter | rfl)
      · exact ⟨Or.inl (Or.inl hletter), by omega⟩
      · exact ⟨Or.inr rfl, by decide⟩
    · rintro ⟨(hletter | hnumber) | hline, hnot⟩
      · exact Or.inl hletter
      · exact absurd hnumber hnot
      · exact Or.inr hline

theorem continuesKey_iff : continuesKey c ↔ c ∈ lookalikes ∨ isNameChar c := by
  have hname : c.isDigit → isNameChar c := by
    intro hd
    simp [isNameChar, Char.isAlphanum, hd]
  rw [continuesKey, Bool.or_eq_true, opensKey_iff]
  constructor
  · rintro ((hl | ⟨hn, _⟩) | hd)
    · exact Or.inl hl
    · exact Or.inr hn
    · exact Or.inr (hname hd)
  · rintro (hl | hn)
    · exact Or.inl (Or.inl hl)
    · cases hd : c.isDigit with
      | false => exact Or.inl (Or.inr ⟨hn, rfl⟩)
      | true => exact Or.inr rfl

theorem not_isNameChar_of_lookalike (h : c ∈ lookalikes) : isNameChar c = false := by
  have hall : (lookalikes.all fun d => !isNameChar d) = true := by decide
  simpa using List.all_eq_true.mp hall c h

/-- The keys that a declaration may have are the plain ones and those in which lookalikes stand for
letters. -/
theorem isPlainKey_iff : IsPlainKey key ↔ isKey key ∧ ∀ c ∈ key, c ∉ lookalikes := by
  cases key with
  | nil =>
    refine iff_of_false (fun h => h.ne_nil rfl) ?_
    rintro ⟨h, _⟩
    exact absurd h (by decide)
  | cons d key =>
    rw [isKey, Bool.and_eq_true, List.all_eq_true]
    constructor
    · intro h
      have hfront : d.isDigit = false := h.front d rfl
      have hplain : ∀ c ∈ d :: key, c ∉ lookalikes := by
        intro c hc hl
        have hname := h.isName c hc
        rw [not_isNameChar_of_lookalike hl] at hname
        cases hname
      refine ⟨⟨opensKey_iff.mpr (Or.inr ⟨h.isName d List.mem_cons_self, hfront⟩), ?_⟩, hplain⟩
      exact fun c hc => continuesKey_iff.mpr (Or.inr (h.isName c (List.mem_cons_of_mem _ hc)))
    · rintro ⟨⟨hopens, hcontinues⟩, hplain⟩
      obtain ⟨hname, hdigit⟩ := (opensKey_iff.mp hopens).resolve_left (hplain d List.mem_cons_self)
      refine ⟨List.cons_ne_nil d key, List.forall_mem_cons.mpr ⟨hname, fun c hc => ?_⟩, ?_⟩
      · exact (continuesKey_iff.mp (hcontinues c hc)).resolve_left (hplain c (List.mem_cons_of_mem _ hc))
      · intro c hc
        cases hc
        exact hdigit

end Text

end EnvFile
