import Mathlib.Data.List.Basic
import Mathlib.Data.List.TakeWhile
import EnvFile.Proofs.Blanks
import EnvFile.Proofs.Letters
import EnvFile.Proofs.Results
import EnvFile.Value.Printing
import EnvFile.Value.Reading

namespace EnvFile

namespace Text

theorem digitValue?_getD_lt (c : Char) : (digitValue? c).getD 0 < 10 := by
  cases h : digitValue? c with
  | none => simp
  | some n => simpa using digitValue?_lt h

/-- A run of digits writes a number below the power of ten that counts them. -/
theorem foldl_digits_lt (digits : Text) (n : Nat) :
    digits.foldl (fun n c => 10 * n + (digitValue? c).getD 0) n <
      (n + 1) * Nat.pow 10 digits.length := by
  induction digits generalizing n with
  | nil => simp
  | cons c digits ih =>
    have hc := digitValue?_getD_lt c
    have hle : (10 * n + (digitValue? c).getD 0 + 1) * Nat.pow 10 digits.length ≤
        (n + 1) * Nat.pow 10 (c :: digits).length := by
      rw [List.length_cons, Nat.pow_eq, Nat.pow_eq, Nat.pow_succ', ← Nat.mul_assoc]
      exact Nat.mul_le_mul_right _ (by omega)
    exact Nat.lt_of_lt_of_le (ih _) hle

theorem numberOf_lt {digits : Text} {k : Nat} (h : digits.length ≤ k) :
    numberOf digits < Nat.pow 10 k := by
  have hlt : numberOf digits < Nat.pow 10 digits.length := by
    simpa [numberOf] using foldl_digits_lt digits 0
  exact Nat.lt_of_lt_of_le hlt (Nat.pow_le_pow_right (by decide) h)

theorem length_ofNat_le {n k : Nat} (hk : 0 < k) (h : n < Nat.pow 10 k) : (ofNat n).length ≤ k :=
  (Nat.length_toDigits_le_iff (by decide) hk).mpr h

theorem digitValue?_of_isDigit {c : Char} (h : c.isDigit) : digitValue? c = some (c.toNat - 48) := by
  have hbounds : 48 ≤ c.toNat ∧ c.toNat < 58 := by
    have hd := isDigit_iff.mp h
    omega
  have hfound : zeros.find? (fun z => z ≤ c.toNat && c.toNat < z + 10) = some 48 :=
    List.find?_cons_of_pos (by simpa using hbounds)
  rw [digitValue?, hfound]
  rfl

theorem isDigit_of_mem_ofNat {n : Nat} {c : Char} (h : c ∈ ofNat n) : c.isDigit :=
  Nat.isDigit_of_mem_toDigits (by decide) (by decide) h

theorem isDigit_of_mem_ones (n : Nat) : ∀ c ∈ List.replicate n '1', c.isDigit := by
  intro c hc
  rw [List.eq_of_mem_replicate hc]
  rfl

theorem ofNat_ne_nil (n : Nat) : ofNat n ≠ [] := Nat.toDigits_ne_nil

theorem not_isAlpha_of_isDecimal {c : Char} (h : isDecimal c) : ¬c.isAlpha := by
  obtain ⟨n, hn⟩ := Option.isSome_iff_exists.mp h
  obtain ⟨z, hz, _⟩ := Option.map_eq_some_iff.mp hn
  have hrange := List.find?_some hz
  simp only [Bool.and_eq_true, decide_eq_true_eq] at hrange
  -- the digits of no script overlap the ASCII letters
  have hall : zeros.all (fun z => z + 10 ≤ 65 || 123 ≤ z) = true := by decide
  have hapart := List.all_eq_true.mp hall z (List.mem_of_find?_eq_some hz)
  simp only [Bool.or_eq_true, decide_eq_true_eq] at hapart
  rw [isAlpha_iff]
  omega

/-- A number is what its digits write. -/
theorem numberOf_ofNat (n : Nat) : numberOf (ofNat n) = n := by
  have hdigits : numberOf (ofNat n) =
      (ofNat n).foldl (fun m c => 10 * m + (c.toNat - '0'.toNat)) 0 := by
    refine List.foldl_ext _ _ _ fun m c hc => ?_
    rw [digitValue?_of_isDigit (isDigit_of_mem_ofNat hc)]
    rfl
  rw [hdigits, ← Nat.ofDigitChars_eq_foldl]
  exact Nat.ofDigitChars_toDigits (by decide) (by decide)

end Text

namespace Numeral

theorem unsigned?_of_digits (negative : Bool) {digits : Text} (hd : ∀ c ∈ digits, c.isDigit)
    (hne : digits ≠ []) : unsigned? negative digits = some (.integer negative digits) := by
  have hall : ∀ c ∈ digits, Text.isDecimal c := by
    intro c hc
    rw [Text.isDecimal, Text.digitValue?_of_isDigit (hd c hc)]
    rfl
  have htake : digits.takeWhile Text.isDecimal = digits := List.takeWhile_eq_self_iff.mpr hall
  have hdrop : digits.dropWhile Text.isDecimal = [] := List.dropWhile_eq_nil_iff.mpr hall
  unfold unsigned?
  rw [htake, hdrop]
  simp [hne]

/-- Beside digits there are no other characters in a number. -/
def marks : List Char := ['-', '+', '.']

theorem isDecimal_of_unsigned? {negative : Bool} {t : Text} {n : Numeral}
    (h : unsigned? negative t = some n) : t ≠ [] ∧ ∀ c ∈ t, Text.isDecimal c ∨ c = '.' := by
  have hsplit : t = t.takeWhile Text.isDecimal ++ t.dropWhile Text.isDecimal :=
    List.takeWhile_append_dropWhile.symm
  have hwhole : ∀ c ∈ t.takeWhile Text.isDecimal, Text.isDecimal c :=
    fun c hc => List.all_eq_true.mp List.all_takeWhile c hc
  unfold unsigned? at h
  simp only at h
  split at h
  next hrest =>
    rw [hrest, List.append_nil] at hsplit
    rw [← hsplit] at h hwhole
    refine ⟨?_, fun c hc => Or.inl (hwhole c hc)⟩
    rintro rfl
    simp at h
  next c fraction hrest =>
    split at h
    next hpoint =>
      obtain ⟨rfl, hfraction, _⟩ := hpoint
      rw [hrest] at hsplit
      refine ⟨?_, fun c hc => ?_⟩
      · rw [hsplit]
        simp
      · rw [hsplit, List.mem_append, List.mem_cons] at hc
        rcases hc with hc | rfl | hc
        · exact Or.inl (hwhole c hc)
        · exact Or.inr rfl
        · exact Or.inl (List.all_eq_true.mp hfraction c hc)
    next => cases h

theorem isDecimal_of_ofText? {t : Text} {n : Numeral} (h : ofText? t = some n) :
    t ≠ [] ∧ ∀ c ∈ t, Text.isDecimal c ∨ c ∈ marks := by
  have hpoint : ∀ {c : Char}, Text.isDecimal c ∨ c = '.' → Text.isDecimal c ∨ c ∈ marks := by
    rintro c (hc | rfl)
    · exact Or.inl hc
    · exact Or.inr (by decide)
  unfold ofText? at h
  split at h
  next u =>
    obtain ⟨_, hu⟩ := isDecimal_of_unsigned? h
    exact ⟨List.cons_ne_nil _ _, List.forall_mem_cons.mpr
      ⟨Or.inr (by decide), fun c hc => hpoint (hu c hc)⟩⟩
  next u =>
    obtain ⟨_, hu⟩ := isDecimal_of_unsigned? h
    exact ⟨List.cons_ne_nil _ _, List.forall_mem_cons.mpr
      ⟨Or.inr (by decide), fun c hc => hpoint (hu c hc)⟩⟩
  next =>
    obtain ⟨hne, hu⟩ := isDecimal_of_unsigned? h
    exact ⟨hne, fun c hc => hpoint (hu c hc)⟩

/-- Digits after a minus sign or none are an integer. -/
theorem ofText?_of_digits (negative : Bool) {digits : Text} (hd : ∀ c ∈ digits, c.isDigit)
    (hne : digits ≠ []) :
    ofText? (if negative then '-' :: digits else digits) = some (.integer negative digits) := by
  have hread := unsigned?_of_digits negative hd hne
  cases negative with
  | true => exact hread
  | false =>
    rw [if_neg Bool.false_ne_true]
    unfold ofText?
    split
    next => exact absurd (hd '-' List.mem_cons_self) (by decide)
    next => exact absurd (hd '+' List.mem_cons_self) (by decide)
    next => exact hread

theorem readInt_ofNat {n : Int} (h : (Text.ofNat n.natAbs).length ≤ Fault.digitLimit) :
    readInt (decide (n < 0)) (Text.ofNat n.natAbs) = .ok n := by
  unfold readInt
  rw [if_neg (Nat.not_lt.mpr h), Text.numberOf_ofNat]
  by_cases hn : n < 0
  · simp only [hn, decide_true, ↓reduceIte]
    exact congrArg Except.ok (by omega)
  · simp only [hn, decide_false, Bool.false_eq_true, ↓reduceIte]
    exact congrArg Except.ok (by omega)

theorem writeInt_of_length {n : Int} (h : (Text.ofNat n.natAbs).length ≤ Fault.digitLimit) :
    writeInt n = .ok (Text.ofInt n) := by
  unfold writeInt
  exact if_neg (Nat.not_lt.mpr h)

theorem writeInt_of_readInt {negative : Bool} {digits : Text} {n : Int}
    (h : readInt negative digits = .ok n) : ∃ t, writeInt n = .ok t := by
  unfold readInt at h
  split at h
  next => simp at h
  next hl =>
    have hn : n.natAbs = Text.numberOf digits := by
      simp only [Except.ok.injEq] at h
      subst h
      split <;> simp
    have hlen : (Text.ofNat n.natAbs).length ≤ Fault.digitLimit := by
      rw [hn]
      exact Text.length_ofNat_le (by decide) (Text.numberOf_lt (Nat.not_lt.mp hl))
    exact ⟨Text.ofInt n, writeInt_of_length hlen⟩

end Numeral

namespace Value

/-- A word for true or false is no text between slashes. -/
theorem ofText_of_word {t : Text} {b : Bool}
    (h : (Text.trim t).map Char.toLower ∈ if b then trueWords else falseWords) :
    ofText t = .ok (bool b) := by
  have hforced : forced? t = none := by
    refine Text.enclosed?_of_not_mem fun hslash => ?_
    have hlower : '/' ∈ (Text.trim t).map Char.toLower := List.mem_map.mpr ⟨'/', hslash, rfl⟩
    have hall : ∀ w ∈ trueWords ++ falseWords, '/' ∉ w := by decide
    refine hall _ ?_ hlower
    cases b with
    | true => exact List.mem_append_left _ h
    | false => exact List.mem_append_right _ h
  unfold ofText
  rw [hforced]
  simp only
  cases b with
  | true =>
    have htrue : (Text.trim t).map Char.toLower ∈ trueWords := h
    rw [if_pos htrue]
  | false =>
    have hfalse : (Text.trim t).map Char.toLower ∈ falseWords := h
    have hapart : ∀ w ∈ falseWords, w ∉ trueWords := by decide
    rw [if_neg (hapart _ hfalse), if_pos hfalse]

/-- A number is no word and no text between slashes. -/
theorem ofText_of_numeral {t : Text} {n : Numeral} (h : Numeral.ofText? (Text.trim t) = some n) :
    ofText t = ofNumeral n := by
  obtain ⟨hne, hchars⟩ := Numeral.isDecimal_of_ofText? h
  have hforced : forced? t = none := by
    refine Text.enclosed?_of_not_mem fun hslash => ?_
    have hchar := hchars '/' hslash
    revert hchar
    decide
  have hword : (Text.trim t).map Char.toLower ∉ trueWords ++ falseWords ++ nullWords := by
    obtain ⟨c, u, hu⟩ := List.exists_cons_of_ne_nil hne
    have hletter : ¬Text.isSmallLetter c.toLower := by
      rw [Text.isSmallLetter_toLower]
      rcases hchars c (by simp [hu]) with hc | hc
      · exact Text.not_isAlpha_of_isDecimal hc
      · have hall : (Numeral.marks.all (!·.isAlpha)) = true := by decide
        simpa using List.all_eq_true.mp hall c hc
    intro hw
    have hall : (trueWords ++ falseWords ++ nullWords).all (·.all Text.isSmallLetter) = true := by
      decide
    have hletters := List.all_eq_true.mp hall _ hw
    exact hletter (List.all_eq_true.mp hletters c.toLower (by simp [hu]))
  simp only [List.mem_append, not_or] at hword
  obtain ⟨⟨htrue, hfalse⟩, hnull⟩ := hword
  unfold ofText
  rw [hforced]
  simp only [htrue, hfalse, hnull, h, ↓reduceIte]

/-- The ways in which a text comes to a value. -/
inductive Spells (t : Text) : Value → Prop
  | forced {inner : Text} : forced? t = some inner → Spells t (text inner)
  | word {b : Bool} : ((Text.trim t).map Char.toLower ∈ if b then trueWords else falseWords) →
      Spells t (bool b)
  | nothing : (Text.trim t).map Char.toLower ∈ nullWords → Spells t null
  | numeral {n : Numeral} {v : Value} : Numeral.ofText? (Text.trim t) = some n →
      ofNumeral n = .ok v → Spells t v
  | itself : Spells t (text t)

theorem spells_of_ofText {t : Text} {v : Value} (h : ofText t = .ok v) : Spells t v := by
  unfold ofText at h
  split at h
  next hforced =>
    cases h
    exact .forced hforced
  simp only at h
  split at h
  next htrue =>
    cases h
    exact .word htrue
  split at h
  next hfalse =>
    cases h
    exact .word hfalse
  split at h
  next hnull =>
    cases h
    exact .nothing hnull
  split at h
  next hnumeral => exact .numeral hnumeral h
  next =>
    cases h
    exact .itself

theorem ofNumeral_eq_ok {n : Numeral} {v : Value} (h : ofNumeral n = .ok v) :
    (∃ negative digits i, n = .integer negative digits ∧ Numeral.readInt negative digits = .ok i ∧
      v = int i) ∨
    ∃ negative whole fraction, n = .decimal negative whole fraction ∧
      v = float (Numeral.readFloat negative whole fraction) := by
  cases n with
  | integer negative digits =>
    obtain ⟨i, hi, rfl⟩ := Results.map_eq_ok.mp h
    exact Or.inl ⟨negative, digits, i, rfl, hi, rfl⟩
  | decimal negative whole fraction =>
    cases h
    exact Or.inr ⟨negative, whole, fraction, rfl, rfl⟩

/-- Whatever is read from a text can take the place of a placeholder. -/
theorem splice_of_ofText {t : Text} {v : Value} (h : ofText t = .ok v) :
    ∃ u, v.splice = .ok u := by
  cases spells_of_ofText h with
  | numeral _ hn =>
    rcases ofNumeral_eq_ok hn with ⟨_, _, i, _, hi, rfl⟩ | ⟨_, _, _, _, rfl⟩
    · exact Numeral.writeInt_of_readInt hi
    · exact ⟨_, rfl⟩
  | @word b _ => cases b <;> exact ⟨_, rfl⟩
  | _ => exact ⟨_, rfl⟩

end Value

end EnvFile
