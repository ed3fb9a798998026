import EnvFile.Listing
import EnvFile.Proofs.DeclarationGrammar
import EnvFile.Proofs.DeclarationOrder
import EnvFile.Proofs.Hazards
import EnvFile.Proofs.KeyLines
import EnvFile.Proofs.WrittenValues

namespace EnvFile

/-- No dollar sign of the text opens a reference. -/
def Template.Plain (t : Text) : Prop :=
  ∀ l r, t = l ++ '$' :: r → ∀ c ∈ r.head?, c ≠ '{' ∧ Text.isNameChar c = false

namespace Template

theorem plain_of_not_mem {t : Text} (h : '$' ∉ t) : Plain t := by
  rintro l r rfl
  simp at h

theorem Plain.of_append {l t : Text} (h : Plain (l ++ t)) : Plain t := by
  intro m r ht
  exact h (l ++ m) r (by rw [ht, List.append_assoc])

theorem bare?_of_plain {t : Text} (h : Plain ('$' :: t)) : bare? t = none := by
  have hname : t.takeWhile Text.isNameChar = [] := by
    cases t with
    | nil => rfl
    | cons c t => simp [(h [] _ rfl c rfl).2]
  unfold bare?
  rw [hname]

end Template

namespace Scope

theorem expandItems_of_plain (s : Scope) (expand : List Text → Text → Except Fault Text)
    (chain : List Text) {t : Text} (h : Template.Plain t) :
    s.expandItems expand chain (Template.ofText t) = .ok t := by
  have step {l u : Text} (hu : s.expandItems expand chain (Template.ofText u) = .ok u) :
      s.expandItems expand chain (.literal l :: Template.ofText u) = .ok (l ++ u) := by
    unfold expandItems expandItem
    rw [hu]
    rfl
  fun_induction Template.ofText t with
  | case1 => rfl
  | case2 t hb => exact absurd rfl (h [] _ rfl '{' rfl).1
  | case3 t b r hb _ _ => exact absurd rfl (h [] _ rfl '{' rfl).1
  | case4 t hne hb ih => exact step (ih (Template.Plain.of_append (l := ['$']) h))
  | case5 t hne item r hb ih =>
    rw [Template.bare?_of_plain h] at hb
    simp at hb
  | case6 c t hc _ ih =>
    have ht : c :: t = (c :: t.takeWhile (· != '$')) ++ t.dropWhile (· != '$') := by
      rw [List.cons_append, List.takeWhile_append_dropWhile]
    rw [ht] at h
    rw [step (ih h.of_append), ← ht]

theorem expand_of_plain (s : Scope) (owner : Option Text) {t : Text} (h : Template.Plain t) :
    s.expand owner t = .ok t := by
  have hin : ∀ room chain, s.expandIn room chain t = .ok t := by
    intro room chain
    cases room with
    | zero => exact expandItems_of_plain s _ _ h
    | succ room => exact expandItems_of_plain s _ _ h
  exact hin _ _

end Scope

namespace Quoting

theorem beforeHash?_of_not_mem {t : Text} (h : '#' ∉ t) (q : Quoting) : q.beforeHash? t = none := by
  induction t generalizing q with
  | nil => rfl
  | cons c t ih =>
    rw [List.mem_cons, not_or] at h
    simp [beforeHash?, Ne.symm h.1, ih h.2]

end Quoting

namespace Hazard

theorem foldCase_of_isBlank {c : Char} (h : Text.isBlank c) : Text.foldCase c = c := by
  have hl : c ∉ Text.lookalikes := by
    intro hm
    have hall : (Text.lookalikes.all fun d => !Text.isBlank d) = true := by decide
    simpa [h] using List.all_eq_true.mp hall c hm
  have ha : ¬c.isAlpha := by
    rw [Text.isAlpha_iff]
    simp only [Text.isBlank, Bool.or_eq_true, Bool.and_eq_true, decide_eq_true_eq, beq_iff_eq] at h
    omega
  rw [Text.foldCase_of_not_lookalike hl, Text.toLower_of_not_isAlpha ha]

theorem inScheme_of_isBlank {c : Char} (h : Text.isBlank c) : inScheme c = false := by
  refine Bool.eq_false_iff.mpr fun hs => ?_
  have hn : c.toNat = 43 ∨ c.toNat = 45 ∨ c.toNat = 46 ∨ (48 ≤ c.toNat ∧ c.toNat ≤ 57) ∨
      (97 ≤ c.toNat ∧ c.toNat ≤ 122) := by
    simp only [inScheme, Text.isSmallLetter, Char.isDigit, Bool.or_eq_true, Bool.and_eq_true,
      decide_eq_true_eq, beq_iff_eq, ge_iff_le, Char.le_def, UInt32.le_iff_toNat_le] at hs
    rcases hs with (((hs | hs) | rfl) | rfl) | rfl
    · exact Or.inr (Or.inr (Or.inr (Or.inr hs)))
    · exact Or.inr (Or.inr (Or.inr (Or.inl hs)))
    · exact Or.inl rfl
    · exact Or.inr (Or.inr (Or.inl rfl))
    · exact Or.inr (Or.inl rfl)
  simp only [Text.isBlank, Bool.or_eq_true, Bool.and_eq_true, decide_eq_true_eq, beq_iff_eq] at h
  omega

theorem carried_trim {t : Text} (h : carried t = false) : carried (Text.trim t) = false := by
  obtain ⟨l, r, ht, hl, hr⟩ := Text.exists_trim t
  refine Bool.eq_false_iff.mpr fun hc => ?_
  have hprep : carried (l ++ (Text.trim t ++ r)) := by
    refine carried_prepend (fun c hlast => ?_) (carried_append r hc)
    have hb := hl c (List.mem_of_getLast? hlast)
    rw [foldCase_of_isBlank hb, inScheme_of_isBlank hb]
  rw [← List.append_assoc, ← ht, h] at hprep
  exact Bool.noConfusion hprep

end Hazard

namespace Value

/-- What a text stands for does not hang on blanks around it, unless it stands for itself. -/
theorem ofText_trim {t : Text} {v : Value} (h : ofText t = .ok v)
    (hne : Text.trim t = t ∨ v ≠ .text t) : ofText (Text.trim t) = .ok v := by
  rcases hne with he | hne
  · rwa [he]
  · unfold ofText forced? at h ⊢
    rw [Text.trim_trim]
    split at h
    next => exact h
    simp only at h ⊢
    split at h
    next htrue => rwa [if_pos htrue]
    next htrue =>
      rw [if_neg htrue]
      split at h
      next hfalse => rwa [if_pos hfalse]
      next hfalse =>
        rw [if_neg hfalse]
        split at h
        next hnull => rwa [if_pos hnull]
        next hnull =>
          rw [if_neg hnull]
          split at h
          next => exact h
          next => exact absurd (Except.ok.inj h).symm hne

/-- A text that a line of a file can hold: on one line for any reader, without references, and so
that neither its own marks and signs nor those put around it change what is read. -/
structure Restorable (t : Text) : Prop where
  oneLine : ∀ c ∈ Text.trim t, Text.endsLine c = false
  plain : Template.Plain (Text.trim t)
  bare : needsMarks t = false →
    Declaration.doublesSign t = false ∧ Text.enclosed? '"' t = none
  marked : needsMarks t = true → Quoting.double.beforeHash? (Text.trim t ++ ['"']) = none
  settled : Text.trim t = t ∨ ofText t ≠ .ok (.text t)

/-- What is written for such a text is one trimmed line, and its draft is the text itself. -/
theorem Restorable.written {t w : Text} (h : Restorable t) (hw : (text t).written = .ok w) :
    (∀ c ∈ w, Text.endsLine c = false) ∧ Text.trimRight w = w ∧
      Declaration.doublesSign w = false ∧ Declaration.draft w = Text.trim t := by
  obtain ⟨_, _, rfl⟩ := written_text hw
  cases hm : needsMarks t with
  | true =>
    have hright : Text.trimRight ('"' :: Text.trim t ++ ['"']) = '"' :: Text.trim t ++ ['"'] :=
      Text.trimRight_append_cons (by decide) _ []
    have hleft : Text.trimLeft ('"' :: Text.trim t ++ ['"']) = '"' :: Text.trim t ++ ['"'] :=
      Text.trimLeft_cons_of_not (by decide) _
    have hcomment : Text.uncommented ('"' :: Text.trim t ++ ['"']) = '"' :: Text.trim t ++ ['"'] := by
      have hb := h.marked hm
      simp [Text.uncommented, Quoting.beforeHash?, Quoting.next, hb]
    rw [if_pos rfl]
    refine ⟨?_, hright, rfl, ?_⟩
    · intro c hc
      rw [List.cons_append, List.mem_cons, List.mem_append, List.mem_singleton] at hc
      rcases hc with rfl | hc | rfl
      · decide
      · exact h.oneLine c hc
      · decide
    · rw [Declaration.draft, hleft, hcomment, Text.trim, hleft, hright,
        Text.enclosed?_eq_some_iff.mpr rfl]
      rfl
  | false =>
    have hmarks := hm
    rw [needsMarks, Bool.or_eq_false_iff] at hmarks
    have hash : '#' ∉ Text.trim t := by simpa using hmarks.1
    have htrim : Text.trim t = t := by simpa using hmarks.2
    have hcomment : Text.uncommented (Text.trim t) = Text.trim t := by
      rw [Text.uncommented, Quoting.beforeHash?_of_not_mem hash]
    obtain ⟨hsign, hmark⟩ := h.bare hm
    rw [← htrim] at hsign hmark
    refine ⟨h.oneLine, Text.trimRight_trim t, hsign, ?_⟩
    simp only [Bool.false_eq_true, ↓reduceIte]
    rw [Declaration.draft, Text.trimLeft_trim, hcomment, Text.trim_trim, hmark]
    rfl

end Value

namespace Listing

/-- The line written for a text declares its key, with the trimmed text as the draft. -/
theorem ofText_of_restorable {key t w : Text} (hkey : Text.isKey key) (h : Value.Restorable t)
    (hw : (Value.text t).written = .ok w) :
    Line.ofText (key ++ '=' :: w) = .declaration key (Text.trim t) := by
  obtain ⟨_, hright, hsign, hdraft⟩ := h.written hw
  have htrim := Declaration.trim_of_key hkey w
  have hline := Declaration.ofLine_of_parts (Declaration.parts_of_key hkey w)
  rw [hright] at htrim hline
  rw [Text.trim_of_not_blank fun c hc => Text.not_isBlank_of_mem_key hkey hc, hkey, hsign] at hline
  have hsilent : Text.isSilent (key ++ '=' :: w) = false := by
    obtain ⟨c, rest, rfl⟩ := List.exists_cons_of_ne_nil (Text.ne_nil_of_isKey hkey)
    have hc : c ≠ '#' := by
      rintro rfl
      exact Text.not_mem_of_isKey hkey (by decide) List.mem_cons_self
    unfold Text.isSilent
    rw [htrim]
    simpa using hc
  rw [Line.ofText, hsilent, hline]
  simp [hdraft]

/-- Whatever stands around it, that draft reads as what the text stands for. -/
theorem value_of_restorable {t : Text} {v : Value} (h : Value.Restorable t)
    (hv : Value.ofText t = .ok v) (hc : Hazard.carried t = false) (s : Scope) (key : Text) :
    value s key (Text.trim t) = .ok v := by
  have hne : Text.trim t = t ∨ v ≠ .text t := by
    refine h.settled.imp_right fun hs he => hs ?_
    rw [hv, he]
  refine value_eq_ok.mpr ⟨_, Scope.expand_of_plain s _ h.plain, Hazard.carried_trim hc, ?_⟩
  rw [settled, Value.ofText_trim hv hne]
  cases Text.trim t <;> rfl

end Listing

end EnvFile
