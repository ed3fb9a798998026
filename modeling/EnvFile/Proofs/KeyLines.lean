import EnvFile.Proofs.AssigningLines
import EnvFile.Proofs.Blanks
import EnvFile.Proofs.DeclarationGrammar
import EnvFile.Proofs.Overwriting

namespace EnvFile

namespace Text

theorem toNat_of_mem_assignable {key : Text} (h : isAssignable key) {c : Char} (hc : c ∈ key) :
    (48 ≤ c.toNat ∧ c.toNat ≤ 57) ∨ (65 ≤ c.toNat ∧ c.toNat ≤ 90) ∨ c.toNat = 95 := by
  rw [isAssignable, Bool.and_eq_true] at h
  have hall := List.all_eq_true.mp h.2 c hc
  rw [Bool.or_eq_true, Bool.or_eq_true, beq_iff_eq] at hall
  rcases hall with (hu | hd) | rfl
  · have hu' : c.val ≥ 'A'.val ∧ c.val ≤ 'Z'.val := of_decide_eq_true hu
    exact Or.inr (Or.inl hu')
  · simp only [Char.isDigit, Bool.and_eq_true, decide_eq_true_eq] at hd
    exact Or.inl hd
  · exact Or.inr (Or.inr rfl)

theorem exists_cons_of_isAssignable {key : Text} (h : isAssignable key) :
    ∃ c rest, key = c :: rest := by
  refine List.exists_cons_of_ne_nil ?_
  rintro rfl
  exact absurd h (by decide)

theorem not_isBlank_of_mem_assignable {key : Text} (h : isAssignable key) {c : Char} (hc : c ∈ key) :
    isBlank c = false := by
  have hn := toNat_of_mem_assignable h hc
  rw [Bool.eq_false_iff]
  intro hb
  simp only [isBlank, Bool.or_eq_true, Bool.and_eq_true, decide_eq_true_eq, beq_iff_eq] at hb
  omega

theorem not_endsLine_of_mem_assignable {key : Text} (h : isAssignable key) {c : Char} (hc : c ∈ key) :
    endsLine c = false := by
  refine Bool.eq_false_iff.mpr fun he => ?_
  have hb := not_isBlank_of_mem_assignable h hc
  rw [isBlank_of_endsLine he] at hb
  exact Bool.noConfusion hb

theorem not_mem_assignable {key : Text} (h : isAssignable key) {c : Char}
    (hc : ¬((48 ≤ c.toNat ∧ c.toNat ≤ 57) ∨ (65 ≤ c.toNat ∧ c.toNat ≤ 90) ∨ c.toNat = 95)) :
    c ∉ key :=
  fun hm => hc (toNat_of_mem_assignable h hm)

end Text

namespace Edit

open Text

variable {key p : Text}

theorem isBlank_of_isPad {c : Char} (h : isPad c) : isBlank c := by
  simp only [isPad, Bool.or_eq_true, beq_iff_eq] at h
  rcases h with rfl | rfl <;> decide

theorem IsPadding.isBlank {t : Text} (h : IsPadding t) : ∀ c ∈ t, Text.isBlank c :=
  fun c hc => isBlank_of_isPad (h c hc)

/-- What a reader keeps of a key, blanks and a sign on a line. -/
theorem trim_sign (hk : isAssignable key) {l : Text} (hl : ∀ c ∈ l, isBlank c) (pads right : Text) :
    trim (l ++ (key ++ pads ++ '=' :: right)) = key ++ pads ++ '=' :: trimRight right := by
  obtain ⟨k, ks, rfl⟩ := exists_cons_of_isAssignable hk
  have hb : isBlank k = false := not_isBlank_of_mem_assignable hk List.mem_cons_self
  rw [trim, trimLeft_append_of_blank hl, List.cons_append, List.cons_append, trimLeft_cons_of_not hb,
    ← List.cons_append, ← List.cons_append, trimRight_append_cons (by decide)]

theorem unexported_of_isAssignable (hk : isAssignable key) (t : Text) :
    Declaration.unexported (key ++ t) = key ++ t := by
  obtain ⟨k, ks, rfl⟩ := exists_cons_of_isAssignable hk
  have he : 'e' ≠ k := by
    rintro rfl
    exact not_mem_assignable hk (by decide) List.mem_cons_self
  simp [Declaration.unexported, after?, he]

/-- The key, blanks and the sign of a line without the word for export decide what it declares. -/
theorem ofLine_of_unexported (hk : isAssignable key) {pads right : Text}
    (hpads : ∀ c ∈ pads, isBlank c)
    (h : Declaration.unexported (trim p) = key ++ pads ++ '=' :: right) :
    Declaration.ofLine p =
      if !isKey key then .error (.invalidKey key)
      else if Declaration.doublesSign right then .error (.doubledSign key)
      else .ok (key, right) := by
  have hfirst : '=' ∉ key ++ pads := by
    rw [List.mem_append, not_or]
    exact ⟨not_mem_assignable hk (by decide), fun hm => absurd (hpads _ hm) (by decide)⟩
  have hparts : Declaration.Parts p (key ++ pads) right :=
    ⟨Declaration.bares_iff.mpr h.symm, hfirst⟩
  have htrim : trim (key ++ pads) = key := by
    obtain ⟨k, ks, rfl⟩ := exists_cons_of_isAssignable hk
    have hb : isBlank k = false := not_isBlank_of_mem_assignable hk List.mem_cons_self
    rw [trim, List.cons_append, trimLeft_cons_of_not hb, ← List.cons_append,
      trimRight_append_of_blank hpads,
      trimRight_of_not_blank fun c hc => not_isBlank_of_mem_assignable hk hc]
  rw [Declaration.ofLine_of_parts hparts, htrim]

theorem trim_export {l : Text} (hl : ∀ c ∈ l, isBlank c) (c : Char) (more pads right : Text) :
    trim (l ++ ("export".toList ++ c :: (more ++ (key ++ pads ++ '=' :: right)))) =
      "export".toList ++ c :: (more ++ (key ++ pads ++ '=' :: trimRight right)) := by
  have hsplit : ∀ w : Text, "export".toList ++ c :: (more ++ (key ++ pads ++ '=' :: w)) =
      'e' :: ("xport".toList ++ c :: (more ++ (key ++ pads))) ++ '=' :: w := by
    intro w
    simp
  rw [trim, trimLeft_append_of_blank hl, hsplit, List.cons_append, trimLeft_cons_of_not (by decide),
    ← List.cons_append, trimRight_append_cons (by decide), ← hsplit]

/-- A tab after the word for export leaves a reader no key. -/
theorem ofLine_of_exportTab (hk : isAssignable key) {l more pads : Text} (hl : ∀ c ∈ l, isBlank c)
    (hmore : ∀ c ∈ more, isBlank c) (hpads : ∀ c ∈ pads, isBlank c) (right k r : Text) :
    Declaration.ofLine
      (l ++ ("export".toList ++ '\t' :: (more ++ (key ++ pads ++ '=' :: right)))) ≠ .ok (k, r) := by
  intro h
  have hsplit : "export".toList ++ '\t' :: (more ++ (key ++ pads ++ '=' :: trimRight right)) =
      "export".toList ++ '\t' :: (more ++ (key ++ pads)) ++ '=' :: trimRight right := by
    simp
  have hparts : Declaration.Parts
      (l ++ ("export".toList ++ '\t' :: (more ++ (key ++ pads ++ '=' :: right))))
      ("export".toList ++ '\t' :: (more ++ (key ++ pads))) (trimRight right) := by
    refine ⟨?_, ?_⟩
    · rw [← hsplit, ← trim_export hl]
      refine .plain ?_
      rw [trim_export hl]
      simp
    · have hm : '=' ∉ more := fun hm => absurd (hmore _ hm) (by decide)
      have hp : '=' ∉ pads := fun hp => absurd (hpads _ hp) (by decide)
      have hn : '=' ∉ key := not_mem_assignable hk (by decide)
      simp [hm, hp, hn]
  obtain ⟨d, ks, rfl⟩ := exists_cons_of_isAssignable hk
  have hd : isBlank d = false := not_isBlank_of_mem_assignable hk List.mem_cons_self
  -- the tab stands before the key, so trimming leaves it there
  have htrim : trim ("export".toList ++ '\t' :: (more ++ (d :: ks ++ pads))) =
      "export".toList ++ '\t' :: more ++ d :: trimRight (ks ++ pads) := by
    have hword : "export".toList ++ '\t' :: (more ++ (d :: ks ++ pads)) =
        'e' :: "xport".toList ++ '\t' :: more ++ d :: (ks ++ pads) := by
      simp
    rw [hword, trim, List.cons_append, List.cons_append, trimLeft_cons_of_not (by decide),
      ← List.cons_append, ← List.cons_append, trimRight_append_cons hd]
    rfl
  rw [Declaration.ofLine_of_parts hparts, htrim] at h
  split at h
  next => simp at h
  next hkey =>
    have htab : '\t' ∈ "export".toList ++ '\t' :: more ++ d :: trimRight (ks ++ pads) := by simp
    rw [Bool.not_eq_true', Bool.not_eq_false] at hkey
    exact absurd (continuesKey_of_mem hkey htab) (by decide)

/-- No reader takes a line that an edit of the key rewrites for a declaration of another key. -/
theorem eq_of_rewrites (hk : isAssignable key) (h : rewrites key p) {k right : Text}
    (hp : Declaration.ofLine p = .ok (k, right)) : k = key := by
  have same {pads w : Text} (hpads : ∀ c ∈ pads, isBlank c)
      (hu : Declaration.unexported (trim p) = key ++ pads ++ '=' :: w) : k = key := by
    rw [ofLine_of_unexported hk hpads hu] at hp
    split at hp
    next => simp at hp
    split at hp
    next => simp at hp
    cases hp
    rfl
  cases rewrites_iff.mp h with
  | @bare front back w hfront hback =>
    refine same hback.isBlank (w := trimRight w) ?_
    rw [trim_sign hk hfront.isBlank, List.append_assoc, unexported_of_isAssignable hk]
  | @exported front gap back w hfront hgap hne hback =>
    obtain ⟨c, more, rfl⟩ := List.exists_cons_of_ne_nil hne
    obtain ⟨hc, hmore⟩ := List.forall_mem_cons.mp hgap
    have hblank : ∀ d ∈ more, isBlank d := IsPadding.isBlank hmore
    simp only [isPad, Bool.or_eq_true, beq_iff_eq] at hc
    rcases hc with rfl | rfl
    · refine same hback.isBlank (w := trimRight w) ?_
      rw [List.cons_append, trim_export hfront.isBlank]
      change trimLeft (more ++ _) = _
      obtain ⟨d, ks, rfl⟩ := exists_cons_of_isAssignable hk
      rw [trimLeft_append_of_blank hblank]
      exact trimLeft_cons_of_not (not_isBlank_of_mem_assignable hk List.mem_cons_self) _
    · exact absurd hp (ofLine_of_exportTab hk hfront.isBlank hblank hback.isBlank w k right)

theorem head_line (hk : isAssignable key) (right : Text) :
    ∀ c ∈ (key ++ '=' :: right).head?, c ≠ '\uFEFF' := by
  obtain ⟨d, ks, rfl⟩ := exists_cons_of_isAssignable hk
  rintro c hc rfl
  obtain rfl : d = '\uFEFF' := by simpa using hc
  exact not_mem_assignable hk (by decide) List.mem_cons_self

theorem not_endsLine_line (hk : isAssignable key) {right : Text}
    (hr : ∀ c ∈ right, endsLine c = false) : ∀ c ∈ key ++ '=' :: right, endsLine c = false := by
  intro c hc
  rcases List.mem_append.mp hc with hc | hc
  · exact not_endsLine_of_mem_assignable hk hc
  · rcases List.mem_cons.mp hc with rfl | hc
    · decide
    · exact hr c hc

theorem rewrites_line (key right : Text) : rewrites key (key ++ '=' :: right) := by
  have hnone : IsPadding [] := by simp [IsPadding]
  have h : Assigns key ([] ++ (key ++ [] ++ '=' :: right)) := .bare hnone hnone
  rw [List.nil_append, List.append_nil] at h
  exact rewrites_iff.mpr h

open Listing

theorem declaredIn_of_plain (h : ∀ c ∈ p, endsLine c = false) : declaredIn p = declared [p] := by
  by_cases hp : p = []
  · subst hp
    rfl
  · rw [declaredIn, lines_of_not_endsLine h hp]

theorem key_of_mem_declaredIn (hk : isAssignable key) (hr : rewrites key p)
    (hp : ∀ c ∈ p, endsLine c = false) {e : Text × Text} (he : e ∈ declaredIn p) : e.1 = key := by
  rw [declaredIn_of_plain hp] at he
  obtain ⟨line, hl, hd⟩ := List.mem_filterMap.mp he
  obtain rfl := List.mem_singleton.mp hl
  unfold Line.declared? at hd
  split at hd
  next hline =>
    cases hd
    obtain ⟨right, ho, _⟩ := Line.ofLine_of_ofText hline
    exact eq_of_rewrites hk hr ho
  next => simp at hd

theorem draft?_of_rewrites (hk : isAssignable key) (hr : rewrites key p)
    (hp : ∀ c ∈ p, endsLine c = false) {k : Text} (hne : k ≠ key) : draft? [p] k = none := by
  rw [draft?, List.flatMap_singleton, Table.find?_eq_none_iff]
  intro hm
  obtain ⟨e, he, rfl⟩ := List.mem_map.mp hm
  exact hne (key_of_mem_declaredIn hk hr hp (List.mem_reverse.mp he))

theorem draft?_filter {k : Text} {ps : List Text}
    (h : ∀ p ∈ ps, rewrites key p → draft? [p] k = none) :
    draft? (ps.filter fun p => !rewrites key p) k = draft? ps k := by
  induction ps with
  | nil => rfl
  | cons p ps ih =>
    obtain ⟨hp, hps⟩ := List.forall_mem_cons.mp h
    rw [draft?_cons p ps, List.filter_cons]
    by_cases hr : rewrites key p
    · simp only [hr, Bool.not_true, Bool.false_eq_true, ↓reduceIte]
      rw [ih hps, hp hr, Option.or_none]
    · simp only [hr, Bool.not_false, ↓reduceIte]
      rw [draft?_cons, ih hps]

theorem unmarked_first {t : Text} {ps : List Text} (hp : pieces '\n' t = p :: ps)
    (h : ∀ c ∈ t.head?, c ≠ '\uFEFF') : Utf8.unmarked p = p := by
  refine Utf8.unmarked_of_head fun c hc => h c ?_
  obtain ⟨r, rfl⟩ := List.head?_eq_some_iff.mp hc
  rw [← join_pieces '\n' t, hp]
  cases ps <;> rfl

theorem kept_pieces {t : Text} (h : ∀ c ∈ t.head?, c ≠ '\uFEFF') :
    kept key (pieces '\n' t) = (pieces '\n' t).filter fun p => !rewrites key p := by
  obtain ⟨p, ps, hp⟩ := List.exists_cons_of_ne_nil (pieces_ne_nil '\n' t)
  rw [hp, kept, unmarked_first hp h, List.filter_cons]
  cases rewrites key p <;> rfl

/-- An edit of a text without a mark in front leaves it so. -/
theorem unmarked_overwrite {line : Text} (hk : '\n' ∉ key) (hline : ∀ c ∈ line.head?, c ≠ '\uFEFF')
    {t : Text} (h : ∀ c ∈ t.head?, c ≠ '\uFEFF') :
    Utf8.unmarked (overwrite key line t) = overwrite key line t := by
  have ht : Utf8.unmarked t = t := Utf8.unmarked_of_head h
  cases hany : (pieces '\n' t).any (rewrites key) with
  | true =>
    obtain ⟨p, ps, hp⟩ := List.exists_cons_of_ne_nil (pieces_ne_nil '\n' t)
    have hfirst : Utf8.unmarked (rewritten key line p) = rewritten key line p := by
      unfold rewritten
      split
      next => exact Utf8.unmarked_of_head hline
      next => exact unmarked_first hp h
    rw [overwrite_of_any hk hany, hp, List.map_cons, unmarked_join, hfirst]
  | false =>
    rcases overwrite_of_not_any line hk hany with ⟨he, _⟩ | ⟨he, rfl | ⟨u, rfl⟩⟩
    · rw [he, Utf8.unmarked_append (by simp), ht]
    · rw [he]
      refine Utf8.unmarked_of_head ?_
      cases line with
      | nil => simp
      | cons c line => simpa using hline
    · rw [he, List.append_assoc, Utf8.unmarked_append (by simp)]
      rw [Utf8.unmarked_append (by simp)] at ht
      rw [List.append_cancel_right ht]

/-- Where the new line and those that it takes the place of are single lines to a reader, an edit
of one key leaves the drafts of the others. -/
theorem spares_of_plain (hk : isAssignable key) {right t : Text}
    (hline : ∀ c ∈ key ++ '=' :: right, endsLine c = false)
    (hps : ∀ p ∈ pieces '\n' t, rewrites key p → ∀ c ∈ p, endsLine c = false)
    (hmark : ∀ c ∈ t.head?, c ≠ '\uFEFF') : Spares key (key ++ '=' :: right) t := by
  intro k hne _
  rw [draft?_of_rewrites hk (rewrites_line key right) hline hne, kept_pieces hmark]
  exact draft?_filter fun p hp hr => draft?_of_rewrites hk hr (hps p hp hr) hne

end Edit

end EnvFile
