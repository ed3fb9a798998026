import EnvFile.Proofs.Entries
import EnvFile.Proofs.Openings
import EnvFile.Proofs.Restoring

namespace EnvFile

/-- The same fault, told of another line. -/
def Fault.toldOf (line : Text) : Fault → Fault
  | malformed report => malformed { report with line := some line }
  | fault => fault

namespace Text

variable {c : Char} {blanks : Text}

theorem trimLeft_append_cons (hc : isBlank c = false) (t u : Text) :
    trimLeft (t ++ c :: u) = trimLeft t ++ c :: u :=
  dropWhile_append_stop hc t u

theorem trim_append_cons (hc : isBlank c = false) (t u : Text) :
    trim (t ++ c :: u) = trimLeft t ++ c :: trimRight u := by
  rw [trim, trimLeft_append_cons hc, trimRight_append_cons hc]

theorem trimLeft_append (t u : Text) :
    trimLeft (t ++ u) = if trimLeft t = [] then trimLeft u else trimLeft t ++ u := by
  unfold trimLeft
  rw [List.dropWhile_append]
  simp only [List.isEmpty_iff]

theorem trim_append_of_blank (h : ∀ c ∈ blanks, isBlank c) (t : Text) :
    trim (t ++ blanks) = trim t := by
  rw [trim, trim, trimLeft_append]
  split
  next ht => rw [ht, trimLeft_of_blank h]
  next => exact trimRight_append_of_blank h _

theorem trim_trimRight (t : Text) : trim (trimRight t) = trim t := by
  obtain ⟨blanks, ht, hblank⟩ := exists_trimRight t
  conv =>
    rhs
    rw [ht, trim_append_of_blank hblank]

theorem not_mem_of_blank (h : ∀ c ∈ blanks, isBlank c) (hc : isBlank c = false) : c ∉ blanks := by
  intro hm
  rw [h c hm] at hc
  cases hc

end Text

namespace Quoting

variable {q : Quoting} {t u blanks : Text} {c : Char}

/-- The scan of a text for a comment ends outside quotations: at a hash there, or where the text
does. -/
def endsBare : Quoting → Text → Bool
  | q, [] => q == bare
  | q, c :: t => (q == bare && c == '#') || (q.next c).endsBare t

theorem next_of_isBlank (h : Text.isBlank c) (q : Quoting) : q.next c = q := by
  have hsingle : c ≠ '\'' := by
    rintro rfl
    exact absurd h (by decide)
  have hdouble : c ≠ '"' := by
    rintro rfl
    exact absurd h (by decide)
  cases q <;> simp [next, hsingle, hdouble]

theorem endsBare_of_blank (h : ∀ c ∈ blanks, Text.isBlank c) : bare.endsBare blanks := by
  induction blanks with
  | nil => rfl
  | cons c blanks ih =>
    obtain ⟨hc, h⟩ := List.forall_mem_cons.mp h
    rw [endsBare, next_of_isBlank hc, ih h, Bool.or_true]

theorem endsBare_append (ht : q.endsBare t) (hu : bare.endsBare u) : q.endsBare (t ++ u) := by
  induction t generalizing q with
  | nil =>
    obtain rfl : q = bare := by simpa [endsBare] using ht
    exact hu
  | cons c t ih =>
    simp only [endsBare, Bool.or_eq_true] at ht
    simp only [List.cons_append, endsBare, Bool.or_eq_true]
    exact ht.imp_right ih

theorem beforeHash?_append_of_not_mem (hu : '#' ∉ u) (q : Quoting) (t : Text) :
    q.beforeHash? (t ++ u) = q.beforeHash? t := by
  induction t generalizing q with
  | nil => exact beforeHash?_of_not_mem hu q
  | cons c t ih => simp only [List.cons_append, beforeHash?, ih]

/-- A hash behind a scan that ends outside quotations is not passed. -/
theorem beforeHash?_append_hash (h : q.endsBare t) (u : Text) :
    q.beforeHash? (t ++ '#' :: u) = some ((q.beforeHash? t).getD t) := by
  induction t generalizing q with
  | nil =>
    obtain rfl : q = bare := by simpa [endsBare] using h
    rfl
  | cons c t ih =>
    rw [List.cons_append]
    unfold beforeHash?
    by_cases hstop : q = bare ∧ c = '#'
    · rw [if_pos hstop, if_pos hstop]
      rfl
    · have hnext : (q.next c).endsBare t := by
        simp only [endsBare, Bool.or_eq_true, Bool.and_eq_true, beq_iff_eq] at h
        exact h.resolve_left hstop
      rw [if_neg hstop, if_neg hstop, ih hnext]
      cases (q.next c).beforeHash? t <;> rfl

/-- Inside double marks neither a hash nor a single mark counts. -/
theorem beforeHash?_double (ht : '"' ∉ t) (u : Text) :
    double.beforeHash? (t ++ u) = (double.beforeHash? u).map (t ++ ·) := by
  induction t with
  | nil => simp
  | cons c t ih =>
    rw [List.mem_cons, not_or] at ht
    have hnext : double.next c = double := by simp [next, Ne.symm ht.1]
    rw [List.cons_append, beforeHash?, hnext, ih ht.2]
    simp [Function.comp_def]

theorem endsBare_double (ht : '"' ∉ t) (u : Text) :
    double.endsBare (t ++ u) = double.endsBare u := by
  induction t with
  | nil => rfl
  | cons c t ih =>
    rw [List.mem_cons, not_or] at ht
    have hnext : double.next c = double := by simp [next, Ne.symm ht.1]
    rw [List.cons_append, endsBare, hnext, ih ht.2]
    rfl

end Quoting

namespace Declaration

open Text

variable {x r r' blanks t u : Text}

theorem unexported_append_sign (x u : Text) :
    unexported (x ++ '=' :: u) = unexported x ++ '=' :: u := by
  unfold unexported
  rw [after?_append_cons (by decide : '=' ∉ "export ".toList)]
  cases after? "export ".toList x with
  | none => rfl
  | some rest => exact trimLeft_append_cons (by decide) rest u

theorem subset_of_unexported (t : Text) : unexported t ⊆ t := by
  unfold unexported
  split
  next rest hrest =>
    rw [after?_eq_some_iff.mp hrest]
    exact List.subset_append_of_subset_right _ (List.dropWhile_sublist _).subset
  next => exact List.Subset.refl t

/-- What stands left of the first sign of a line is read without regard to what stands right. -/
theorem parts_of_sign (hx : '=' ∉ x) (r : Text) :
    Parts (x ++ '=' :: r) (unexported (trimLeft x)) (trimRight r) := by
  refine ⟨bares_iff.mpr ?_, fun hm => hx ?_⟩
  · rw [trim_append_cons (by decide), unexported_append_sign]
  · exact (List.dropWhile_sublist _).subset (subset_of_unexported _ hm)

theorem isSilent_append_sign (x r r' : Text) :
    isSilent (x ++ '=' :: r) = isSilent (x ++ '=' :: r') := by
  unfold isSilent
  rw [trim_append_cons (by decide), trim_append_cons (by decide)]
  cases trimLeft x <;> rfl

theorem ofText_append_sign (hx : '=' ∉ x)
    (hsign : doublesSign (trimRight r) = doublesSign (trimRight r'))
    (hdraft : draft (trimRight r) = draft (trimRight r')) :
    Line.ofText (x ++ '=' :: r) = Line.ofText (x ++ '=' :: r') := by
  unfold Line.ofText
  rw [isSilent_append_sign x r r', ofLine_of_parts (parts_of_sign hx r),
    ofLine_of_parts (parts_of_sign hx r'), hsign]
  split
  next => rfl
  next =>
    by_cases hkey : isKey (trim (unexported (trimLeft x)))
    · cases doublesSign (trimRight r') <;> simp [hkey, hdraft]
    · simp [hkey]

theorem trim_uncommented (t : Text) :
    trim (uncommented t) = trim ((Quoting.bare.beforeHash? t).getD t) := by
  unfold uncommented
  cases Quoting.bare.beforeHash? t with
  | none => rfl
  | some before => exact trim_trimRight before

theorem draft_congr
    (h : trim ((Quoting.bare.beforeHash? (trimLeft r)).getD (trimLeft r)) =
      trim ((Quoting.bare.beforeHash? (trimLeft r')).getD (trimLeft r'))) :
    draft r = draft r' := by
  unfold draft
  rw [trim_uncommented, trim_uncommented, h]

theorem draft_append_of_blank (h : ∀ c ∈ blanks, isBlank c) (r : Text) :
    draft (r ++ blanks) = draft r := by
  refine draft_congr ?_
  rw [trimLeft_append]
  split
  next hr => rw [trimLeft_of_blank h, hr]
  next =>
    have hash : '#' ∉ blanks := not_mem_of_blank h (by decide)
    rw [Quoting.beforeHash?_append_of_not_mem hash]
    cases Quoting.bare.beforeHash? (trimLeft r) with
    | none => exact trim_append_of_blank h _
    | some before => rfl

theorem draft_append_hash (h : Quoting.bare.endsBare (trimLeft r)) (comment : Text) :
    draft (r ++ '#' :: comment) = draft r := by
  refine draft_congr ?_
  rw [trimLeft_append_cons (by decide), Quoting.beforeHash?_append_hash h]
  rfl

theorem endsBare_append_blank (hr : Quoting.bare.endsBare (trimLeft r))
    (h : ∀ c ∈ blanks, isBlank c) : Quoting.bare.endsBare (trimLeft (r ++ blanks)) := by
  rw [trimLeft_append]
  split
  next => rw [trimLeft_of_blank h]; rfl
  next => exact Quoting.endsBare_append hr (Quoting.endsBare_of_blank h)

/-- A comment and the blanks before it leave the draft of a right-hand side as it is. -/
theorem draft_append_comment (hr : Quoting.bare.endsBare (trimLeft r))
    (h : ∀ c ∈ blanks, isBlank c) (comment : Text) :
    draft (r ++ blanks ++ '#' :: comment) = draft r := by
  rw [draft_append_hash (endsBare_append_blank hr h), draft_append_of_blank h]

/-- A second sign is not taken back by what follows, unless that is one of the marks. -/
theorem doublesSign_append (h : ∀ c ∈ u.head?, c ≠ '=' ∧ c ≠ '\'' ∧ c ≠ '"') (t : Text) :
    doublesSign (t ++ u) = doublesSign t := by
  cases u with
  | nil => rw [List.append_nil]
  | cons c u =>
    obtain ⟨hsign, hsingle, hdouble⟩ := h c rfl
    rw [Bool.eq_iff_iff, ← not_iff_not, Bool.not_eq_true, Bool.not_eq_true, doublesSign_eq_false_iff,
      doublesSign_eq_false_iff]
    match t with
    | [] => simp [hsign]
    | [a] => simp [hsingle, hdouble]
    | a :: b :: t => simp

/-- A comment changes nothing of what a line says, where the right-hand side leaves no quotation
open. -/
theorem ofText_append_comment (hx : '=' ∉ x) (hr : Quoting.bare.endsBare (trimLeft r))
    (h : ∀ c ∈ blanks, isBlank c) (comment : Text) :
    Line.ofText (x ++ '=' :: (r ++ blanks ++ '#' :: comment)) = Line.ofText (x ++ '=' :: r) := by
  obtain ⟨cut, hcut, hblank⟩ := exists_trimRight r
  have hright : trimRight (r ++ blanks ++ '#' :: comment) =
      r ++ blanks ++ '#' :: trimRight comment :=
    trimRight_append_cons (by decide) _ _
  have hdraft : draft (trimRight r) = draft r := by
    conv =>
      rhs
      rw [hcut, draft_append_of_blank hblank]
  refine ofText_append_sign hx ?_ ?_
  · have hhead : ∀ c ∈ (cut ++ blanks ++ '#' :: trimRight comment).head?,
        c ≠ '=' ∧ c ≠ '\'' ∧ c ≠ '"' := by
      intro c hc
      have hmem : isBlank c ∨ c = '#' := by
        rw [List.head?_append, Option.mem_def, Option.or_eq_some_iff] at hc
        rcases hc with hc | ⟨_, hc⟩
        · have hin := List.mem_of_head? hc
          exact Or.inl ((List.mem_append.mp hin).elim (hblank c) (h c))
        · exact Or.inr (by simpa using hc.symm)
      refine ⟨?_, ?_, ?_⟩ <;>
      · rintro rfl
        exact absurd hmem (by decide)
    have hsplit : r ++ blanks ++ '#' :: trimRight comment =
        trimRight r ++ (cut ++ blanks ++ '#' :: trimRight comment) := by
      conv =>
        lhs
        rw [hcut]
      simp
    rw [hright, hsplit, doublesSign_append hhead]
  · rw [hright, draft_append_comment hr h, hdraft]

/-- Text between double marks is taken as it stands, whatever it holds but the mark itself, and with
or without a comment behind it. -/
theorem draft_between_marks (ht : '"' ∉ t) {before after : Text} (hb : ∀ c ∈ before, isBlank c)
    (ha : ∀ c ∈ after, isBlank c) :
    draft (before ++ '"' :: t ++ '"' :: after) = t ∧
      ∀ comment, draft (before ++ '"' :: t ++ '"' :: after ++ '#' :: comment) = t := by
  have hleft : trimLeft (before ++ '"' :: t ++ '"' :: after) = '"' :: (t ++ '"' :: after) := by
    rw [List.append_assoc, trimLeft_append_of_blank hb]
    exact trimLeft_cons_of_not (by decide) _
  have hbare : Quoting.bare.endsBare (trimLeft (before ++ '"' :: t ++ '"' :: after)) := by
    rw [hleft, Quoting.endsBare, Quoting.next, Quoting.endsBare_double ht]
    exact Quoting.endsBare_of_blank ha
  have hdraft : draft (before ++ '"' :: t ++ '"' :: after) = t := by
    have hash : '#' ∉ after := not_mem_of_blank ha (by decide)
    have hnone : Quoting.bare.beforeHash? ('"' :: (t ++ '"' :: after)) = none := by
      have hrest : Quoting.double.beforeHash? (t ++ '"' :: after) = none := by
        rw [Quoting.beforeHash?_double ht]
        simp [Quoting.beforeHash?, Quoting.next, Quoting.beforeHash?_of_not_mem hash]
      simp [Quoting.beforeHash?, Quoting.next, hrest]
    have htrim : trim ('"' :: (t ++ '"' :: after)) = '"' :: t ++ ['"'] := by
      have hcut : trimRight after = [] := trimRight_append_of_blank ha []
      rw [← List.cons_append, trim_append_cons (by decide), trimLeft_cons_of_not (by decide), hcut]
    rw [draft, uncommented, hleft, hnone, htrim, enclosed?_eq_some_iff.mpr rfl]
    rfl
  exact ⟨hdraft, fun comment => (draft_append_hash hbare comment).trans hdraft⟩

/-- A text of blanks, an apostrophe and a hash, with a mark in the comment. -/
theorem draft_between_marks_hash :
    let t := " it's #1\u2003".toList
    '"' ∉ t ∧ (∀ c ∈ "\t".toList, isBlank c) ∧ (∀ c ∈ "\u00A0 ".toList, isBlank c) ∧
    draft ("\t".toList ++ '"' :: t ++ '"' :: "\u00A0 ".toList) = t ∧
      ∀ comment,
        draft ("\t".toList ++ '"' :: t ++ '"' :: "\u00A0 ".toList ++ '#' :: comment) = t := by
  intro t
  have ht : '"' ∉ t := by decide
  have hb : ∀ c ∈ "\t".toList, isBlank c := List.all_eq_true.mp rfl
  have ha : ∀ c ∈ "\u00A0 ".toList, isBlank c := List.all_eq_true.mp rfl
  exact ⟨ht, hb, ha, draft_between_marks ht hb ha⟩

end Declaration

namespace Listing

variable {x r blanks : Text}

theorem value_not_malformed (s : Scope) (key draft line : Text) :
    FailsOnly (fun fault => fault.toldOf line = fault) (value s key draft) := by
  have hread (t : Text) : FailsOnly (fun fault => fault.toldOf line = fault) (Value.ofText t) := by
    refine (Value.ofText_fails t).mono ?_
    rintro _ ⟨_, _, _, _, rfl⟩
    rfl
  refine value_fails ?_ ?_ (fun _ _ _ _ t _ _ => hread t) (fun _ _ t _ => hread t) key
  · intro fault h
    cases fault with
    | malformed => simp [Fault.isOfExpansion] at h
    | _ => rfl
  · intro _ v _
    refine v.splice_fails.mono ?_
    rintro _ rfl
    rfl

/-- Lines that say the same have the same entry or the same fault, each told of its own line. -/
theorem entry?_congr {line line' : Text} (h : Line.ofText line' = Line.ofText line) (s : Scope)
    (filter : KeyFilter) :
    entry? s filter line' = ( entry? s filter line).mapError (Fault.toldOf line') := by
  unfold entry?
  rw [h]
  cases Line.ofText line with
  | silent => rfl
  | broken problem => rfl
  | declaration key draft =>
    simp only
    split
    next =>
      cases hv : value s key draft with
      | ok v => rfl
      | error fault =>
        have hsame := value_not_malformed s key draft line' fault hv
        change Except.error fault = Except.error (fault.toldOf line')
        rw [hsame]
    next => rfl

/-- Whatever stands around a declaration, a comment behind it changes neither its key nor its value
nor its fault; only a report shows the line with the comment. -/
theorem entry_with_comment (hx : '=' ∉ x) (hr : Quoting.bare.endsBare (Text.trimLeft r))
    (h : ∀ c ∈ blanks, Text.isBlank c) (comment : Text) (s : Scope) (filter : KeyFilter) :
    entry? s filter (x ++ '=' :: r ++ blanks ++ '#' :: comment) =
      ( entry? s filter (x ++ '=' :: r)).mapError
        (Fault.toldOf (x ++ '=' :: r ++ blanks ++ '#' :: comment)) := by
  have hshape : x ++ '=' :: r ++ blanks ++ '#' :: comment =
      x ++ '=' :: (r ++ blanks ++ '#' :: comment) := by simp
  have hsays := Declaration.ofText_append_comment hx hr h comment
  rw [← hshape] at hsays
  exact entry?_congr hsays s filter

/-- A hash and a double mark between single marks, and a comment with an open mark and a sign. -/
theorem entry_with_comment_quoted :
    let x := " export A ".toList
    let r := " '#\"'${B}'#'\u2003".toList
    let commented := x ++ '=' :: r ++ " \t".toList ++ '#' :: " it's =\"".toList
    let s : Scope := ⟨∅, ∅, ∅, .ofList [("B".toList, "1".toList)], 10⟩
    '=' ∉ x ∧ Quoting.bare.endsBare (Text.trimLeft r) ∧
    (∀ c ∈ " \t".toList, Text.isBlank c) ∧
    entry? s .all (x ++ '=' :: r) = .ok (some ("A".toList, .text "'#\"'1'#'".toList)) ∧
    entry? s .all commented = ( entry? s .all (x ++ '=' :: r)).mapError (Fault.toldOf commented) := by
  intro x r commented s
  have hx : '=' ∉ x := by decide
  have hr : Quoting.bare.endsBare (Text.trimLeft r) := by decide
  have hblank : ∀ c ∈ " \t".toList, Text.isBlank c := List.all_eq_true.mp rfl
  exact ⟨hx, hr, hblank, by decide +kernel,
    entry_with_comment hx hr hblank " it's =\"".toList s .all⟩

end Listing

end EnvFile
