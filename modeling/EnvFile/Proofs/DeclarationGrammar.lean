import EnvFile.Proofs.Blanks
import EnvFile.Proofs.Declarations
import EnvFile.Proofs.Letters
import EnvFile.Proofs.Splicing

namespace EnvFile

namespace Template

theorem reference_eq_value_iff {body name : Text} {default : Template} :
    reference body default = .value name ↔ name ≠ [] ∧ head body = (name, .plain, []) := by
  unfold reference
  simp only
  rcases head body with ⟨found, operator, argument⟩
  cases found with
  | nil =>
    refine iff_of_false (by simp) ?_
    rintro ⟨hne, he⟩
    exact hne (Prod.mk.inj he).1.symm
  | cons c found =>
    cases operator with
    | plain =>
      cases argument with
      | nil =>
        constructor
        · intro h
          cases h
          exact ⟨List.cons_ne_nil c found, rfl⟩
        · rintro ⟨_, he⟩
          cases he
          rfl
      | cons d argument => exact iff_of_false (by simp) (by simp)
    | orDefault enough => exact iff_of_false (by simp) (by simp)
    | orFail enough => exact iff_of_false (by simp) (by simp)

/-- Braces around a key refer to it just where no lookalike stands in it. -/
theorem ofText_key {key : Text} (h : Text.isKey key) :
    ofText ('$' :: '{' :: key ++ ['}']) = [.value key] ↔ ∀ c ∈ key, c ∉ Text.lookalikes := by
  have hchar : ∀ c ∈ key, c ∈ Text.lookalikes ∨ Text.isNameChar c := by
    intro c hc
    exact Text.continuesKey_iff.mp (Text.continuesKey_of_mem h hc)
  have hdollar : '$' ∉ key := fun hmem => absurd (hchar '$' hmem) (by decide)
  have hbrace : '}' ∉ key := fun hmem => absurd (hchar '}' hmem) (by decide)
  have hbody : body? 0 (key ++ ['}']) = some (key, []) :=
    (balanced_of_not_mem hdollar hbrace).body? []
  have hread : ofText ('$' :: '{' :: key ++ ['}']) = [reference key (ofText (head key).2.2)] := by
    rw [List.cons_append, List.cons_append, ofText.eq_2]
    split
    next hnone =>
      rw [hbody] at hnone
      cases hnone
    next hsome =>
      rw [hbody] at hsome
      cases hsome
      rw [ofText.eq_1]
  rw [hread, List.cons.injEq, reference_eq_value_iff]
  constructor
  · rintro ⟨⟨_, hhead⟩, _⟩ c hc hl
    have htake : key.takeWhile Text.isNameChar = key := congrArg Prod.fst hhead
    have hname := List.takeWhile_eq_self_iff.mp htake c hc
    rw [Text.not_isNameChar_of_lookalike hl] at hname
    cases hname
  · intro hplain
    have hne := Text.ne_nil_of_isKey h
    have hname : ∀ c ∈ key, Text.isNameChar c := fun c hc => (hchar c hc).resolve_left (hplain c hc)
    have hhead : head (key ++ Operator.plain.mark ++ []) = (key, .plain, []) :=
      Name.head_body ⟨key, hne, hname⟩ fun _ => rfl
    rw [Operator.mark, List.append_nil, List.append_nil] at hhead
    exact ⟨⟨hne, hhead⟩, rfl⟩

end Template

namespace Text

variable {key : Text}

theorem not_mem_of_isKey (h : isKey key) {c : Char} (hc : continuesKey c = false) : c ∉ key := by
  intro hm
  rw [continuesKey_of_mem h hm] at hc
  exact Bool.noConfusion hc

theorem not_isBlank_of_mem_key (h : isKey key) {c : Char} (hc : c ∈ key) : isBlank c = false := by
  refine Bool.eq_false_iff.mpr fun hb => ?_
  rcases continuesKey_iff.mp (continuesKey_of_mem h hc) with hl | hn
  · have hall : (lookalikes.all fun d => !isBlank d) = true := by decide
    simpa [hb] using List.all_eq_true.mp hall c hl
  · exact not_isNameChar_of_isBlank hb hn

end Text

namespace Declaration

/-- What is read of a line: not the blanks around it, and not the word in front that marks it for
export with the blanks after that. -/
inductive Bares (line : Text) : Text → Prop
  | exported {rest : Text} : Text.trim line = "export ".toList ++ rest →
      Bares line (Text.trimLeft rest)
  | plain : ¬"export ".toList <+: Text.trim line → Bares line (Text.trim line)

/-- What stands in a line before its first sign, and what after it. -/
structure Parts (line left right : Text) : Prop where
  bares : Bares line (left ++ '=' :: right)
  first : '=' ∉ left

/-- The line declares the key with the right-hand side. -/
structure Declares (line key right : Text) : Prop where
  parts : ∃ left, Parts line left right ∧ key = Text.trim left
  isPlainKey : Text.IsPlainKey key
  quoted : ∀ rest, right = '=' :: rest → rest.head? = some '\'' ∨ rest.head? = some '"'

/-- Why a line is refused. -/
inductive Refuses (line : Text) : LineProblem → Prop
  | missingSign {body : Text} : Bares line body → '=' ∉ body → Refuses line .missingSign
  | invalidKey {left right : Text} : Parts line left right → ¬Text.isKey (Text.trim left) →
      Refuses line (.invalidKey (Text.trim left))
  | doubledSign {left right : Text} : Parts line left right → Text.isKey (Text.trim left) →
      doublesSign right → Refuses line (.doubledSign (Text.trim left))

variable {line body left key right : Text}

theorem bares_iff : Bares line body ↔ body = unexported (Text.trim line) := by
  unfold unexported
  cases hafter : Text.after? "export ".toList (Text.trim line) with
  | some rest =>
    have htrim := Text.after?_eq_some_iff.mp hafter
    constructor
    · intro h
      cases h with
      | exported htrim' =>
        rw [htrim] at htrim'
        rw [List.append_cancel_left htrim']
      | plain hno => exact absurd ⟨rest, htrim.symm⟩ hno
    · rintro rfl
      exact .exported htrim
  | none =>
    have hno : ¬"export ".toList <+: Text.trim line := by
      rintro ⟨rest, htrim⟩
      rw [Text.after?_eq_some_iff.mpr htrim.symm] at hafter
      cases hafter
    constructor
    · intro h
      cases h with
      | exported htrim => exact absurd ⟨_, htrim.symm⟩ hno
      | plain _ => rfl
    · rintro rfl
      exact .plain hno

/-- A text that holds no sign is passed over whole. -/
theorem takeWhile_of_not_mem (h : '=' ∉ left) :
    left.takeWhile (· != '=') = left ∧ left.dropWhile (· != '=') = [] := by
  have hall : ∀ c ∈ left, (c != '=') = true := by
    intro c hc
    simpa using ne_of_mem_of_not_mem hc h
  exact ⟨List.takeWhile_eq_self_iff.mpr hall, List.dropWhile_eq_nil_iff.mpr hall⟩

theorem ofLine_of_not_mem (hb : Bares line body) (h : '=' ∉ body) :
    ofLine line = .error .missingSign := by
  obtain ⟨_, hdrop⟩ := takeWhile_of_not_mem h
  rw [bares_iff.mp hb] at hdrop
  unfold ofLine
  simp only [hdrop]

theorem ofLine_of_parts (h : Parts line left right) :
    ofLine line =
      if !Text.isKey (Text.trim left) then .error (.invalidKey (Text.trim left))
      else if doublesSign right then .error (.doubledSign (Text.trim left))
      else .ok (Text.trim left, right) := by
  obtain ⟨htake, hdrop⟩ := takeWhile_of_not_mem h.first
  have hleft := Text.takeWhile_append_stop (p := (· != '=')) (c := '=') (by decide) left right
  have hright := Text.dropWhile_append_stop (p := (· != '=')) (c := '=') (by decide) left right
  rw [htake, bares_iff.mp h.bares] at hleft
  rw [hdrop, List.nil_append, bares_iff.mp h.bares] at hright
  unfold ofLine
  simp only [hleft, hright]

theorem exists_parts (line : Text) :
    (∃ body, Bares line body ∧ '=' ∉ body) ∨ ∃ left right, Parts line left right := by
  have hbares := bares_iff.mpr (Eq.refl (unexported (Text.trim line)))
  by_cases hmem : '=' ∈ unexported (Text.trim line)
  · obtain ⟨left, right, hsplit, hfirst⟩ := List.eq_append_cons_of_mem hmem
    rw [hsplit] at hbares
    exact Or.inr ⟨left, right, hbares, hfirst⟩
  · exact Or.inl ⟨_, hbares, hmem⟩

theorem trim_of_key (h : Text.isKey key) (right : Text) :
    Text.trim (key ++ '=' :: right) = key ++ '=' :: Text.trimRight right := by
  obtain ⟨c, rest, rfl⟩ := List.exists_cons_of_ne_nil (Text.ne_nil_of_isKey h)
  have hc := Text.not_isBlank_of_mem_key h List.mem_cons_self
  rw [Text.trim, List.cons_append, Text.trimLeft_cons_of_not hc, ← List.cons_append,
    Text.trimRight_append_cons (by decide)]

/-- A line that begins with a key and the sign is not taken for one marked for export, whatever the
key. -/
theorem parts_of_key (h : Text.isKey key) (right : Text) :
    Parts (key ++ '=' :: right) key (Text.trimRight right) := by
  have hblank : ' ' ∉ key := Text.not_mem_of_isKey h (by decide)
  refine ⟨?_, Text.not_mem_of_isKey h (by decide)⟩
  rw [← trim_of_key h]
  refine .plain fun hexport => ?_
  obtain ⟨rest, hrest⟩ := hexport
  rw [trim_of_key h, List.append_eq_append_iff] at hrest
  rcases hrest with ⟨more, hkey, _⟩ | ⟨more, hword, hsign⟩
  · exact hblank (hkey ▸ List.mem_append_left more (by decide))
  · cases more with
    | nil =>
      rw [List.append_nil] at hword
      exact hblank (hword ▸ (by decide))
    | cons c more =>
      obtain rfl : '=' = c := (List.cons.inj hsign).1
      exact absurd (hword ▸ List.mem_append_right key List.mem_cons_self :
        '=' ∈ "export ".toList) (by decide)

theorem doublesSign_eq_false_iff :
    doublesSign right = false ↔
      ∀ rest, right = '=' :: rest → rest.head? = some '\'' ∨ rest.head? = some '"' := by
  unfold doublesSign
  split
  next rest =>
    refine iff_of_true rfl fun rest' he => ?_
    cases he
    exact Or.inl rfl
  next rest =>
    refine iff_of_true rfl fun rest' he => ?_
    cases he
    exact Or.inr rfl
  next rest hsingle hdouble =>
    refine iff_of_false (by simp) fun h => ?_
    rcases h rest rfl with hmark | hmark
    · obtain ⟨more, rfl⟩ := List.head?_eq_some_iff.mp hmark
      exact hsingle more rfl
    · obtain ⟨more, rfl⟩ := List.head?_eq_some_iff.mp hmark
      exact hdouble more rfl
  next hsign => exact iff_of_true rfl fun rest he => absurd he (hsign rest)

theorem ofLine_eq_ok_iff :
    ofLine line = .ok (key, right) ↔
      (∃ left, Parts line left right ∧ key = Text.trim left) ∧ Text.isKey key ∧
        doublesSign right = false := by
  constructor
  · intro h
    rcases exists_parts line with ⟨body, hbares, hmem⟩ | ⟨left, after, hparts⟩
    · rw [ofLine_of_not_mem hbares hmem] at h
      cases h
    · rw [ofLine_of_parts hparts] at h
      split at h
      next => cases h
      next hkey =>
        split at h
        next => cases h
        next hsign =>
          cases h
          exact ⟨⟨left, hparts, rfl⟩, by simpa using hkey, by simpa using hsign⟩
  · rintro ⟨⟨left, hparts, rfl⟩, hkey, hsign⟩
    rw [ofLine_of_parts hparts, hkey, hsign]
    rfl

theorem refuses_of_ofLine {problem : LineProblem} (h : ofLine line = .error problem) :
    Refuses line problem := by
  rcases exists_parts line with ⟨body, hbares, hmem⟩ | ⟨left, right, hparts⟩
  · rw [ofLine_of_not_mem hbares hmem] at h
    cases h
    exact .missingSign hbares hmem
  · rw [ofLine_of_parts hparts] at h
    split at h
    next hkey =>
      cases h
      exact .invalidKey hparts (by simpa using hkey)
    next hkey =>
      split at h
      next hsign =>
        cases h
        exact .doubledSign hparts (by simpa using hkey) hsign
      next => cases h

theorem declares_iff_ofLine :
    Declares line key right ↔
      ofLine line = .ok (key, right) ∧ ∀ c ∈ key, c ∉ Text.lookalikes := by
  rw [ofLine_eq_ok_iff, doublesSign_eq_false_iff]
  constructor
  · intro h
    obtain ⟨hkey, hplain⟩ := Text.isPlainKey_iff.mp h.isPlainKey
    exact ⟨⟨h.parts, hkey, h.quoted⟩, hplain⟩
  · rintro ⟨⟨hparts, hkey, hquoted⟩, hplain⟩
    exact ⟨hparts, Text.isPlainKey_iff.mpr ⟨hkey, hplain⟩, hquoted⟩

/-- A line declares a key just where it is read so and no lookalike stands in the key, which is just
where a reference in braces reaches the key. Any other line is refused for its first fault, but for
those with lookalikes in the key, which are read as declarations too. -/
theorem reads_declarations (line : Text) :
    (∀ key right, Declares line key right ↔
      ofLine line = .ok (key, right) ∧ ∀ c ∈ key, c ∉ Text.lookalikes) ∧
    (∀ key right, Declares line key right ↔
      ofLine line = .ok (key, right) ∧
        Template.ofText ('$' :: '{' :: key ++ ['}']) = [.value key]) ∧
    ((∀ key right, ¬Declares line key right) ↔
      (∃ problem, ofLine line = .error problem ∧ Refuses line problem) ∨
        ∃ key right, ofLine line = .ok (key, right) ∧ ∃ c ∈ key, c ∈ Text.lookalikes) := by
  refine ⟨fun key right => declares_iff_ofLine, fun key right => ?_, ?_⟩
  · rw [declares_iff_ofLine]
    refine and_congr_right fun h => (Template.ofText_key ?_).symm
    exact (ofLine_eq_ok_iff.mp h).2.1
  · constructor
    · intro hnone
      cases h : ofLine line with
      | error problem => exact Or.inl ⟨problem, rfl, refuses_of_ofLine h⟩
      | ok parts =>
        obtain ⟨key, right⟩ := parts
        by_cases hplain : ∀ c ∈ key, c ∉ Text.lookalikes
        · exact absurd (declares_iff_ofLine.mpr ⟨h, hplain⟩) (hnone key right)
        · simp only [not_forall, not_not] at hplain
          obtain ⟨c, hc, hl⟩ := hplain
          exact Or.inr ⟨key, right, rfl, c, hc, hl⟩
    · rintro (⟨problem, h, _⟩ | ⟨key, right, h, c, hc, hl⟩) key' right' hdeclares
      · rw [(declares_iff_ofLine.mp hdeclares).1] at h
        cases h
      · obtain ⟨h', hplain⟩ := declares_iff_ofLine.mp hdeclares
        rw [h] at h'
        cases h'
        exact hplain c hc hl

/-- A long s is read as a letter of a key, and a reference to the key is broken. -/
theorem ofLine_long_s :
    let key := "A\u017F".toList
    ofLine "A\u017F=1".toList = .ok (key, "1".toList) ∧ ¬Declares "A\u017F=1".toList key "1".toList ∧
    Scope.expand ⟨.ofList [(key, .int 1)], ∅, ∅, ∅, 10⟩ none ('$' :: '{' :: key ++ ['}']) =
      .error (.badPlaceholder ('$' :: '{' :: key ++ ['}']) "invalid substitution operator".toList) := by
  intro key
  refine ⟨by decide, fun h => ?_, by decide +kernel⟩
  have hmem : '\u017F' ∈ key := by decide
  exact absurd (h.isPlainKey.isName '\u017F' hmem) (by decide)

end Declaration

end EnvFile
