import EnvFile.Proofs.Chains
import EnvFile.Proofs.Phrases

namespace EnvFile

/-- The name as a reference in braces that asks for nothing else. -/
def Name.braced (name : Name) : Text := '$' :: '{' :: name.text ++ ['}']

namespace Template

/-- A brace that closes a body closes it whatever text follows. -/
theorem body?_append {depth : Nat} {t b r : Text} (h : body? depth t = some (b, r)) (u : Text) :
    body? depth (t ++ u) = some (b, r ++ u) := by
  fun_induction body? depth t generalizing b with
  | case1 depth t ih =>
    obtain ⟨⟨b', r'⟩, hb, he⟩ := Option.map_eq_some_iff.mp h
    cases he
    rw [List.cons_append, List.cons_append, body?.eq_1, ih hb]
    rfl
  | case2 t =>
    cases h
    rw [List.cons_append, body?.eq_2]
  | case3 depth t ih =>
    obtain ⟨⟨b', r'⟩, hb, he⟩ := Option.map_eq_some_iff.mp h
    cases he
    rw [List.cons_append, body?.eq_3, ih hb]
    rfl
  | case4 depth c t hopen hclose hclose' ih =>
    obtain ⟨⟨b', r'⟩, hb, he⟩ := Option.map_eq_some_iff.mp h
    cases he
    -- no brace can come to stand behind a dollar sign, as the body does not end with `t`
    have hopen' : ∀ t', c = '$' → t ++ u ≠ '{' :: t' := by
      intro t' hc ht
      cases t with
      | nil => simp [body?] at hb
      | cons d t =>
        obtain ⟨rfl, _⟩ := List.cons.inj ht
        exact hopen t hc rfl
    rw [List.cons_append, body?.eq_4 depth c (t ++ u) hopen' hclose hclose', ih hb]
    rfl
  | case5 => simp at h

end Template

namespace Opened

/-- What a dollar sign has begun, where more text follows the rest. -/
def followedBy (u : Text) : Opened → Opened
  | nothing => nothing
  | broken placeholder detail => broken placeholder detail
  | reference ref rest => reference ref (rest ++ u)

theorem ofBody_append (body rest u : Text) :
    ofBody body (rest ++ u) = (ofBody body rest).followedBy u := by
  unfold ofBody
  simp only
  split
  next => rfl
  next => rfl
  next => rfl

/-- Neither a name nor a default without braces goes on past a dollar sign. -/
theorem ofBare_append_dollar (t u : Text) :
    ofBare (t ++ '$' :: u) = (ofBare t).followedBy ('$' :: u) := by
  have hname : (t ++ '$' :: u).takeWhile Text.isNameChar = t.takeWhile Text.isNameChar :=
    Text.takeWhile_append_stop (by decide) t u
  have hafter : (t ++ '$' :: u).dropWhile Text.isNameChar =
      t.dropWhile Text.isNameChar ++ '$' :: u :=
    Text.dropWhile_append_stop (by decide) t u
  by_cases hnil : t.takeWhile Text.isNameChar = []
  · rw [Template.ofBare_of_nil hnil, Template.ofBare_of_nil (hname.trans hnil), followedBy]
  have hnil' : (t ++ '$' :: u).takeWhile Text.isNameChar ≠ [] := hname ▸ hnil
  cases hrest : t.dropWhile Text.isNameChar with
  | nil =>
    have hminus : ∀ r, t.dropWhile Text.isNameChar ≠ '-' :: r := by simp [hrest]
    have hminus' : ∀ r, (t ++ '$' :: u).dropWhile Text.isNameChar ≠ '-' :: r := by
      simp [hafter, hrest]
    rw [Template.ofBare_of_not_minus hnil hminus, Template.ofBare_of_not_minus hnil' hminus', hname,
      hafter, followedBy]
  | cons d r =>
    rw [hrest, List.cons_append] at hafter
    by_cases hd : d = '-'
    · subst hd
      have htake := Text.takeWhile_append_stop (p := Template.isBareDefault) (c := '$') (by decide) r u
      have hdrop := Text.dropWhile_append_stop (p := Template.isBareDefault) (c := '$') (by decide) r u
      rw [Template.ofBare_of_minus hnil hrest, Template.ofBare_of_minus hnil' hafter, hname, htake,
        hdrop, followedBy]
    · have hminus : ∀ r', t.dropWhile Text.isNameChar ≠ '-' :: r' := by simp [hrest, hd]
      have hminus' : ∀ r', (t ++ '$' :: u).dropWhile Text.isNameChar ≠ '-' :: r' := by
        simp [hafter, hd]
      rw [Template.ofBare_of_not_minus hnil hminus, Template.ofBare_of_not_minus hnil' hminus', hname,
        hafter, hrest, followedBy, List.cons_append]

/-- What a dollar sign has begun does not change where the text goes on with another one. -/
theorem ofText_append_dollar {t : Text} (h : ∀ placeholder detail, ofText t ≠ broken placeholder detail)
    (u : Text) : ofText (t ++ '$' :: u) = (ofText t).followedBy ('$' :: u) := by
  cases t with
  | nil => exact ofBare_append_dollar [] u
  | cons c t =>
    by_cases hc : c = '{'
    · subst hc
      cases hbody : Template.body? 0 t with
      | none =>
        have hbroken : ofText ('{' :: t) =
            broken ('$' :: '{' :: t) "unterminated placeholder".toList := by
          simp only [ofText, hbody]
        exact absurd hbroken (h _ _)
      | some br =>
        obtain ⟨body, rest⟩ := br
        simp only [ofText, List.cons_append, hbody, Template.body?_append hbody ('$' :: u)]
        exact ofBody_append body rest ('$' :: u)
    · have hbare : ∀ v, ofText (c :: v) = ofBare (c :: v) := fun v =>
        ofText.eq_2 (c :: v) (fun _ he => hc (List.cons.inj he).1)
      rw [List.cons_append, hbare, hbare, ← List.cons_append]
      exact ofBare_append_dollar (c :: t) u

end Opened

namespace Scope

variable {s : Scope} {chain : List Text}

theorem map_append_append (x : Except Fault Text) (t u : Text) :
    (x.map (u ++ ·)).map (t ++ ·) = x.map (t ++ u ++ ·) := by
  cases x <;> simp [Except.map]

/-- A text that expands is expanded as it is where a dollar sign follows: nothing in it reaches past
the sign. -/
theorem resolve_append_dollar {a r : Text} (h : s.resolve chain a = .ok r) (u : Text) :
    s.resolve chain (a ++ '$' :: u) = (s.resolve chain ('$' :: u)).map (r ++ ·) := by
  -- each piece of the text leaves a shorter rest
  induction hn : a.length using Nat.strongRecOn generalizing a r with
  | ind n ih =>
    cases a with
    | nil =>
      rw [resolve_nil] at h
      cases h
      cases hu : s.resolve chain ('$' :: u) <;> simp [hu, Except.map]
    | cons c t =>
      rw [List.length_cons] at hn
      by_cases hc : c = '$'
      · subst hc
        have hopen : (∀ placeholder detail, Opened.ofText t ≠ .broken placeholder detail) := by
          intro placeholder detail ho
          rw [resolve_of_broken ho] at h
          cases h
        have hnext := Opened.ofText_append_dollar hopen u
        cases ho : Opened.ofText t with
        | nothing =>
          rw [resolve_of_nothing ho] at h
          obtain ⟨r', hr', rfl⟩ := Results.map_eq_ok.mp h
          rw [ho, Opened.followedBy] at hnext
          have hrest := ih t.length (by omega) hr' rfl
          rw [List.cons_append, resolve_of_nothing hnext, hrest]
          exact map_append_append _ ['$'] r'
        | broken placeholder detail => exact absurd ho (hopen placeholder detail)
        | reference ref rest =>
          rw [resolve_of_reference ho] at h
          obtain ⟨v, hv, h⟩ := Results.bind_eq_ok.mp h
          obtain ⟨r', hr', rfl⟩ := Results.map_eq_ok.mp h
          rw [ho, Opened.followedBy] at hnext
          have hlength := (Opened.length_le_of_ofText ho).2
          have hrest := ih rest.length (by omega) hr' rfl
          rw [List.cons_append, resolve_of_reference hnext, hv, hrest]
          exact map_append_append _ v r'
      · rw [resolve_literal s chain hc] at h
        obtain ⟨r', hr', rfl⟩ := Results.map_eq_ok.mp h
        have hrest := ih t.length (by omega) hr' rfl
        rw [List.cons_append, resolve_literal s chain hc, hrest]
        exact map_append_append _ [c] r'

theorem resolve_braced (s : Scope) (chain : List Text) (name : Name) (rest : Text) :
    s.resolve chain (name.braced ++ rest) = (do
      let found ← s.lookUp s.resolve chain name.text
      let t ← screen chain name.text (found.getD [])
      (s.resolve chain rest).map (t ++ ·)) := by
  have hopen : Opened.ofText ('{' :: (name.text ++ Operator.plain.mark ++ []) ++ '}' :: rest) =
      .reference ⟨name.text, .plain, []⟩ rest :=
    Phrase.ofText_placeholder name (fun _ => rfl) Template.balanced_nil rest
  have hbraced : name.braced ++ rest =
      '$' :: ('{' :: (name.text ++ Operator.plain.mark ++ []) ++ '}' :: rest) := by
    simp [Name.braced, Operator.mark]
  rw [hbraced, resolve_of_reference hopen]
  exact bind_assoc ..

theorem resolve_braced_alone (s : Scope) (chain : List Text) (name : Name) :
    s.resolve chain name.braced = (do
      let found ← s.lookUp s.resolve chain name.text
      screen chain name.text (found.getD [])) := by
  refine Phrase.resolve_of_append_nil ?_
  rw [resolve_braced]
  exact (bind_assoc ..).symm

/-- A reference to a name that has a value is replaced by the text of the value, and what follows is
expanded on its own. -/
theorem resolve_braced_of_value {name : Name} {v : Value} {t : Text} (hfree : name.text ∉ chain)
    (hroom : chain.length < s.limit) (hv : s.value? name.text = some v) (ht : v.splice = .ok t)
    (hh : Hazard.carried t = false) (rest : Text) :
    s.resolve chain (name.braced ++ rest) = (s.resolve chain rest).map (t ++ ·) := by
  have hfound : s.lookUp s.resolve chain name.text = .ok (some t) := by
    rw [lookUp_of_room hfree hroom, found, hv]
    exact Results.map_eq_ok.mpr ⟨t, ht, rfl⟩
  have hscreen : screen chain name.text t = .ok t := by
    rw [screen, hh]
    rfl
  rw [resolve_braced, hfound]
  change (screen chain name.text t >>= _) = _
  rw [hscreen]
  rfl

/-- The text of a value takes the place of a reference to its name as it stands, whatever it holds and
whatever stands beside the reference: the texts before and after are expanded as without it, and a
failure of what follows is the failure of the whole. The chain needs room for one name besides the
owner. -/
theorem expand_around_reference {s : Scope} {owner : Option Text} {name : Name} {v : Value}
    {a r t : Text} (hname : owner ≠ some name.text) (hroom : (start owner).length < s.limit)
    (hv : s.value? name.text = some v) (ht : v.splice = .ok t) (hh : Hazard.carried t = false)
    (ha : s.expand owner a = .ok r) (b : Text) :
    s.expand owner (a ++ name.braced ++ b) = (s.expand owner b).map (r ++ t ++ ·) := by
  have hfree : name.text ∉ start owner := by
    match owner with
    | none => exact List.not_mem_nil
    | some [] => exact List.not_mem_nil
    | some (c :: key) =>
      intro hmem
      exact hname (congrArg some (List.mem_singleton.mp hmem).symm)
  rw [expand_eq_resolve] at ha
  rw [expand_eq_resolve, expand_eq_resolve, List.append_assoc]
  calc s.resolve (start owner) (a ++ (name.braced ++ b))
      = (s.resolve (start owner) (name.braced ++ b)).map (r ++ ·) := resolve_append_dollar ha _
    _ = ((s.resolve (start owner) b).map (t ++ ·)).map (r ++ ·) := by
        rw [resolve_braced_of_value hfree hroom hv ht hh]
    _ = (s.resolve (start owner) b).map (r ++ t ++ ·) := map_append_append _ r t

/-- A value that reads like a reference itself, between a dollar sign and braces. -/
theorem expand_around_reference_seams :
    let s : Scope := ⟨∅, .ofList [("A".toList, .text "${B}$".toList)], ∅, ∅, 2⟩
    let name : Name := ⟨"A".toList, by decide, List.all_eq_true.mp rfl⟩
    some "K".toList ≠ some name.text ∧ (start (some "K".toList)).length < s.limit ∧
      s.value? name.text = some (.text "${B}$".toList) ∧
      (Value.text "${B}$".toList).splice = .ok "${B}$".toList ∧
      Hazard.carried "${B}$".toList = false ∧ s.expand (some "K".toList) "p$".toList = .ok "p$".toList ∧
      s.expand (some "K".toList) "p$${A}{B}".toList = .ok "p$${B}${B}".toList ∧
      s.expand (some "K".toList) "p$${A}\x7b$\x7b".toList =
        .error (.badPlaceholder "$\x7b".toList "unterminated placeholder".toList) := by
  intro s name
  have hname : some "K".toList ≠ some name.text := by decide
  have hroom : (start (some "K".toList)).length < s.limit := by decide
  have hv : s.value? name.text = some (.text "${B}$".toList) := rfl
  have ht : (Value.text "${B}$".toList).splice = .ok "${B}$".toList := rfl
  have hh : Hazard.carried "${B}$".toList = false := by decide
  have ha : s.expand (some "K".toList) "p$".toList = .ok "p$".toList := by decide +kernel
  have hafter : s.expand (some "K".toList) "{B}".toList = .ok "{B}".toList := by decide +kernel
  have hbroken : s.expand (some "K".toList) "\x7b$\x7b".toList =
      .error (.badPlaceholder "$\x7b".toList "unterminated placeholder".toList) := by decide +kernel
  refine ⟨hname, hroom, hv, ht, hh, ha, ?_, ?_⟩
  · have h := expand_around_reference hname hroom hv ht hh ha "{B}".toList
    rw [hafter] at h
    exact h
  · have h := expand_around_reference hname hroom hv ht hh ha "\x7b$\x7b".toList
    rw [hbroken] at h
    exact h

end Scope

end EnvFile
