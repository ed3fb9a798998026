import EnvFile.Proofs.Mentions
import EnvFile.Proofs.Openings
import EnvFile.Proofs.Tables

namespace EnvFile

/-- The name at the start of a text that follows a dollar sign. A brace may stand before it. -/
def Text.nameAfter : Text → Text
  | '{' :: t => t.takeWhile isNameChar
  | t => t.takeWhile isNameChar

/-- The names that stand in a text after a dollar sign, or after that and a brace, whatever a reader
of the text makes of them. -/
def Text.writtenNames : Text → List Text
  | [] => []
  | c :: t =>
    if c = '$' ∧ nameAfter t ≠ [] then nameAfter t :: writtenNames t else writtenNames t

namespace Text

theorem writtenNames_dollar {t : Text} (h : nameAfter t ≠ []) : nameAfter t ∈ writtenNames ('$' :: t) := by
  rw [writtenNames, if_pos ⟨rfl, h⟩]
  exact List.mem_cons_self

theorem writtenNames_subset_cons (c : Char) (t : Text) : writtenNames t ⊆ writtenNames (c :: t) := by
  intro n hn
  rw [writtenNames]
  split
  next => exact List.mem_cons_of_mem _ hn
  next => exact hn

theorem writtenNames_subset_append (u t : Text) : writtenNames t ⊆ writtenNames (u ++ t) := by
  induction u with
  | nil => exact List.Subset.refl _
  | cons c u ih => exact List.Subset.trans ih (writtenNames_subset_cons c (u ++ t))

theorem writtenNames_subset_of_suffix {u t : Text} (h : u <:+ t) : writtenNames u ⊆ writtenNames t := by
  obtain ⟨v, rfl⟩ := h
  exact writtenNames_subset_append v u

/-- No name reaches across a closing brace. -/
theorem nameAfter_append_brace (t u : Text) : nameAfter (t ++ '}' :: u) = nameAfter t := by
  unfold nameAfter
  split
  next r he =>
    cases t with
    | nil => simp at he
    | cons c t =>
      obtain ⟨rfl, rfl⟩ := List.cons.inj he
      exact takeWhile_append_stop (by decide) t u
  next hne =>
    split
    next r => exact absurd rfl (hne _)
    next => exact takeWhile_append_stop (by decide) t u

theorem writtenNames_subset_append_brace (t u : Text) :
    writtenNames t ⊆ writtenNames (t ++ '}' :: u) := by
  induction t with
  | nil => exact List.nil_subset _
  | cons c t ih =>
    rw [List.cons_append, writtenNames, writtenNames, nameAfter_append_brace]
    split
    next => exact List.cons_subset_cons _ ih
    next => exact ih

end Text

theorem Operator.take_suffix (t : Text) : (take t).2 <:+ t := by
  unfold take
  split
  next t => exact ⟨[':', '-'], rfl⟩
  next t => exact ⟨['-'], rfl⟩
  next t => exact ⟨[':', '?'], rfl⟩
  next t => exact ⟨['?'], rfl⟩
  next => exact List.suffix_refl _

namespace Template

open Text

theorem eq_of_body? {depth : Nat} {t b r : Text} (h : body? depth t = some (b, r)) :
    t = b ++ '}' :: r := by
  fun_induction body? depth t generalizing b with
  | case1 depth t ih =>
    obtain ⟨⟨b', r'⟩, hb, he⟩ := Option.map_eq_some_iff.mp h
    cases he
    rw [ih hb, List.cons_append, List.cons_append]
  | case2 t =>
    cases h
    rfl
  | case3 depth t ih =>
    obtain ⟨⟨b', r'⟩, hb, he⟩ := Option.map_eq_some_iff.mp h
    cases he
    rw [ih hb, List.cons_append]
  | case4 depth c t _ _ _ ih =>
    obtain ⟨⟨b', r'⟩, hb, he⟩ := Option.map_eq_some_iff.mp h
    cases he
    rw [ih hb, List.cons_append]
  | case5 => simp at h

theorem head_suffix (t : Text) : (head t).2.2 <:+ t :=
  (Operator.take_suffix _).trans (List.dropWhile_suffix Text.isNameChar)

/-- A reference is to the name at the start of its body, and to what its default refers to. -/
theorem mem_itemNames_reference {body n : Text} {default : Template}
    (h : n ∈ itemNames (reference body default)) :
    n = body.takeWhile isNameChar ∧ n ≠ [] ∨ n ∈ names default := by
  have hname : (head body).1 = body.takeWhile isNameChar := rfl
  unfold reference at h
  simp only at h
  rcases hhead : head body with ⟨name, operator, argument⟩
  rw [hhead] at h hname
  rw [← hname]
  cases name with
  | nil => simp [itemNames] at h
  | cons c name =>
    have hfirst : n = c :: name → n = c :: name ∧ n ≠ [] ∨ n ∈ names default :=
      fun he => Or.inl ⟨he, he ▸ List.cons_ne_nil c name⟩
    cases operator with
    | plain =>
      cases argument with
      | nil => exact hfirst (List.mem_singleton.mp h)
      | cons d argument => simp [itemNames] at h
    | orDefault enough => exact (List.mem_cons.mp h).elim hfirst Or.inr
    | orFail enough => exact hfirst (List.mem_singleton.mp h)

theorem suffix_of_bare? {t r : Text} {item : Item} (h : bare? t = some (item, r)) : r <:+ t := by
  have hdrop : t.dropWhile isNameChar <:+ t := List.dropWhile_suffix isNameChar
  unfold bare? at h
  split at h
  next => simp at h
  next r' hr _ =>
    cases h
    rw [hr] at hdrop
    exact (List.dropWhile_suffix isBareDefault).trans ((List.suffix_cons '-' r').trans hdrop)
  next =>
    cases h
    exact hdrop

theorem mem_itemNames_of_bare? {t r n : Text} {item : Item} (h : bare? t = some (item, r))
    (hn : n ∈ itemNames item) : n = t.takeWhile isNameChar ∧ n ≠ [] := by
  unfold bare? at h
  split at h
  next => simp at h
  next r' _ hne =>
    cases h
    have hverbatim : names (verbatim (r'.takeWhile isBareDefault)) = [] := by
      cases r'.takeWhile isBareDefault <;> rfl
    obtain rfl : n = _ := by simpa [itemNames, hverbatim] using hn
    exact ⟨rfl, hne⟩
  next hne _ =>
    cases h
    obtain rfl : n = _ := by simpa [itemNames] using hn
    exact ⟨rfl, hne⟩

/-- What a body refers to, and what a text after it does, is written in the whole. -/
theorem names_reference_subset {t b r : Text} (hbody : body? 0 t = some (b, r))
    (hdefault : names (ofText (head b).2.2) ⊆ writtenNames (head b).2.2)
    (hrest : names (ofText r) ⊆ writtenNames r) :
    names (reference b (ofText (head b).2.2) :: ofText r) ⊆ writtenNames ('$' :: '{' :: t) := by
  have ht : t = b ++ '}' :: r := eq_of_body? hbody
  have hpart {u : Text} (hu : u <:+ t) : writtenNames u ⊆ writtenNames ('$' :: '{' :: t) :=
    writtenNames_subset_of_suffix (hu.trans ⟨['$', '{'], rfl⟩)
  refine List.append_subset.mpr ⟨fun n hn => ?_, ?_⟩
  · rcases mem_itemNames_reference hn with ⟨hname, hne⟩ | hn
    · have hafter : nameAfter ('{' :: t) = n := by
        rw [hname, ht]
        exact takeWhile_append_stop (by decide) b r
      rw [← hafter] at hne ⊢
      exact writtenNames_dollar hne
    · -- the default ends where the body does, and the body at its brace
      obtain ⟨u, hu⟩ := head_suffix b
      have hsuffix : (head b).2.2 ++ '}' :: r <:+ t := ⟨u, by rw [← List.append_assoc, hu, ht]⟩
      exact hpart hsuffix (writtenNames_subset_append_brace _ r (hdefault hn))
  · exact List.Subset.trans hrest (hpart ⟨b ++ ['}'], by simp [ht]⟩)

theorem names_bare_subset {t r : Text} {item : Item} (hopen : ∀ u, t ≠ '{' :: u)
    (hbare : bare? t = some (item, r)) (hrest : names (ofText r) ⊆ writtenNames r) :
    names (item :: ofText r) ⊆ writtenNames ('$' :: t) := by
  refine List.append_subset.mpr ⟨fun n hn => ?_, ?_⟩
  · obtain ⟨hname, hne⟩ := mem_itemNames_of_bare? hbare hn
    have hafter : nameAfter t = n := by
      rw [hname]
      unfold nameAfter
      split
      next u => exact absurd rfl (hopen u)
      next => rfl
    rw [← hafter] at hne ⊢
    exact writtenNames_dollar hne
  · exact List.Subset.trans hrest (writtenNames_subset_of_suffix
      ((suffix_of_bare? hbare).trans (List.suffix_cons '$' t)))

/-- Whatever a text refers to is written in it. -/
theorem names_subset_writtenNames (t : Text) : names (ofText t) ⊆ writtenNames t := by
  induction t using ofText.induct with
  | case1 =>
    rw [ofText]
    exact List.nil_subset _
  | case2 t hbody =>
    rw [ofText.eq_2]
    split
    next => exact List.nil_subset _
    next h => simp [hbody] at h
  | case3 t b r hbody ihdefault ihrest =>
    rw [ofText.eq_2]
    split
    next h => simp [hbody] at h
    next h =>
      rw [hbody] at h
      cases h
      exact names_reference_subset hbody ihdefault ihrest
  | case4 t hopen hbare ih =>
    rw [ofText.eq_3 _ hopen]
    split
    next =>
      exact List.append_subset.mpr
        ⟨List.nil_subset _, List.Subset.trans ih (writtenNames_subset_cons '$' t)⟩
    next h => simp [hbare] at h
  | case5 t hopen item r hbare ih =>
    rw [ofText.eq_3 _ hopen]
    split
    next h => simp [hbare] at h
    next h =>
      rw [hbare] at h
      cases h
      exact names_bare_subset (fun u hu => hopen u hu) hbare ih
  | case6 c t hopen hdollar ih =>
    rw [ofText.eq_4 c t hopen hdollar]
    refine List.append_subset.mpr ⟨List.nil_subset _, List.Subset.trans ih ?_⟩
    exact writtenNames_subset_of_suffix
      ((List.dropWhile_suffix (· != '$')).trans (List.suffix_cons c t))

end Template

namespace Scope

open Text

/-- The names that a text can lead to in one of two scopes: those written in it, and those written in
the draft that a scope finds for such a name. -/
inductive Reach (s s' : Scope) (t : Text) : Text → Prop
  | written {n} : n ∈ writtenNames t → Reach s s' t n
  | drafted {n draft m} : Reach s s' t n →
      s.definition n = .draft draft ∨ s'.definition n = .draft draft → m ∈ writtenNames draft →
      Reach s s' t m

variable {s s' : Scope} {t : Text}

/-- No smaller set has these names. -/
theorem Reach.mem {P : Text → Prop} {n : Text} (h : Reach s s' t n)
    (hwritten : ∀ n ∈ writtenNames t, P n)
    (hdrafted : ∀ n draft, P n → s.definition n = .draft draft ∨ s'.definition n = .draft draft →
      ∀ m ∈ writtenNames draft, P m) : P n := by
  induction h with
  | written hn => exact hwritten _ hn
  | drafted _ hd hm ih => exact hdrafted _ _ ih hd _ hm

/-- A text expands alike in two scopes that find the same for each name that it can lead to. -/
theorem expand_of_reach (owner : Option Text) (hlimit : s.limit = s'.limit)
    (h : ∀ n, Reach s s' t n → s.definition n = s'.definition n) :
    s.expand owner t = s'.expand owner t := by
  have halike : FindsAlike [] (Reach s s' t) s s' :=
    ⟨hlimit, fun n hn _ => h n hn, fun n draft hn _ hd m hm =>
      hn.drafted (Or.inl hd) (Template.names_subset_writtenNames draft hm)⟩
  unfold expand
  rw [hlimit]
  exact expandIn_alike halike (by simp)
    fun n hn => .written (Template.names_subset_writtenNames t hn)

/-- `B` has its text from the overlay here and from the ambient table there, where a draft of it counts
for nothing. `D` is drafted in both, and `C` and `E` are unknown. -/
theorem expand_of_reach_layers :
    let shared := [("A".toList, "x${B}${C:-${D}}".toList), ("D".toList, "/on/$E".toList)]
    let s : Scope := ⟨.ofList [("B".toList, .bool true)], .ofList [("B".toList, .int 7)], ∅,
      .ofList (("F".toList, "${A}".toList) :: shared), 4⟩
    let s' : Scope := ⟨∅, .ofList [("F".toList, .null)],
      .ofList [("B".toList, .text "true".toList)],
      .ofList (("B".toList, "$B".toList) :: shared), 4⟩
    let t := "$ ${A}-$B".toList
    s.limit = s'.limit ∧ (∀ n, Reach s s' t n → s.definition n = s'.definition n) ∧
      s.expand (some "K".toList) t = .ok "$ xtrueon-true".toList ∧
      s.expand (some "K".toList) t = s'.expand (some "K".toList) t := by
  intro shared s s' t
  let names := ["A".toList, "B".toList, "C".toList, "D".toList, "E".toList]
  have hsame : ∀ n ∈ names, s.definition n = s'.definition n := by
    simp only [names, List.forall_mem_cons]
    exact ⟨rfl, rfl, rfl, rfl, rfl, by simp⟩
  have hwritten : ∀ n ∈ writtenNames t, n ∈ names := by decide +kernel
  have hclosed : ∀ e ∈ s.drafts.entries ++ s'.drafts.entries, e.1 ∈ names →
      ∀ m ∈ writtenNames e.2, m ∈ names := by decide +kernel
  have hreach : ∀ n, Reach s s' t n → n ∈ names := by
    refine fun n hn => hn.mem hwritten fun n draft hmem hd m hm => ?_
    refine hclosed (n, draft) (List.mem_append.mpr ?_) hmem m hm
    exact hd.imp (fun hd => Table.mem_entries_iff.mpr (definition_eq_draft.mp hd).2)
      (fun hd => Table.mem_entries_iff.mpr (definition_eq_draft.mp hd).2)
  have halike : ∀ n, Reach s s' t n → s.definition n = s'.definition n :=
    fun n hn => hsame n (hreach n hn)
  exact ⟨rfl, halike, by decide +kernel, expand_of_reach (some "K".toList) rfl halike⟩

end Scope

end EnvFile
