import Mathlib.Data.List.Induction
import Mathlib.Data.List.Nodup
import EnvFile.Proofs.Results
import EnvFile.Proofs.Runs

namespace EnvFile

section

variable {α : Type} [DecidableEq α]

/-- Names in order of first mention. -/
def firstMentions (names : List α) : List α :=
  names.foldl (fun ns n => if n ∈ ns then ns else ns ++ [n]) []

theorem firstMentions_concat (names : List α) (name : α) :
    firstMentions (names ++ [name]) =
      if name ∈ firstMentions names then firstMentions names else firstMentions names ++ [name] := by
  unfold firstMentions
  rw [List.foldl_append, List.foldl_cons, List.foldl_nil]

theorem mem_firstMentions {names : List α} {n : α} : n ∈ firstMentions names ↔ n ∈ names := by
  induction names using List.reverseRecOn with
  | nil => exact Iff.rfl
  | append_singleton names name ih =>
    rw [firstMentions_concat, List.mem_append, List.mem_singleton]
    split
    next hold =>
      rw [ih]
      constructor
      · exact Or.inl
      · rintro (hn | rfl)
        · exact hn
        · exact ih.mp hold
    next => rw [List.mem_append, List.mem_singleton, ih]

theorem pairwise_firstMentions [BEq α] [LawfulBEq α] (names : List α) :
    (firstMentions names).Pairwise fun a b => names.idxOf a < names.idxOf b := by
  -- a name that is appended stands behind all that were mentioned, whose places stay as they are
  induction names using List.reverseRecOn with
  | nil => exact List.Pairwise.nil
  | append_singleton names name ih =>
    have hplace {n : α} (hn : n ∈ firstMentions names) :
        (names ++ [name]).idxOf n = names.idxOf n :=
      List.idxOf_append_of_mem (mem_firstMentions.mp hn)
    have hold : (firstMentions names).Pairwise
        fun a b => (names ++ [name]).idxOf a < (names ++ [name]).idxOf b := by
      refine ih.imp_of_mem fun ha hb hlt => ?_
      rwa [hplace ha, hplace hb]
    rw [firstMentions_concat]
    split
    next => exact hold
    next hnew =>
      refine List.pairwise_append.mpr ⟨hold, List.pairwise_singleton _ _, fun a ha b hb => ?_⟩
      obtain rfl := List.mem_singleton.mp hb
      have hlast : (names ++ [b]).idxOf b = names.length := by
        rw [List.idxOf_append_of_notMem (fun hb => hnew (mem_firstMentions.mpr hb))]
        simp
      rw [hplace ha, hlast]
      exact List.idxOf_lt_length_of_mem (mem_firstMentions.mp ha)

theorem nodup_firstMentions (names : List α) : (firstMentions names).Nodup :=
  (pairwise_firstMentions names).imp fun hlt he => absurd (congrArg names.idxOf he) (Nat.ne_of_lt hlt)

theorem firstMentions_of_nodup {names : List α} (h : names.Nodup) : firstMentions names = names := by
  induction names using List.reverseRecOn with
  | nil => rfl
  | append_singleton names name ih =>
    have hnew : name ∉ names := fun hmem =>
      (List.disjoint_of_nodup_append h) hmem (List.mem_singleton_self name)
    rw [firstMentions_concat, ih (List.nodup_append.mp h).1, if_neg hnew]

theorem inOrder_eq (base : α) (names : List α) :
    inOrder base names =
      if base ∈ names then base :: (firstMentions names).filter (· ≠ base)
      else firstMentions names := by
  have hunfold : inOrder base names =
      if base ∈ firstMentions names then base :: (firstMentions names).filter (· ≠ base)
      else firstMentions names := rfl
  simp only [hunfold, mem_firstMentions]

theorem mem_inOrder {base : α} {names : List α} {n : α} : n ∈ inOrder base names ↔ n ∈ names := by
  rw [inOrder_eq]
  split
  next hbase =>
    rw [List.mem_cons, List.mem_filter, mem_firstMentions, decide_eq_true_iff]
    constructor
    · rintro (rfl | ⟨hn, _⟩)
      · exact hbase
      · exact hn
    · intro hn
      by_cases he : n = base
      · exact Or.inl he
      · exact Or.inr ⟨hn, he⟩
  next => exact mem_firstMentions

theorem head?_inOrder {base : α} {names : List α} (h : base ∈ names) :
    (inOrder base names).head? = some base := by
  rw [inOrder_eq, if_pos h, List.head?_cons]

theorem filter_inOrder (base : α) (names : List α) :
    (inOrder base names).filter (· ≠ base) = (firstMentions names).filter (· ≠ base) := by
  rw [inOrder_eq]
  split
  next => rw [List.filter_cons_of_neg (by simp), List.filter_filter, funext fun n => Bool.and_self _]
  next => rfl

theorem nodup_inOrder (base : α) (names : List α) : (inOrder base names).Nodup := by
  have hdistinct := nodup_firstMentions names
  rw [inOrder_eq]
  split
  next =>
    have hbase : ∀ ns : List α, base ∉ ns.filter (· ≠ base) := by simp
    exact List.nodup_cons.mpr ⟨hbase _, hdistinct.filter _⟩
  next => exact hdistinct

/-- Names that are in order stay so when they are put in order once more. -/
theorem inOrder_inOrder (base : α) (names : List α) :
    inOrder base (inOrder base names) = inOrder base names := by
  rw [inOrder_eq base (inOrder base names), firstMentions_of_nodup (nodup_inOrder base names)]
  split
  next hmem => rw [filter_inOrder, inOrder_eq base names, if_pos (mem_inOrder.mp hmem)]
  next => rfl

end

theorem fileNames_eq_ok {given names : List Text} :
    fileNames given = .ok names ↔ inOrder baseName given = names ∧ names ≠ [] := by
  unfold fileNames
  cases inOrder baseName given with
  | nil =>
    constructor
    · intro h
      cases h
    · rintro ⟨rfl, h⟩
      exact absurd rfl h
  | cons name others =>
    constructor
    · intro h
      cases h
      exact ⟨rfl, List.cons_ne_nil name others⟩
    · rintro ⟨rfl, _⟩
      rfl

theorem fileNames_of_ne_nil {names : List Text} (h : names ≠ []) :
    fileNames names = .ok (inOrder baseName names) := by
  refine fileNames_eq_ok.mpr ⟨rfl, fun hnone => ?_⟩
  obtain ⟨name, hname⟩ := List.exists_mem_of_ne_nil names h
  have hmem : name ∈ inOrder baseName names := mem_inOrder.mpr hname
  rw [hnone] at hmem
  cases hmem

/-- The file names of a registry are ones that it may be given. -/
theorem fileNames_of_fileNames {given names : List Text} (h : fileNames given = .ok names) :
    fileNames names = .ok names := by
  obtain ⟨hgiven, hne⟩ := fileNames_eq_ok.mp h
  have hsame : inOrder baseName names = names := by
    rw [← hgiven]
    exact inOrder_inOrder baseName given
  exact fileNames_eq_ok.mpr ⟨hsame, hne⟩

namespace Registry

theorem perform_rename_of_ne_nil (r : Registry) (files : FileTree) (writesAllowed : Bool)
    {names : List Text} (h : names ≠ []) : (Operation.rename names).perform r files writesAllowed =
      (.ok .null, { r with names := inOrder baseName names }, files, []) := by
  simp only [Operation.perform, rename, fileNames_of_ne_nil h, Except.map]

/-- A registry that is given names takes each of them once, the base name in front and the others in
order of first mention. Given these, it takes them as they are; given none, it keeps those that it
has. Nothing else of it changes. -/
theorem rename_in_order (r : Registry) (files : FileTree) (writesAllowed : Bool)
    {names : List Text} (h : names ≠ []) :
    let ns := inOrder baseName names
    let renamed := { r with names := ns }
    (Operation.rename names).perform r files writesAllowed = (.ok .null, renamed, files, []) ∧
    ns.Nodup ∧ (∀ n, n ∈ ns ↔ n ∈ names) ∧ (baseName ∈ names → ns.head? = some baseName) ∧
    (ns.filter (· ≠ baseName)).Pairwise (fun a b => names.idxOf a < names.idxOf b) ∧
    (Operation.rename ns).perform renamed files writesAllowed = (.ok .null, renamed, files, []) ∧
    (Operation.rename []).perform r files writesAllowed = (.error .noNames, r, files, []) := by
  intro ns renamed
  have hothers : (ns.filter (· ≠ baseName)).Pairwise fun a b => names.idxOf a < names.idxOf b := by
    rw [filter_inOrder]
    exact (pairwise_firstMentions names).filter _
  have hsame : inOrder baseName ns = ns := inOrder_inOrder baseName names
  have hne : ns ≠ [] := (fileNames_eq_ok.mp (fileNames_of_ne_nil h)).2
  have hagain := renamed.perform_rename_of_ne_nil files writesAllowed hne
  rw [hsame] at hagain
  exact ⟨r.perform_rename_of_ne_nil files writesAllowed h, nodup_inOrder baseName names,
    fun _ => mem_inOrder, head?_inOrder, hothers, hagain, rfl⟩

/-- The base name is given twice and in the middle. -/
theorem rename_in_order_mixed :
    let r := fresh ["/".toList] [baseName] false true ∅ (.plain ∅)
    let files := FileTree.bare ⟨['/'], []⟩
    let names := ["b".toList, baseName, "c".toList, "b".toList, baseName, "a".toList]
    let ns := inOrder baseName names
    let renamed := { r with names := ns }
    names ≠ [] ∧ baseName ∈ names ∧ ns = [baseName, "b".toList, "c".toList, "a".toList] ∧
    (Operation.rename names).perform r files true = (.ok .null, renamed, files, []) ∧
    ns.Nodup ∧ (∀ n, n ∈ ns ↔ n ∈ names) ∧ (baseName ∈ names → ns.head? = some baseName) ∧
    (ns.filter (· ≠ baseName)).Pairwise (fun a b => names.idxOf a < names.idxOf b) ∧
    (Operation.rename ns).perform renamed files true = (.ok .null, renamed, files, []) ∧
    (Operation.rename []).perform r files true = (.error .noNames, r, files, []) := by
  intro r files names ns renamed
  have hne : names ≠ [] := List.cons_ne_nil _ _
  exact ⟨hne, by decide, by decide, rename_in_order r files true hne⟩

end Registry

end EnvFile
