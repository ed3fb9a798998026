import EnvFile.Proofs.Mentions
import EnvFile.Proofs.Openings
import EnvFile.Proofs.Results

namespace EnvFile

namespace Scope

/-- The chain that the expansion of a value starts with. An empty name owns nothing. -/
def start : Option Text → List Text
  | some (c :: t) => [c :: t]
  | _ => []

/-- The expansion of a text in a chain, which can take as many more names as the limit leaves. -/
def resolve (s : Scope) (chain : List Text) (t : Text) : Except Fault Text :=
  s.expandIn (s.limit - chain.length) chain t

variable {s : Scope} {chain : List Text}

theorem expand_eq_resolve (s : Scope) (owner : Option Text) (t : Text) :
    s.expand owner t = s.resolve (start owner) t := by
  match owner with
  | none => rfl
  | some [] => rfl
  | some (_ :: _) => rfl

/-- A look-up asks for an expansion only where the chain can take one more name. -/
theorem lookUp_eq_of_room {expand expand' : List Text → Text → Except Fault Text} {name : Text}
    (h : chain.length < s.limit →
      ∀ draft, expand (chain ++ [name]) draft = expand' (chain ++ [name]) draft) :
    s.lookUp expand chain name = s.lookUp expand' chain name := by
  unfold lookUp
  split
  next => rfl
  split
  next => rfl
  next hroom =>
    split
    next => rfl
    split
    next draft _ => rw [h (Nat.not_le.mp hroom) draft]
    next => rfl

/-- Expansion as the recursion that it is: nothing counts the places left in the chain, and yet a
draft is expanded in a longer one. -/
theorem resolve_eq (s : Scope) (chain : List Text) (t : Text) :
    s.resolve chain t = s.expandItems s.resolve chain (Template.ofText t) := by
  unfold resolve
  cases hroom : s.limit - chain.length with
  | zero =>
    -- the chain is full, so no draft is asked for
    refine expandItems_congr (P := fun _ => True) (fun name _ => lookUp_eq_of_room ?_) _ (by simp)
    intro hlt
    omega
  | succ room =>
    refine expandItems_congr (P := fun _ => True) (fun name _ => lookUp_eq_of_room ?_) _ (by simp)
    intro _ draft
    have hrest : s.limit - (chain ++ [name]).length = room := by
      rw [List.length_append, List.length_singleton]
      omega
    rw [hrest]

theorem resolve_nil (s : Scope) (chain : List Text) : s.resolve chain [] = .ok [] := by
  rw [resolve_eq, Template.ofText]
  rfl

theorem resolve_dropWhile (s : Scope) (chain : List Text) (t : Text) :
    s.resolve chain t =
      (s.resolve chain (t.dropWhile (· != '$'))).map (t.takeWhile (· != '$') ++ ·) := by
  cases t with
  | nil =>
    rw [List.dropWhile_nil, resolve_nil]
    rfl
  | cons c t =>
    by_cases hc : c = '$'
    · subst hc
      rw [List.takeWhile_cons_of_neg (by simp), List.dropWhile_cons_of_neg (by simp)]
      cases s.resolve chain ('$' :: t) <;> rfl
    · have hne : (c != '$') = true := by simpa using hc
      rw [List.takeWhile_cons, if_pos hne, List.dropWhile_cons, if_pos hne, resolve_eq s chain (c :: t),
        Template.ofText.eq_4 c t (fun _ he => absurd he hc) hc, expandItems, ← resolve_eq]
      cases s.resolve chain (t.dropWhile (· != '$')) <;> rfl

theorem resolve_literal (s : Scope) (chain : List Text) {c : Char} (hc : c ≠ '$') (t : Text) :
    s.resolve chain (c :: t) = (s.resolve chain t).map (c :: ·) := by
  have hne : (c != '$') = true := by simpa using hc
  rw [resolve_dropWhile s chain (c :: t), resolve_dropWhile s chain t,
    List.takeWhile_cons, if_pos hne, List.dropWhile_cons, if_pos hne]
  cases s.resolve chain (t.dropWhile (· != '$')) <;> rfl

theorem resolve_append (s : Scope) (chain : List Text) {l : Text} (hl : '$' ∉ l) (t : Text) :
    s.resolve chain (l ++ t) = (s.resolve chain t).map (l ++ ·) := by
  induction l with
  | nil => cases h : s.resolve chain t <;> simp [h, Except.map]
  | cons c l ih =>
    rw [List.mem_cons, not_or] at hl
    rw [List.cons_append, resolve_literal s chain (Ne.symm hl.1), ih hl.2]
    cases s.resolve chain t <;> rfl

variable {t rest placeholder detail : Text} {ref : Reference}

theorem resolve_of_nothing (h : Opened.ofText t = .nothing) :
    s.resolve chain ('$' :: t) = (s.resolve chain t).map ('$' :: ·) := by
  have hbegins := Template.begins_ofText t
  rw [h] at hbegins
  rw [resolve_eq, show Template.ofText ('$' :: t) = _ from hbegins, expandItems, ← resolve_eq]
  cases s.resolve chain t <;> rfl

theorem resolve_of_broken (h : Opened.ofText t = .broken placeholder detail) :
    s.resolve chain ('$' :: t) = .error (.badPlaceholder placeholder detail) := by
  have hbegins := Template.begins_ofText t
  rw [h] at hbegins
  obtain ⟨more, hbegins⟩ := hbegins
  rw [resolve_eq, hbegins]
  rfl

theorem resolve_of_reference (h : Opened.ofText t = .reference ref rest) :
    s.resolve chain ('$' :: t) = (do
      let u ← s.expandItem s.resolve chain ref.item
      (s.resolve chain rest).map (u ++ ·)) := by
  have hbegins := Template.begins_ofText t
  rw [h] at hbegins
  rw [resolve_eq, show Template.ofText ('$' :: t) = _ from hbegins, expandItems, resolve_eq s chain rest]
  refine congrArg _ (funext fun u => ?_)
  cases s.expandItems s.resolve chain (Template.ofText rest) <;> rfl

end Scope

end EnvFile
