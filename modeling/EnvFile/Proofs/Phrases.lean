import EnvFile.Proofs.Filling
import EnvFile.Proofs.Resolving

namespace EnvFile

/-- A name that a placeholder may have. -/
structure Name where
  text : Text
  ne_nil : text ≠ []
  isName : ∀ c ∈ text, Text.isNameChar c

/-- Text that stands for itself: no placeholder begins in it, and none that it is inside of ends. -/
structure Literal (inside : Bool) where
  text : Text
  no_dollar : '$' ∉ text
  no_brace : inside → '}' ∉ text

/-- A template as it is written, a row of literals and placeholders. `inside` tells whether it is the
default of a placeholder. -/
inductive Phrase : (inside : Bool) → Type
  | nil {inside : Bool} : Phrase inside
  | literal {inside : Bool} (t : Literal inside) (rest : Phrase inside) : Phrase inside
  | value {inside : Bool} (name : Name) (rest : Phrase inside) : Phrase inside
  | withDefault {inside : Bool} (name : Name) (enough : Enough) (default : Phrase true)
      (rest : Phrase inside) : Phrase inside
  | required {inside : Bool} (name : Name) (enough : Enough) (message : Literal true)
      (rest : Phrase inside) : Phrase inside

/-- How an operator is written. -/
def Operator.mark : Operator → Text
  | plain => []
  | orDefault .nonempty => [':', '-']
  | orDefault .defined => ['-']
  | orFail .nonempty => ['?']
  | orFail .defined => [':', '?']

/-- The text of a name, which may not stand in the chain and for which the chain must have room: that
of its value in the overlay, the cache or the ambient table, or else that of its draft. -/
def Scope.seek (s : Scope) (chain : List Text) (name : Text) : Except Fault (Option Text) :=
  if name ∈ chain then .error (.recursive (chain ++ [name]))
  else if s.limit ≤ chain.length then .error (.tooDeep (chain ++ [name]) s.limit)
  else match s.overlay.get? name, s.cache.get? name, s.ambient.get? name, s.drafts.get? name with
    | some v, _, _, _ | none, some v, _, _ | none, none, some v, _ => v.splice.map some
    | none, none, none, some draft => do
      let t ← s.resolve (chain ++ [name]) draft
      let v ← Value.ofText t
      v.splice.map some
    | none, none, none, none => .ok none

namespace Phrase

variable {inside : Bool}

def placeholder (name : Text) (operator : Operator) (argument : Text) : Text :=
  '$' :: '{' :: (name ++ operator.mark ++ argument) ++ ['}']

/-- The phrase as a text. -/
def print {inside : Bool} : Phrase inside → Text
  | nil => []
  | literal t rest => t.text ++ rest.print
  | value name rest => placeholder name.text .plain [] ++ rest.print
  | withDefault name enough default rest =>
    placeholder name.text (.orDefault enough) default.print ++ rest.print
  | required name enough message rest =>
    placeholder name.text (.orFail enough) message.text ++ rest.print

/-- The text that a phrase comes to. What comes first decides where several parts of it fail. -/
def evaluate (s : Scope) (chain : List Text) {inside : Bool} : Phrase inside → Except Fault Text
  | nil => .ok []
  | literal t rest => do
    let u ← rest.evaluate s chain
    .ok (t.text ++ u)
  | value name rest => do
    let found ← s.seek chain name.text
    let t ← Scope.screen chain name.text (found.getD [])
    let u ← rest.evaluate s chain
    .ok (t ++ u)
  | withDefault name enough default rest => do
    let found ← s.seek chain name.text
    let t ← (found.filter enough.met).elim (default.evaluate s chain) .ok
    let t ← Scope.screen chain name.text t
    let u ← rest.evaluate s chain
    .ok (t ++ u)
  | required name enough message rest => do
    let found ← s.seek chain name.text
    let t ← (found.filter enough.met).elim (.error (.requiring name.text message.text)) .ok
    let t ← Scope.screen chain name.text t
    let u ← rest.evaluate s chain
    .ok (t ++ u)

/-- What the five placeholders come to by themselves: where the variable is undefined, where its text is
empty, and where it is not. -/
theorem evaluate_placeholders (s : Scope) (chain : List Text) (name : Name) (default : Phrase true)
    (message : Literal true) :
    let value := (value name nil : Phrase inside).evaluate s chain
    let withDefault := fun enough =>
      (withDefault name enough default nil : Phrase inside).evaluate s chain
    let required := fun enough => (required name enough message nil : Phrase inside).evaluate s chain
    let fallback := default.evaluate s chain >>= Scope.screen chain name.text
    let failure := .error (.requiring name.text message.text)
    (s.seek chain name.text = .ok none →
      value = .ok [] ∧ (∀ enough, withDefault enough = fallback) ∧
      ∀ enough, required enough = failure) ∧
    (s.seek chain name.text = .ok (some []) →
      value = .ok [] ∧ withDefault .defined = .ok [] ∧ withDefault .nonempty = fallback ∧
      required .defined = .ok [] ∧ required .nonempty = failure) ∧
    ∀ t, t ≠ [] → s.seek chain name.text = .ok (some t) →
      value = Scope.screen chain name.text t ∧
      (∀ enough, withDefault enough = Scope.screen chain name.text t) ∧
      ∀ enough, required enough = Scope.screen chain name.text t := by
  intro value withDefault required fallback failure
  have halone : ∀ x : Except Fault Text, (do
      let t ← x
      let u ← (nil : Phrase inside).evaluate s chain
      .ok (t ++ u)) = x := by
    intro x
    cases x <;> simp [evaluate, bind, Except.bind]
  have hvalue : ∀ found, s.seek chain name.text = .ok found →
      value = Scope.screen chain name.text (found.getD []) := by
    intro found h
    simp only [value, evaluate, h]
    exact halone _
  have hdefault : ∀ found enough, s.seek chain name.text = .ok found → withDefault enough =
      (found.filter enough.met).elim (default.evaluate s chain) .ok >>= Scope.screen chain name.text := by
    intro found enough h
    simp only [withDefault, evaluate, h]
    exact congrArg (_ >>= ·) (funext fun _ => halone _)
  have hrequired : ∀ found enough, s.seek chain name.text = .ok found → required enough =
      (found.filter enough.met).elim failure .ok >>= Scope.screen chain name.text := by
    intro found enough h
    simp only [required, evaluate, h]
    exact congrArg (_ >>= ·) (funext fun _ => halone _)
  refine ⟨fun h => ⟨hvalue _ h, fun enough => hdefault _ enough h, fun enough => hrequired _ enough h⟩,
    fun h => ⟨hvalue _ h, hdefault _ .defined h, hdefault _ .nonempty h, hrequired _ .defined h,
      hrequired _ .nonempty h⟩, fun t ht h => ?_⟩
  have hmet : ∀ enough : Enough, (some t).filter enough.met = some t := by
    intro enough
    cases enough <;> simp [Option.filter, Enough.met, ht]
  refine ⟨hvalue _ h, fun enough => ?_, fun enough => ?_⟩
  · rw [hdefault _ enough h, hmet]
    rfl
  · rw [hrequired _ enough h, hmet]
    rfl

end Phrase

namespace Template

/-- The closing brace is looked for past such a text as if it were not there. -/
def Balanced (u : Text) : Prop :=
  ∀ depth t, body? depth (u ++ t) = (body? depth t).map fun (b, r) => (u ++ b, r)

theorem balanced_nil : Balanced [] := by
  intro depth t
  cases h : body? depth t <;> simp [h]

theorem Balanced.append {u v : Text} (hu : Balanced u) (hv : Balanced v) : Balanced (u ++ v) := by
  intro depth t
  rw [List.append_assoc, hu, hv]
  cases body? depth t <;> simp

theorem body?_cons {depth : Nat} {c : Char} (hd : c ≠ '$') (hb : c ≠ '}') (t : Text) :
    body? depth (c :: t) = (body? depth t).map fun (b, r) => (c :: b, r) :=
  body?.eq_4 depth c t (fun _ he => absurd he hd) (fun _ he => hb he) (fun _ _ he => hb he)

theorem balanced_of_not_mem {u : Text} (hd : '$' ∉ u) (hb : '}' ∉ u) : Balanced u := by
  induction u with
  | nil => exact balanced_nil
  | cons c u ih =>
    rw [List.mem_cons, not_or] at hd hb
    intro depth t
    rw [List.cons_append, body?_cons (Ne.symm hd.1) (Ne.symm hb.1), ih hd.2 hb.2]
    cases body? depth t <;> rfl

theorem Balanced.braces {u : Text} (hu : Balanced u) : Balanced ('$' :: '{' :: u ++ ['}']) := by
  intro depth t
  have hclose : '$' :: '{' :: u ++ ['}'] ++ t = '$' :: '{' :: (u ++ '}' :: t) := by simp
  rw [hclose, body?.eq_1, hu, body?.eq_3]
  cases body? depth t <;> simp

theorem Balanced.body? {u : Text} (hu : Balanced u) (rest : Text) :
    body? 0 (u ++ '}' :: rest) = some (u, rest) := by
  rw [hu, body?.eq_2]
  simp

end Template

namespace Operator

variable {operator : Operator}

theorem take_mark {argument : Text} (h : operator = plain → argument = []) :
    take (operator.mark ++ argument) = (operator, argument) := by
  match operator, h with
  | plain, h =>
    rw [h rfl]
    rfl
  | orDefault .nonempty, _ => rfl
  | orDefault .defined, _ => rfl
  | orFail .nonempty, _ => rfl
  | orFail .defined, _ => rfl

theorem takeWhile_mark {argument : Text} (h : operator = plain → argument = []) :
    (operator.mark ++ argument).takeWhile Text.isNameChar = [] := by
  match operator, h with
  | plain, h =>
    rw [h rfl]
    rfl
  | orDefault .nonempty, _ => rfl
  | orDefault .defined, _ => rfl
  | orFail .nonempty, _ => rfl
  | orFail .defined, _ => rfl

theorem balanced_mark (operator : Operator) : Template.Balanced operator.mark := by
  refine Template.balanced_of_not_mem ?_ ?_
  · rcases operator with _ | ⟨_ | _⟩ | ⟨_ | _⟩ <;> decide
  · rcases operator with _ | ⟨_ | _⟩ | ⟨_ | _⟩ <;> decide

end Operator

namespace Name

theorem balanced (name : Name) : Template.Balanced name.text := by
  refine Template.balanced_of_not_mem (fun h => ?_) (fun h => ?_)
  · exact absurd (name.isName _ h) (by decide)
  · exact absurd (name.isName _ h) (by decide)

theorem head_body (name : Name) {operator : Operator} {argument : Text}
    (h : operator = .plain → argument = []) :
    Template.head (name.text ++ operator.mark ++ argument) = (name.text, operator, argument) := by
  have hname : ∀ c ∈ name.text, Text.isNameChar c = true := name.isName
  have hstop := Operator.takeWhile_mark h
  have hrest := List.takeWhile_append_dropWhile (p := Text.isNameChar) (l := operator.mark ++ argument)
  rw [hstop, List.nil_append] at hrest
  unfold Template.head
  rw [List.append_assoc, List.takeWhile_append_of_pos hname, List.dropWhile_append_of_pos hname,
    hstop, hrest, Operator.take_mark h, List.append_nil]

end Name

theorem Literal.balanced (t : Literal true) : Template.Balanced t.text :=
  Template.balanced_of_not_mem t.no_dollar (t.no_brace rfl)

namespace Phrase

variable {s : Scope} {chain : List Text} {inside : Bool}

theorem ofText_placeholder (name : Name) {operator : Operator} {argument : Text}
    (h : operator = .plain → argument = []) (hb : Template.Balanced argument) (rest : Text) :
    Opened.ofText ('{' :: (name.text ++ operator.mark ++ argument) ++ '}' :: rest) =
      .reference ⟨name.text, operator, argument⟩ rest := by
  have hbody := ((name.balanced.append operator.balanced_mark).append hb).body? rest
  have hhead := name.head_body h
  rw [List.cons_append]
  unfold Opened.ofText
  simp only [hbody]
  unfold Opened.ofBody
  simp only [hhead]
  split
  next hnil => exact absurd (Prod.mk.inj hnil).1 name.ne_nil
  next hplain =>
    obtain ⟨_, hplain⟩ := Prod.mk.inj hplain
    obtain ⟨hplain, hcons⟩ := Prod.mk.inj hplain
    exact absurd (h hplain) (by simp [hcons])
  next hread =>
    cases hread
    rfl

theorem balanced_placeholder (name : Name) (operator : Operator) {argument : Text}
    (hb : Template.Balanced argument) : Template.Balanced (placeholder name.text operator argument) :=
  ((name.balanced.append operator.balanced_mark).append hb).braces

theorem balanced_print : (p : Phrase true) → Template.Balanced p.print
  | nil => Template.balanced_nil
  | literal t rest => t.balanced.append rest.balanced_print
  | value name rest =>
    (balanced_placeholder name .plain Template.balanced_nil).append rest.balanced_print
  | withDefault name enough default rest =>
    (balanced_placeholder name (.orDefault enough) default.balanced_print).append rest.balanced_print
  | required name enough message rest =>
    (balanced_placeholder name (.orFail enough) message.balanced).append rest.balanced_print

theorem seek_eq_lookUp (s : Scope) (chain : List Text) (name : Text) :
    s.seek chain name = s.lookUp s.resolve chain name := by
  unfold Scope.seek Scope.lookUp Scope.value?
  cases s.overlay.get? name with
  | some v => rfl
  | none =>
    cases s.cache.get? name with
    | some v => rfl
    | none =>
      cases s.ambient.get? name with
      | some v => rfl
      | none => cases s.drafts.get? name <;> rfl

theorem bind_map_append (x y z : Except Fault Text) :
    (x >>= fun t => (y >>= fun u => z.map (u ++ ·)).map (t ++ ·)) =
      (x >>= fun t => y >>= fun u => .ok (t ++ u)) >>= fun v => z.map (v ++ ·) := by
  cases x with
  | error fault => rfl
  | ok t =>
    cases y with
    | error fault => rfl
    | ok u => cases z <;> simp [bind, Except.bind, Except.map]

theorem resolve_placeholder (name : Name) (operator : Operator) {argument more rest : Text}
    {y : Except Fault Text} (h : operator = .plain → argument = []) (hb : Template.Balanced argument)
    (hmore : s.resolve chain (more ++ rest) = y >>= fun u => (s.resolve chain rest).map (u ++ ·)) :
    s.resolve chain (placeholder name.text operator argument ++ more ++ rest) =
      (s.expandItem s.resolve chain (Reference.item ⟨name.text, operator, argument⟩) >>= fun t =>
        y >>= fun u => .ok (t ++ u)) >>= fun v => (s.resolve chain rest).map (v ++ ·) := by
  have hprint : placeholder name.text operator argument ++ more ++ rest =
      '$' :: ('{' :: (name.text ++ operator.mark ++ argument) ++ '}' :: (more ++ rest)) := by
    simp [placeholder]
  rw [hprint, Scope.resolve_of_reference (ofText_placeholder name h hb (more ++ rest)), hmore]
  exact bind_map_append ..

theorem resolve_of_append_nil {t : Text} {y : Except Fault Text}
    (h : s.resolve chain (t ++ []) = y >>= fun u => (s.resolve chain []).map (u ++ ·)) :
    s.resolve chain t = y := by
  rw [List.append_nil, Scope.resolve_nil] at h
  rw [h]
  cases y <;> simp [bind, Except.bind, Except.map]

/-- A printed phrase comes to the text that it is evaluated to, and what follows it is read on its
own. -/
theorem resolve_print (s : Scope) (chain : List Text) : {inside : Bool} → (p : Phrase inside) →
    (rest : Text) → s.resolve chain (p.print ++ rest) =
      p.evaluate s chain >>= fun t => (s.resolve chain rest).map (t ++ ·)
  | _, nil, rest => by
    cases h : s.resolve chain rest <;> simp [print, evaluate, h, bind, Except.bind, Except.map]
  | _, literal t more, rest => by
    rw [print, List.append_assoc, Scope.resolve_append s chain t.no_dollar,
      resolve_print s chain more rest]
    exact bind_map_append (.ok t.text) _ _
  | _, value name more, rest => by
    have hitem : s.expandItem s.resolve chain (Reference.item ⟨name.text, .plain, []⟩) =
        s.seek chain name.text >>= fun found => Scope.screen chain name.text (found.getD []) := by
      rw [seek_eq_lookUp]
      rfl
    rw [print, resolve_placeholder name .plain (fun _ => rfl) Template.balanced_nil
      (resolve_print s chain more rest), hitem, evaluate]
    simp only [bind_assoc]
  | _, withDefault name enough default more, rest => by
    -- the argument is all of the text that is expanded, so nothing follows the default there
    have hdefault := resolve_of_append_nil (resolve_print s chain default [])
    have hitem : s.expandItem s.resolve chain
          (Reference.item ⟨name.text, .orDefault enough, default.print⟩) =
        s.seek chain name.text >>= fun found =>
          (found.filter enough.met).elim (default.evaluate s chain) .ok >>=
            Scope.screen chain name.text := by
      rw [seek_eq_lookUp, Reference.item, Scope.expandItem_withDefault, ← Scope.resolve_eq, hdefault]
      refine congrArg _ (funext fun found => ?_)
      cases found.filter enough.met <;> rfl
    rw [print, resolve_placeholder name (.orDefault enough) (by simp) default.balanced_print
      (resolve_print s chain more rest), hitem, evaluate]
    simp only [bind_assoc]
  | _, required name enough message more, rest => by
    have hitem : s.expandItem s.resolve chain
          (Reference.item ⟨name.text, .orFail enough, message.text⟩) =
        s.seek chain name.text >>= fun found =>
          (found.filter enough.met).elim (.error (.requiring name.text message.text)) .ok >>=
            Scope.screen chain name.text := by
      rw [seek_eq_lookUp, Reference.item, Scope.expandItem_required]
      refine congrArg _ (funext fun found => ?_)
      cases found.filter enough.met <;> rfl
    rw [print, resolve_placeholder name (.orFail enough) (by simp) message.balanced
      (resolve_print s chain more rest), hitem, evaluate]
    simp only [bind_assoc]

/-- A template is read from its text as it was written: expanding the text is evaluating the
template, failures included. -/
theorem expand_print (s : Scope) (owner : Option Text) (p : Phrase false) :
    s.expand owner p.print = p.evaluate s (Scope.start owner) := by
  rw [Scope.expand_eq_resolve]
  exact resolve_of_append_nil (resolve_print s (Scope.start owner) p [])

example : (withDefault ⟨"A".toList, by decide, List.all_eq_true.mp rfl⟩ .nonempty
    (value ⟨"B".toList, by decide, List.all_eq_true.mp rfl⟩ nil) nil : Phrase false).print =
      "${A:-${B}}".toList := by
  decide

end Phrase

end EnvFile
