import EnvFile.Proofs.Filling
import EnvFile.Proofs.Resolving
import EnvFile.Proofs.Tables

namespace EnvFile

/-- What the expansion of a text asks for on its way: that a text is expanded, a reference replaced,
or the text of a name looked up. -/
inductive Call
  | expand (t : Text)
  | replace (ref : Reference)
  | lookUp (name : Text)
deriving DecidableEq, Repr

/-- A call with the chain of names that is passed down to it. -/
structure Visit where
  chain : List Text
  call : Call
deriving DecidableEq, Repr

namespace Reference

/-- What becomes of a reference: it takes a text, or its argument serves, or it fails. -/
inductive Choice
  | taken (t : Text)
  | argument
  | missing
deriving DecidableEq, Repr

/-- The choice that hangs on the text found for the name, if there is any. -/
def choose (ref : Reference) (found : Option Text) : Choice :=
  match ref.operator with
  | .plain => .taken (found.getD [])
  | .orDefault enough => (found.filter enough.met).elim .argument .taken
  | .orFail enough => (found.filter enough.met).elim .missing .taken

end Reference

namespace Scope

/-- A finite run of a call in a chain, with its answer and all the calls made on the way. Only a
look-up can answer that there is no text. No count bounds the runs: each rule is what expansion,
replacement and look-up do by themselves. -/
inductive Runs (s : Scope) : List Text → Call → Except Fault (Option Text) → List Visit → Prop
  | nil {chain} : Runs s chain (.expand []) (.ok (some [])) []
  | literal {chain c t r visits} : c ≠ '$' → Runs s chain (.expand t) r visits →
      Runs s chain (.expand (c :: t)) (r.map (·.map (c :: ·))) visits
  | nothing {chain t r visits} : Opened.ofText t = .nothing → Runs s chain (.expand t) r visits →
      Runs s chain (.expand ('$' :: t)) (r.map (·.map ('$' :: ·))) visits
  | broken {chain t placeholder detail} : Opened.ofText t = .broken placeholder detail →
      Runs s chain (.expand ('$' :: t)) (.error (.badPlaceholder placeholder detail)) []
  | failed {chain t ref rest fault visits} : Opened.ofText t = .reference ref rest →
      Runs s chain (.replace ref) (.error fault) visits →
      Runs s chain (.expand ('$' :: t)) (.error fault) (⟨chain, .replace ref⟩ :: visits)
  | replaced {chain t ref rest u r visits more} : Opened.ofText t = .reference ref rest →
      Runs s chain (.replace ref) (.ok (some u)) visits → Runs s chain (.expand rest) r more →
      Runs s chain (.expand ('$' :: t)) (r.map (·.map (u ++ ·)))
        (⟨chain, .replace ref⟩ :: visits ++ more)
  | recursive {chain ref} : ref.name ∈ chain →
      Runs s chain (.replace ref) (.error (.recursive (chain ++ [ref.name]))) []
  | tooDeep {chain ref} : ref.name ∉ chain → s.limit ≤ chain.length →
      Runs s chain (.replace ref) (.error (.tooDeep (chain ++ [ref.name]) s.limit)) []
  | unfound {chain ref fault visits} : ref.name ∉ chain → chain.length < s.limit →
      Runs s chain (.lookUp ref.name) (.error fault) visits →
      Runs s chain (.replace ref) (.error fault) (⟨chain, .lookUp ref.name⟩ :: visits)
  | taken {chain ref found t visits} : ref.name ∉ chain → chain.length < s.limit →
      Runs s chain (.lookUp ref.name) (.ok found) visits → ref.choose found = .taken t →
      Runs s chain (.replace ref) ((screen chain ref.name t).map some)
        (⟨chain, .lookUp ref.name⟩ :: visits)
  | missing {chain ref found visits} : ref.name ∉ chain → chain.length < s.limit →
      Runs s chain (.lookUp ref.name) (.ok found) visits → ref.choose found = .missing →
      Runs s chain (.replace ref) (.error (.requiring ref.name ref.argument))
        (⟨chain, .lookUp ref.name⟩ :: visits)
  | argument {chain ref found r visits more} : ref.name ∉ chain → chain.length < s.limit →
      Runs s chain (.lookUp ref.name) (.ok found) visits → ref.choose found = .argument →
      Runs s chain (.expand ref.argument) r more →
      Runs s chain (.replace ref) (r >>= fun t => (screen chain ref.name (t.getD [])).map some)
        (⟨chain, .lookUp ref.name⟩ :: visits ++ ⟨chain, .expand ref.argument⟩ :: more)
  | known {chain name v} : s.value? name = some v →
      Runs s chain (.lookUp name) (v.splice.map some) []
  | drafted {chain name draft r visits} : s.value? name = none → s.drafts.get? name = some draft →
      Runs s (chain ++ [name]) (.expand draft) r visits →
      Runs s chain (.lookUp name)
        (r >>= fun t => Value.ofText (t.getD []) >>= fun v => v.splice.map some)
        (⟨chain ++ [name], .expand draft⟩ :: visits)
  | absent {chain name} : s.value? name = none → s.drafts.get? name = none →
      Runs s chain (.lookUp name) (.ok none) []

/-- The text of a name that the chain can take. -/
def found (s : Scope) (chain : List Text) (name : Text) : Except Fault (Option Text) :=
  match s.value? name with
  | some v => v.splice.map some
  | none =>
    match s.drafts.get? name with
    | some draft => do
      let v ← Value.ofText (← s.resolve (chain ++ [name]) draft)
      v.splice.map some
    | none => .ok none

/-- What a call answers in a chain. -/
def answer (s : Scope) (chain : List Text) : Call → Except Fault (Option Text)
  | .expand t => (s.resolve chain t).map some
  | .replace ref => (s.expandItem s.resolve chain ref.item).map some
  | .lookUp name => s.found chain name

variable {s : Scope} {chain : List Text}

theorem lookUp_of_room {name : Text} (hfree : name ∉ chain) (hroom : chain.length < s.limit) :
    s.lookUp s.resolve chain name = s.found chain name := by
  unfold lookUp found
  exact (if_neg hfree).trans (if_neg (Nat.not_le.mpr hroom))

theorem expandItem_item (s : Scope) (chain : List Text) (ref : Reference) :
    s.expandItem s.resolve chain ref.item = (do
      let found ← s.lookUp s.resolve chain ref.name
      match ref.choose found with
      | .taken t => screen chain ref.name t
      | .argument => do screen chain ref.name (← s.resolve chain ref.argument)
      | .missing => .error (.requiring ref.name ref.argument)) := by
  obtain ⟨name, operator, argument⟩ := ref
  cases operator with
  | plain => rfl
  | orDefault enough =>
    rw [Reference.item, expandItem_withDefault, ← resolve_eq]
    refine congrArg _ (funext fun found => ?_)
    simp only [Reference.choose]
    cases found.filter enough.met <;> rfl
  | orFail enough =>
    rw [Reference.item, expandItem_required]
    refine congrArg _ (funext fun found => ?_)
    simp only [Reference.choose]
    cases found.filter enough.met <;> rfl

theorem answer_nil : s.answer chain (.expand []) = .ok (some []) := by
  simp only [answer, resolve_nil]
  rfl

theorem answer_literal {c : Char} (hc : c ≠ '$') (t : Text) :
    s.answer chain (.expand (c :: t)) = (s.answer chain (.expand t)).map (·.map (c :: ·)) := by
  simp only [answer, resolve_literal s chain hc]
  cases s.resolve chain t <;> rfl

theorem answer_nothing {t : Text} (h : Opened.ofText t = .nothing) :
    s.answer chain (.expand ('$' :: t)) = (s.answer chain (.expand t)).map (·.map ('$' :: ·)) := by
  simp only [answer, resolve_of_nothing h]
  cases s.resolve chain t <;> rfl

theorem answer_broken {t placeholder detail : Text}
    (h : Opened.ofText t = .broken placeholder detail) :
    s.answer chain (.expand ('$' :: t)) = .error (.badPlaceholder placeholder detail) := by
  simp only [answer, resolve_of_broken h]
  rfl

theorem answer_reference {t rest : Text} {ref : Reference}
    (h : Opened.ofText t = .reference ref rest) :
    s.answer chain (.expand ('$' :: t)) = (do
      let u ← s.answer chain (.replace ref)
      (s.answer chain (.expand rest)).map (·.map (u.getD [] ++ ·))) := by
  simp only [answer, resolve_of_reference h]
  cases s.expandItem s.resolve chain ref.item with
  | error fault => rfl
  | ok u => cases s.resolve chain rest <;> rfl

theorem answer_recursive {ref : Reference} (h : ref.name ∈ chain) :
    s.answer chain (.replace ref) = .error (.recursive (chain ++ [ref.name])) := by
  simp only [answer, expandItem_item, lookUp, if_pos h]
  rfl

theorem answer_tooDeep {ref : Reference} (hfree : ref.name ∉ chain)
    (hdeep : s.limit ≤ chain.length) :
    s.answer chain (.replace ref) = .error (.tooDeep (chain ++ [ref.name]) s.limit) := by
  simp only [answer, expandItem_item, lookUp, if_neg hfree, if_pos hdeep]
  rfl

theorem answer_replace {ref : Reference} (hfree : ref.name ∉ chain)
    (hroom : chain.length < s.limit) : s.answer chain (.replace ref) = (do
      let found ← s.answer chain (.lookUp ref.name)
      match ref.choose found with
      | .taken t => (screen chain ref.name t).map some
      | .argument => do
        let t ← s.answer chain (.expand ref.argument)
        (screen chain ref.name (t.getD [])).map some
      | .missing => .error (.requiring ref.name ref.argument)) := by
  simp only [answer, expandItem_item, lookUp_of_room hfree hroom]
  cases s.found chain ref.name with
  | error fault => rfl
  | ok found =>
    simp only [bind, Except.bind]
    cases ref.choose found with
    | taken t => rfl
    | argument => cases s.resolve chain ref.argument <;> rfl
    | missing => rfl

theorem answer_known {name : Text} {v : Value} (h : s.value? name = some v) :
    s.answer chain (.lookUp name) = v.splice.map some := by
  simp only [answer, found, h]

theorem answer_drafted {name draft : Text} (hv : s.value? name = none)
    (hd : s.drafts.get? name = some draft) :
    s.answer chain (.lookUp name) = (do
      let t ← s.answer (chain ++ [name]) (.expand draft)
      let v ← Value.ofText (t.getD [])
      v.splice.map some) := by
  simp only [answer, found, hv, hd]
  cases s.resolve (chain ++ [name]) draft <;> rfl

theorem answer_absent {name : Text} (hv : s.value? name = none) (hd : s.drafts.get? name = none) :
    s.answer chain (.lookUp name) = .ok none := by
  simp only [answer, found, hv, hd]

theorem Runs.eq_answer {call : Call} {r : Except Fault (Option Text)} {visits : List Visit}
    (h : s.Runs chain call r visits) : r = s.answer chain call := by
  induction h with
  | nil => rw [answer_nil]
  | literal hc _ ih => rw [answer_literal hc, ih]
  | nothing ho _ ih => rw [answer_nothing ho, ih]
  | broken ho => rw [answer_broken ho]
  | failed ho _ ih =>
    rw [answer_reference ho, ← ih]
    rfl
  | replaced ho _ _ ih ih' =>
    rw [answer_reference ho, ← ih, ih']
    rfl
  | recursive hmem => rw [answer_recursive hmem]
  | tooDeep hfree hdeep => rw [answer_tooDeep hfree hdeep]
  | unfound hfree hroom _ ih =>
    rw [answer_replace hfree hroom, ← ih]
    rfl
  | taken hfree hroom _ hchoice ih =>
    rw [answer_replace hfree hroom, ← ih]
    simp only [bind, Except.bind, hchoice]
  | missing hfree hroom _ hchoice ih =>
    rw [answer_replace hfree hroom, ← ih]
    simp only [bind, Except.bind, hchoice]
  | argument hfree hroom _ hchoice _ ih ih' =>
    rw [answer_replace hfree hroom, ← ih, ih']
    simp only [bind, Except.bind, hchoice]
  | known hv => rw [answer_known hv]
  | drafted hv hd _ ih => rw [answer_drafted hv hd, ih]
  | absent hv hd => rw [answer_absent hv hd]

theorem exists_runs_lookUp {name : Text} (hdraft : ∀ draft, ∃ visits,
      s.Runs (chain ++ [name]) (.expand draft) (s.answer (chain ++ [name]) (.expand draft)) visits) :
    ∃ visits, s.Runs chain (.lookUp name) (s.answer chain (.lookUp name)) visits := by
  cases hv : s.value? name with
  | some v =>
    rw [answer_known hv]
    exact ⟨_, .known hv⟩
  | none =>
    cases hd : s.drafts.get? name with
    | none =>
      rw [answer_absent hv hd]
      exact ⟨_, .absent hv hd⟩
    | some draft =>
      obtain ⟨visits, hruns⟩ := hdraft draft
      rw [answer_drafted hv hd]
      exact ⟨_, .drafted hv hd hruns⟩

theorem exists_runs_replace (ref : Reference)
    (hdraft : chain.length < s.limit → ∀ draft, ∃ visits, s.Runs (chain ++ [ref.name]) (.expand draft)
      (s.answer (chain ++ [ref.name]) (.expand draft)) visits)
    (hargument : ∃ visits,
      s.Runs chain (.expand ref.argument) (s.answer chain (.expand ref.argument)) visits) :
    ∃ visits, s.Runs chain (.replace ref) (s.answer chain (.replace ref)) visits := by
  by_cases hmem : ref.name ∈ chain
  · rw [answer_recursive hmem]
    exact ⟨_, .recursive hmem⟩
  · by_cases hroom : chain.length < s.limit
    · obtain ⟨visits, hruns⟩ := exists_runs_lookUp (hdraft hroom)
      rw [answer_replace hmem hroom]
      cases hfound : s.answer chain (.lookUp ref.name) with
      | error fault =>
        rw [hfound] at hruns
        exact ⟨_, .unfound hmem hroom hruns⟩
      | ok found =>
        rw [hfound] at hruns
        simp only [bind, Except.bind]
        cases hchoice : ref.choose found with
        | taken t => exact ⟨_, .taken hmem hroom hruns hchoice⟩
        | missing => exact ⟨_, .missing hmem hroom hruns hchoice⟩
        | argument =>
          obtain ⟨more, hmore⟩ := hargument
          exact ⟨_, .argument hmem hroom hruns hchoice hmore⟩
    · have hdeep := Nat.not_lt.mp hroom
      rw [answer_tooDeep hmem hdeep]
      exact ⟨_, .tooDeep hmem hdeep⟩

/-- Every expansion ends, whatever the texts refer to. -/
theorem exists_runs_expand (s : Scope) (chain : List Text) (t : Text) :
    ∃ visits, s.Runs chain (.expand t) (s.answer chain (.expand t)) visits := by
  -- a draft leaves less room in its chain, and an argument in the same chain is shorter than its text
  induction hroom : s.limit - chain.length using Nat.strongRecOn generalizing chain t with
  | ind room ihroom =>
    induction hlength : t.length using Nat.strongRecOn generalizing t with
    | ind n ihlength =>
      cases t with
      | nil =>
        rw [answer_nil]
        exact ⟨_, .nil⟩
      | cons c t =>
        rw [List.length_cons] at hlength
        by_cases hc : c = '$'
        · subst hc
          cases ho : Opened.ofText t with
          | nothing =>
            obtain ⟨visits, hruns⟩ := ihlength t.length (by omega) t rfl
            rw [answer_nothing ho]
            exact ⟨_, .nothing ho hruns⟩
          | broken placeholder detail =>
            rw [answer_broken ho]
            exact ⟨_, .broken ho⟩
          | reference ref rest =>
            obtain ⟨hargument, hrest⟩ := Opened.length_le_of_ofText ho
            obtain ⟨visits, hruns⟩ := exists_runs_replace ref
              (fun hlt draft => ihroom (s.limit - (chain ++ [ref.name]).length)
                (by rw [List.length_append, List.length_singleton]; omega) _ draft rfl)
              (ihlength ref.argument.length (by omega) _ rfl)
            obtain ⟨more, hmore⟩ := ihlength rest.length (by omega) rest rfl
            rw [answer_reference ho]
            simp only [answer] at hruns ⊢
            cases hitem : s.expandItem s.resolve chain ref.item with
            | error fault =>
              rw [hitem] at hruns
              exact ⟨_, .failed ho hruns⟩
            | ok u =>
              rw [hitem] at hruns
              exact ⟨_, .replaced ho hruns hmore⟩
        · obtain ⟨visits, hruns⟩ := ihlength t.length (by omega) t rfl
          rw [answer_literal hc]
          exact ⟨_, .literal hc hruns⟩

/-- A name that only the texts of its file say something about. -/
def Drafted (s : Scope) (name : Text) : Prop :=
  name ∈ s.drafts.keys ∧ name ∉ s.overlay.keys ∧ name ∉ s.cache.keys ∧ name ∉ s.ambient.keys

/-- A chain within the limit that adds to some first names others that are drafted and new. -/
structure Grows (s : Scope) (first chain : List Text) : Prop where
  nodup : chain.Nodup
  length_le : chain.length ≤ s.limit
  eq_append : ∃ names, chain = first ++ names ∧ ∀ name ∈ names, s.Drafted name

theorem drafted_of_value? {name draft : Text} (hv : s.value? name = none)
    (hd : s.drafts.get? name = some draft) : s.Drafted name := by
  unfold value? at hv
  rw [Option.or_eq_none_iff, Option.or_eq_none_iff] at hv
  obtain ⟨ho, hc, ha⟩ := hv
  exact ⟨Table.mem_keys_iff_get?.mpr ⟨draft, hd⟩, Table.get?_eq_none_iff.mp ho,
    Table.get?_eq_none_iff.mp hc, Table.get?_eq_none_iff.mp ha⟩

theorem Grows.append {first : List Text} {name : Text} (h : s.Grows first chain)
    (hfree : name ∉ chain) (hroom : chain.length < s.limit) (hd : s.Drafted name) :
    s.Grows first (chain ++ [name]) := by
  obtain ⟨names, rfl, hnames⟩ := h.eq_append
  refine ⟨?_, ?_, names ++ [name], List.append_assoc .., ?_⟩
  · refine List.nodup_append.mpr ⟨h.nodup, List.nodup_singleton name, ?_⟩
    rintro n hn m hm rfl
    exact hfree (List.mem_singleton.mp hm ▸ hn)
  · rw [List.length_append, List.length_singleton]
    exact hroom
  · intro n hn
    rcases List.mem_append.mp hn with hn | hn
    · exact hnames n hn
    · exact List.mem_singleton.mp hn ▸ hd

/-- All the chains of a run grow like that of its call. A name is looked up only where the chain can
take it. -/
theorem Runs.grows {first : List Text} {call : Call} {r : Except Fault (Option Text)}
    {visits : List Visit} (h : s.Runs chain call r visits) (hg : s.Grows first chain)
    (hl : ∀ name, call = .lookUp name → name ∉ chain ∧ chain.length < s.limit) :
    ∀ v ∈ visits, s.Grows first v.chain := by
  have hno {c : List Text} {t : Text} :
      ∀ name, Call.expand t = .lookUp name → name ∉ c ∧ c.length < s.limit := by simp
  have hno' {c : List Text} {ref : Reference} :
      ∀ name, Call.replace ref = .lookUp name → name ∉ c ∧ c.length < s.limit := by simp
  induction h with
  | nil => simp
  | literal _ _ ih => exact ih hg hno
  | nothing _ _ ih => exact ih hg hno
  | broken _ => simp
  | failed _ _ ih => exact List.forall_mem_cons.mpr ⟨hg, ih hg hno'⟩
  | replaced _ _ _ ih ih' =>
    refine List.forall_mem_cons.mpr ⟨hg, ?_⟩
    exact List.forall_mem_append.mpr ⟨ih hg hno', ih' hg hno⟩
  | recursive _ => simp
  | tooDeep _ _ => simp
  | unfound hfree hroom _ ih =>
    exact List.forall_mem_cons.mpr ⟨hg, ih hg (by rintro _ ⟨⟩; exact ⟨hfree, hroom⟩)⟩
  | taken hfree hroom _ _ ih =>
    exact List.forall_mem_cons.mpr ⟨hg, ih hg (by rintro _ ⟨⟩; exact ⟨hfree, hroom⟩)⟩
  | missing hfree hroom _ _ ih =>
    exact List.forall_mem_cons.mpr ⟨hg, ih hg (by rintro _ ⟨⟩; exact ⟨hfree, hroom⟩)⟩
  | argument hfree hroom _ _ _ ih ih' =>
    refine List.forall_mem_cons.mpr ⟨hg, ?_⟩
    refine List.forall_mem_append.mpr ⟨ih hg (by rintro _ ⟨⟩; exact ⟨hfree, hroom⟩), ?_⟩
    exact List.forall_mem_cons.mpr ⟨hg, ih' hg hno⟩
  | known _ => simp
  | @drafted _ name _ _ _ hv hd _ ih =>
    -- the only rule by which a chain grows
    obtain ⟨hfree, hroom⟩ := hl name rfl
    have hnext := hg.append hfree hroom (drafted_of_value? hv hd)
    exact List.forall_mem_cons.mpr ⟨hnext, ih hnext hno⟩
  | absent _ _ => simp

theorem grows_start (h : 1 ≤ s.limit) (owner : Option Text) :
    s.Grows (start owner) (start owner) := by
  match owner with
  | none => exact ⟨List.nodup_nil, Nat.zero_le _, [], rfl, by simp⟩
  | some [] => exact ⟨List.nodup_nil, Nat.zero_le _, [], rfl, by simp⟩
  | some (c :: t) => exact ⟨List.nodup_singleton _, h, [], rfl, by simp⟩

/-- The expansion of any text ends, and down to every call on its way goes a chain without
repetition and within the limit: the owner of the text, if it has one, and then names that are
drafted and have no value yet. -/
theorem expand_chains (h : 1 ≤ s.limit) (owner : Option Text) (t : Text) :
    (∃ visits, s.Runs (start owner) (.expand t) ((s.expand owner t).map some) visits) ∧
    ∀ r visits, s.Runs (start owner) (.expand t) r visits →
      r = (s.expand owner t).map some ∧
      ∀ v ∈ ⟨start owner, .expand t⟩ :: visits,
        v.chain.Nodup ∧ v.chain.length ≤ s.limit ∧
        ∃ names, v.chain = start owner ++ names ∧ ∀ name ∈ names, s.Drafted name := by
  have hanswer : s.answer (start owner) (.expand t) = (s.expand owner t).map some := by
    rw [answer, expand_eq_resolve]
  rw [← hanswer]
  refine ⟨exists_runs_expand s (start owner) t, fun r visits hruns => ⟨hruns.eq_answer, ?_⟩⟩
  have hfirst := grows_start h owner
  have hall : ∀ v ∈ (⟨start owner, .expand t⟩ : Visit) :: visits, s.Grows (start owner) v.chain :=
    List.forall_mem_cons.mpr ⟨hfirst, hruns.grows hfirst (by simp)⟩
  exact fun v hv => ⟨(hall v hv).nodup, (hall v hv).length_le, (hall v hv).eq_append⟩

/-- Two texts that refer to each other. -/
def cyclic : Scope :=
  ⟨∅, ∅, ∅, .ofList [("A".toList, "${B}".toList), ("B".toList, "x${C:-${A}}".toList)], 3⟩

theorem expand_chains_cyclic :
    1 ≤ cyclic.limit ∧
    cyclic.expand (some "A".toList) "${B}".toList =
      .error (.recursive ["A".toList, "B".toList, "A".toList]) ∧
    ∃ visits, cyclic.Runs ["A".toList] (.expand "${B}".toList)
        (.error (.recursive ["A".toList, "B".toList, "A".toList])) visits ∧
      ∀ v ∈ visits, v.chain.Nodup ∧ v.chain.length ≤ 3 := by
  have hlimit : 1 ≤ cyclic.limit := by decide
  have hfault : cyclic.expand (some "A".toList) "${B}".toList =
      .error (.recursive ["A".toList, "B".toList, "A".toList]) := by decide +kernel
  obtain ⟨⟨visits, hruns⟩, hall⟩ := expand_chains hlimit (some "A".toList) "${B}".toList
  obtain ⟨_, hchains⟩ := hall _ _ hruns
  rw [hfault] at hruns
  refine ⟨hlimit, hfault, visits, hruns, fun v hv => ?_⟩
  obtain ⟨hnodup, hlength, _⟩ := hchains v (List.mem_cons_of_mem _ hv)
  exact ⟨hnodup, hlength⟩

end Scope

end EnvFile
