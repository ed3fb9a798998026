import EnvFile.Proofs.Blanks
import EnvFile.Proofs.Failures
import EnvFile.Proofs.LoadedRuns
import EnvFile.Proofs.Numerals
import EnvFile.Proofs.Pieces

namespace EnvFile

open Float.Model in
/-- No double is both one and zero. -/
theorem beq_zero_of_beq_one {x : Float} (h : (x == 1) = true) : (x == 0) = false := by
  have hone : ∃ m e hm, (1 : Float).toModel.unpack = .finite .positive m e hm := ⟨_, _, _, rfl⟩
  have hzero : (0 : Float).toModel.unpack = .zero .positive := rfl
  obtain ⟨m, e, hm, hone⟩ := hone
  change (x.toModel.unpack.compare (1 : Float).toModel.unpack == some .eq) = true at h
  change (x.toModel.unpack.compare (0 : Float).toModel.unpack == some .eq) = false
  rw [hone] at h
  rw [hzero]
  generalize x.toModel.unpack = u at h ⊢
  cases u with
  | notANumber => rfl
  | infinity s => cases s <;> rfl
  | zero s => exact absurd h Bool.false_ne_true
  | finite s n k hn => cases s <;> rfl

namespace Settings

/-- A text says that something is on or off: by a word in capitals or not, or by a number that is
one or zero. -/
inductive Says (t : Text) : Bool → Prop
  | word {b : Bool} :
      ((Text.trim t).map Char.toLower ∈ if b then Value.trueWords else Value.falseWords) → Says t b
  | integer {negative : Bool} {digits : Text} {b : Bool} :
      Numeral.ofText? (Text.trim t) = some (.integer negative digits) →
      Numeral.readInt negative digits = .ok (if b then 1 else 0) → Says t b
  | decimal {negative : Bool} {whole fraction : Text} {b : Bool} :
      Numeral.ofText? (Text.trim t) = some (.decimal negative whole fraction) →
      (Numeral.readFloat negative whole fraction == if b then 1 else 0) = true → Says t b

theorem truth?_int {n : Int} {b : Bool} :
    truth? (.int n) = some b ↔ n = if b then 1 else 0 := by
  have hunfold : truth? (.int n) = if n = 0 then some false else if n = 1 then some true else none :=
    rfl
  rw [hunfold]
  by_cases hzero : n = 0
  · cases b <;> simp [hzero]
  · cases b <;> simp [hzero]

theorem truth?_float {x : Float} {b : Bool} :
    truth? (.float x) = some b ↔ (x == if b then 1 else 0) = true := by
  have hunfold : truth? (.float x) =
      if x == 0 then some false else if x == 1 then some true else none := rfl
  rw [hunfold]
  cases b with
  | true =>
    cases hone : x == 1 with
    | true => simp [hone, beq_zero_of_beq_one hone]
    | false => cases hzero : x == 0 <;> simp [hone]
  | false => cases hzero : x == 0 <;> simp [hzero]

theorem says_iff {t : Text} {b : Bool} :
    Says t b ↔ ∃ v, Value.ofText t = .ok v ∧ truth? v = some b := by
  constructor
  · intro h
    cases h with
    | word h => exact ⟨.bool b, Value.ofText_of_word h, rfl⟩
    | integer hnumeral hread =>
      rw [Value.ofText_of_numeral hnumeral]
      exact ⟨_, by rw [Value.ofNumeral, hread]; rfl, truth?_int.mpr rfl⟩
    | decimal hnumeral hread =>
      rw [Value.ofText_of_numeral hnumeral]
      exact ⟨_, rfl, truth?_float.mpr hread⟩
  · rintro ⟨v, hv, hb⟩
    cases Value.spells_of_ofText hv with
    | word hword =>
      cases hb
      exact .word hword
    | numeral hnumeral hn =>
      rcases Value.ofNumeral_eq_ok hn with ⟨_, _, i, rfl, hi, rfl⟩ | ⟨_, _, _, rfl, rfl⟩
      · rw [truth?_int.mp hb] at hi
        exact .integer hnumeral hi
      · exact .decimal hnumeral (truth?_float.mp hb)
    | _ => cases hb

/-- What a flag comes to, and what is told of it. A blank text counts as none. -/
inductive Comes (name : Text) (default : Bool) : Option Text → Bool → List Notice → Prop
  | unset : Comes name default none default []
  | blank {t : Text} : (∀ c ∈ t, Text.isBlank c) → Comes name default (some t) default []
  | said {t : Text} {b : Bool} : Says t b → Comes name default (some t) b []
  | other {t : Text} : (∃ c ∈ t, Text.isBlank c = false) → (∀ b, ¬Says t b) →
      Comes name default (some t) default [.notBoolean name t default]

theorem flag_fails (environment : Table Text Text) (name : Text) (default : Bool) :
    FailsOnly (fun fault => ∃ t, environment.get? name = some t ∧ Value.Overlong t fault)
      (flag environment name default) := by
  unfold flag
  split
  next => exact .ok _
  next t ht =>
    split
    next => exact .ok _
    next =>
      refine FailsOnly.bind ((Value.ofText_fails t).mono fun fault h => ⟨t, ht, h⟩) fun v => ?_
      split
      next => exact .ok _
      next => exact .ok _

theorem flag_of_overlong {environment : Table Text Text} {name t : Text} {fault : Fault}
    (ht : environment.get? name = some t) (h : Value.Overlong t fault) (default : Bool) :
    flag environment name default = .error fault := by
  have hread : Value.ofText t = .error fault := Value.ofText_of_overlong h
  obtain ⟨_, _, hnumeral, _⟩ := h
  have hne : Text.trim t ≠ [] := (Numeral.isDecimal_of_ofText? hnumeral).1
  unfold flag
  rw [ht]
  simp only [List.isEmpty_iff, hne, ↓reduceIte, hread]
  rfl

theorem comes_of_flag {environment : Table Text Text} {name : Text} {default b : Bool}
    {notices : List Notice} (h : flag environment name default = .ok (b, notices)) :
    Comes name default (environment.get? name) b notices := by
  unfold flag at h
  split at h
  next hnone =>
    cases h
    rw [hnone]
    exact .unset
  next t ht =>
    rw [ht]
    split at h
    next hempty =>
      cases h
      exact .blank (Text.trim_eq_nil_iff.mp (List.isEmpty_iff.mp hempty))
    next hempty =>
      obtain ⟨v, hv, h⟩ := Results.bind_eq_ok.mp h
      split at h
      next b' hb =>
        cases h
        exact .said (says_iff.mpr ⟨v, hv, hb⟩)
      next hnone =>
        cases h
        rw [List.isEmpty_iff] at hempty
        refine .other (Text.trim_ne_nil_iff.mp hempty) fun b' hsays => ?_
        obtain ⟨w, hw, hb⟩ := says_iff.mp hsays
        rw [hv] at hw
        cases hw
        rw [hnone] at hb
        cases hb

example : flag (Table.insert ∅ tolerantVariable " ON ".toList) tolerantVariable false =
    .ok (true, []) := rfl

example : flag (Table.insert ∅ tolerantVariable "null".toList) tolerantVariable false =
    .ok (false, [.notBoolean tolerantVariable "null".toList false]) := rfl

/-- A text gives a list with a mark between each two entries. Blank entries do not count, and a blank
text gives a default. -/
structure Lists (mark : Char) (default given : Text) (entries : List Text) : Prop where
  not_blank : ∀ e ∈ entries, ∃ c ∈ e, Text.isBlank c = false
  of_blank : (∀ c ∈ given, Text.isBlank c) → entries = [default]
  trimmed : (∃ c ∈ given, Text.isBlank c = false) →
    entries.map Text.trim = ((Text.pieces mark given).map Text.trim).filter (· ≠ [])
  eq_nil_iff : entries = [] ↔ mark ∈ given ∧ ∀ c ∈ given, c = mark ∨ Text.isBlank c

variable {mark : Char} {default given : Text} {entries : List Text}

theorem lists_default (hmark : Text.isBlank mark = false)
    (hdefault : ∃ c ∈ default, Text.isBlank c = false) (h : ∀ c ∈ given, Text.isBlank c) :
    Lists mark default given [default] where
  not_blank e he := by
    obtain rfl := List.mem_singleton.mp he
    exact hdefault
  of_blank _ := rfl
  trimmed hgiven := by
    obtain ⟨c, hc, hne⟩ := hgiven
    rw [h c hc] at hne
    cases hne
  eq_nil_iff := by
    refine iff_of_false (List.cons_ne_nil _ _) fun ⟨hmem, _⟩ => ?_
    rw [h mark hmem] at hmark
    cases hmark

theorem lists_of_trimmed (hgiven : ∃ c ∈ given, Text.isBlank c = false)
    (h : entries.map Text.trim = ((Text.pieces mark given).map Text.trim).filter (· ≠ [])) :
    Lists mark default given entries where
  not_blank e he := by
    have hmem : Text.trim e ∈ entries.map Text.trim := List.mem_map_of_mem he
    rw [h, List.mem_filter, decide_eq_true_iff] at hmem
    exact Text.trim_ne_nil_iff.mp hmem.2
  of_blank hblank := by
    obtain ⟨c, hc, hne⟩ := hgiven
    rw [hblank c hc] at hne
    cases hne
  trimmed _ := h
  eq_nil_iff := by
    have hnone : entries = [] ↔ ∀ p ∈ Text.pieces mark given, ∀ c ∈ p, Text.isBlank c := by
      rw [← List.map_eq_nil_iff (f := Text.trim), h, List.filter_eq_nil_iff]
      simp [Text.trim_eq_nil_iff]
    rw [hnone, Text.forall_mem_pieces_iff]
    refine ⟨fun hc => ⟨?_, hc⟩, And.right⟩
    obtain ⟨c, hmem, hne⟩ := hgiven
    rcases hc c hmem with rfl | hblank
    · exact hmem
    · rw [hblank] at hne
      cases hne

theorem lists_rootsIn (hdefault : ∃ c ∈ default, Text.isBlank c = false) (given : Text) :
    Lists ':' default given
      (if !(Text.trim given).isEmpty then rootsIn given else [default]) := by
  split
  next h =>
    refine lists_of_trimmed (Text.trim_ne_nil_iff.mp (by simpa using h)) ?_
    rw [rootsIn, List.filter_map]
    congr 2
    funext p
    cases hp : Text.trim p <;> simp [hp]
  next h => exact lists_default rfl hdefault (Text.trim_eq_nil_iff.mp (by simpa using h))

theorem lists_namesIn (hdefault : ∃ c ∈ default, Text.isBlank c = false) (given : Text) :
    Lists ',' default given
      (if !(Text.trim given).isEmpty then namesIn given else [default]) := by
  split
  next h =>
    refine lists_of_trimmed (Text.trim_ne_nil_iff.mp (by simpa using h)) ?_
    have hsame : (namesIn given).map Text.trim = namesIn given := by
      refine (List.map_congr_left fun n hn => ?_).trans (List.map_id _)
      obtain ⟨p, _, rfl⟩ := List.mem_map.mp (List.mem_filter.mp hn).1
      exact Text.trim_trim p
    rw [hsame]
    exact List.filter_congr fun n _ => by cases n <;> rfl
  next h => exact lists_default rfl hdefault (Text.trim_eq_nil_iff.mp (by simpa using h))

example : namesIn " a , ,.env,".toList = ["a".toList, ".env".toList] := by decide

def flagVariables : List Text := [publishingVariable, tolerantVariable, writesVariable]

/-- A flag is an integer with too many digits. -/
def Unreadable (environment : Table Text Text) (fault : Fault) : Prop :=
  ∃ name ∈ flagVariables, ∃ t, environment.get? name = some t ∧ Value.Overlong t fault

/-- The settings that an environment gives if every flag in it can be read, and what is told of them. -/
structure Reads (here : Text) (environment : Table Text Text) (s : Settings)
    (notices : List Notice) : Prop where
  readable : ∀ fault, ¬Unreadable environment fault
  roots : Lists ':' here ((environment.get? rootsVariable).getD []) s.roots
  names : Lists ',' baseName ((environment.get? namesVariable).getD []) s.names
  flags : ∃ first second third,
    Comes publishingVariable false (environment.get? publishingVariable) s.publishing first ∧
    Comes tolerantVariable false (environment.get? tolerantVariable) s.tolerant second ∧
    Comes writesVariable true (environment.get? writesVariable) s.writesAllowed third ∧
    notices = first ++ second ++ third

theorem configure_cases {here : Text} (hhere : ∃ c ∈ here, Text.isBlank c = false)
    (environment : Table Text Text) :
    (∃ fault s notices, (initial here).configure here environment = (.error fault, s, notices) ∧
      Unreadable environment fault) ∨
    ∃ s notices, (initial here).configure here environment = (.ok (), s, notices) ∧
      Reads here environment s notices := by
  have hfault {name : Text} {default : Bool} {fault : Fault} (hname : name ∈ flagVariables)
      (h : flag environment name default = .error fault) : Unreadable environment fault :=
    ⟨name, hname, flag_fails environment name default fault h⟩
  have hroots := lists_rootsIn hhere ((environment.get? rootsVariable).getD [])
  have hbase : ∃ c ∈ baseName, Text.isBlank c = false := ⟨'.', by decide, rfl⟩
  have hnames := lists_namesIn hbase ((environment.get? namesVariable).getD [])
  rcases hp : flag environment publishingVariable false with fault | ⟨publishing, first⟩
  · exact Or.inl ⟨fault, _, _, by simp only [configure, initial, hp]; rfl, hfault (by decide) hp⟩
  rcases ht : flag environment tolerantVariable false with fault | ⟨tolerant, second⟩
  · exact Or.inl ⟨fault, _, _, by simp only [configure, initial, hp, ht]; rfl, hfault (by decide) ht⟩
  rcases hw : flag environment writesVariable true with fault | ⟨writesAllowed, third⟩
  · exact Or.inl ⟨fault, _, _, by simp only [configure, initial, hp, ht, hw]; rfl,
      hfault (by decide) hw⟩
  refine Or.inr ⟨_, _, by simp only [configure, initial, hp, ht, hw]; rfl, ?_, hroots, hnames,
    first, second, third, comes_of_flag hp, comes_of_flag ht, comes_of_flag hw, rfl⟩
  rintro fault ⟨name, hname, t, hgiven, hlong⟩
  simp only [flagVariables, List.mem_cons, List.not_mem_nil, or_false] at hname
  rcases hname with rfl | rfl | rfl
  · rw [flag_of_overlong hgiven hlong] at hp
    cases hp
  · rw [flag_of_overlong hgiven hlong] at ht
    cases ht
  · rw [flag_of_overlong hgiven hlong] at hw
    cases hw

end Settings

namespace Host

theorem exists_herePath (f : FileTree) : ∃ c ∈ f.herePath.toText, Text.isBlank c = false :=
  ⟨'/', by simp [FileTree.herePath, Path.toText, Path.isHere], by decide⟩

theorem configure_of_read {h : Host} {result : Except Fault Unit} {s : Settings}
    {notices : List Notice}
    (hs : h.settings.configure h.files.herePath.toText h.environment = (result, s, notices)) :
    h.configure = (result.map fun _ => s, { h with settings := s }.tell notices) := by
  unfold configure
  rw [hs]

/-- A registry that is to load nothing yet is opened over any names, if there are some. -/
theorem openMember_idle (h : Host) {o : Opening} {names : List Text} (hnames : o.names = some names)
    (hne : names ≠ []) (hfast : o.fastLoad = false) (hparts : o.parts = none) (cache : Nat)
    (ambient : Option Nat) :
    let m : Member := ⟨h.members.length, .fresh o.roots (inOrder baseName names) o.publishing
      o.keepsLines (h.cacheAt cache) (h.ambientAt ambient), cache, ambient⟩
    h.openMember o cache ambient = (.ok m.id, { h.store m with members := h.members ++ [m] }) := by
  intro m
  have hstart (r : Registry) : o.start r h.files = (.ok (), r, []) := by
    simp [Opening.start, hparts, hfast]
  have hin : o.names.elim (.ok [baseName]) fileNames = .ok (inOrder baseName names) := by
    rw [hnames]
    exact fileNames_of_ne_nil hne
  have htold : (h.store m).tell [] = h.store m := by rw [tell, List.append_nil]
  obtain ⟨_, _, _, hstore⟩ := h.exists_of_store m
  have hmembers : (h.store m).members = h.members := by rw [hstore]
  rw [openMember_of_names hin]
  simp only [hstart]
  rw [htold, hmembers]

theorem member?_of_getElem? {h : Host} {id : Nat} {m : Member} (hm : h.members[id]? = some m) :
    h.member? id = some { m with registry := { m.registry with
      cache := h.cacheAt m.cache
      ambient := h.ambientAt m.ambient } } := by
  rw [member?, hm]
  rfl

theorem commonMember_of_ok {h next : Host} {s : Settings} (hcommon : h.common = none)
    (hs : h.configure = (.ok s, next)) (hne : s.names ≠ []) :
    ∃ id made m, h.commonMember = (.ok id, made) ∧ made.common = some id ∧
      made.notices = next.notices ∧ made.writesAllowed = s.writesAllowed ∧
      made.member? id = some m ∧ m.registry.roots = s.roots ∧
      m.registry.names = inOrder baseName s.names ∧ m.registry.publishing = s.publishing ∧
      m.registry.loaded = false := by
  let allowed : Host := { next with writesAllowed := s.writesAllowed }
  let m : Member := ⟨allowed.members.length, .fresh s.roots (inOrder baseName s.names) s.publishing true
    (allowed.cacheAt 0) (allowed.ambientAt none), 0, none⟩
  let made : Host := { allowed.store m with members := allowed.members ++ [m], common := some m.id }
  have hopen : allowed.openMember ⟨s.roots, some s.names, s.publishing, false, none, true⟩ 0 none =
      (.ok m.id, { allowed.store m with members := allowed.members ++ [m] }) :=
    allowed.openMember_idle rfl hne rfl rfl 0 none
  have hmade : h.commonMember = (.ok m.id, made) := by
    unfold commonMember
    rw [hcommon, hs]
    simp only
    rw [hopen]
  obtain ⟨_, _, _, hstore⟩ := allowed.exists_of_store m
  have hnotices : (allowed.store m).notices = next.notices := by rw [hstore]
  have hwrites : (allowed.store m).writesAllowed = s.writesAllowed := by rw [hstore]
  have hlast : made.members[m.id]? = some m := List.getElem?_concat_length
  exact ⟨m.id, made, _, hmade, rfl, hnotices, hwrites, member?_of_getElem? hlast, rfl, rfl, rfl, rfl⟩

theorem commonMember_of_nil {h next : Host} {s : Settings} (hcommon : h.common = none)
    (hs : h.configure = (.ok s, next)) (hnil : s.names = []) :
    h.commonMember.1 = .error .noNames := by
  unfold commonMember
  rw [hcommon, hs]
  simp [openMember, hnil, fileNames, inOrder]

/-- Whatever the environment is, settings are read from it unless a flag is an integer with too many
digits. The common registry is then made from them and has loaded nothing yet, unless the names are
a list without an entry. -/
theorem commonMember_cases (h : Host) :
    let asked := h.resetSettings.setCommon none
    (∃ fault, Settings.Unreadable h.environment fault ∧ asked.configure.1 = .error fault ∧
      asked.commonMember.1 = .error fault) ∨
    ∃ s notices, s.Reads h.files.herePath.toText h.environment notices ∧
      asked.configure.1 = .ok s ∧ asked.configure.2.notices = h.notices ++ notices ∧
      if s.names = [] then asked.commonMember.1 = .error .noNames
      else ∃ id made m, asked.commonMember = (.ok id, made) ∧ made.common = some id ∧
        made.notices = h.notices ++ notices ∧ made.writesAllowed = s.writesAllowed ∧
        made.member? id = some m ∧ m.registry.roots = s.roots ∧
        m.registry.names = inOrder baseName s.names ∧ m.registry.publishing = s.publishing ∧
        m.registry.loaded = false := by
  intro asked
  rcases Settings.configure_cases (exists_herePath h.files) h.environment with
    ⟨fault, s, notices, hs, hfault⟩ | ⟨s, notices, hs, hreads⟩
  · have hread : asked.configure = (.error fault, { asked with settings := s }.tell notices) :=
      (configure_of_read (h := asked) hs).trans rfl
    refine Or.inl ⟨fault, hfault, by rw [hread], ?_⟩
    have hcommon : asked.common = none := rfl
    unfold commonMember
    rw [hcommon, hread]
  · have hread : asked.configure = (.ok s, { asked with settings := s }.tell notices) :=
      (configure_of_read (h := asked) hs).trans rfl
    refine Or.inr ⟨s, notices, hreads, by rw [hread], by rw [hread]; rfl, ?_⟩
    split
    next hnil => exact commonMember_of_nil rfl hread hnil
    next hne => exact commonMember_of_ok rfl hread hne

/-- Separators alone give no root and no name, so that no registry can be made of them, and a flag with
too many digits ends the reading. -/
theorem settings_without_entries :
    let asked := fun name given => start (.bare ⟨['/'], []⟩) (Table.insert ∅ name given)
    (∃ s, (asked Settings.rootsVariable [':']).configure.1 = .ok s ∧ s.roots = []) ∧
    (∃ s, (asked Settings.namesVariable [',']).configure.1 = .ok s ∧ s.names = []) ∧
    (asked Settings.namesVariable [',']).commonMember.1 = .error .noNames ∧
    (asked Settings.tolerantVariable (List.replicate 4301 '1')).configure.1 =
      .error (.numeralTooLong 4301) := by
  intro asked
  have hlong : Value.Overlong (List.replicate 4301 '1') (.numeralTooLong 4301) :=
    Value.overlong_ones (by decide)
  refine ⟨⟨_, rfl, rfl⟩, ⟨_, rfl, rfl⟩, rfl, ?_⟩
  let environment : Table Text Text :=
    Table.insert ∅ Settings.tolerantVariable (List.replicate 4301 '1')
  have hfirst : Settings.flag environment Settings.publishingVariable false = .ok (false, []) := rfl
  have hsecond : Settings.flag environment Settings.tolerantVariable false =
      .error (.numeralTooLong 4301) := Settings.flag_of_overlong rfl hlong false
  obtain ⟨s, notices, hs⟩ : ∃ s notices, (Settings.initial ['/']).configure ['/'] environment =
      (.error (.numeralTooLong 4301), s, notices) :=
    ⟨_, _, by simp only [Settings.configure, Settings.initial, hfirst, hsecond]; rfl⟩
  have hread : (asked Settings.tolerantVariable (List.replicate 4301 '1')).configure = _ :=
    configure_of_read hs
  rw [hread]
  rfl

end Host

end EnvFile
