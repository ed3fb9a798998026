import EnvFile.Proofs.Hazards
import EnvFile.Proofs.Openings
import EnvFile.Proofs.Pieces

namespace EnvFile

namespace Text

/-- `c` is taken for `l` where case does not matter. -/
def Alike (l c : Char) : Prop :=
  c.toLower = l ∨ (l, c) ∈ [('i', '\u0130'), ('i', '\u0131'), ('s', '\u017F'), ('k', '\u212A')]

/-- The text is the word, in letters of either case. -/
def Spells (word t : Text) : Prop := List.Forall₂ Alike word t

/-- A character that is taken for a letter of the alphabet. -/
def IsLetter (c : Char) : Prop := c.isAlpha ∨ c ∈ lookalikes

variable {l c : Char} {word t : Text}

theorem foldCase_eq_iff (hl : l ∉ lookalikes) : foldCase c = l ↔ Alike l c := by
  by_cases hc : c ∈ lookalikes
  · have hlower : c.toLower ≠ l := by
      have hall : (lookalikes.all fun d => d.toLower == d) = true := by decide
      have hsame : c.toLower = c := by simpa using List.all_eq_true.mp hall c hc
      intro he
      rw [hsame] at he
      exact hl (he ▸ hc)
    refine Iff.trans ?_ (or_iff_right hlower).symm
    simp only [lookalikes, List.mem_cons, List.not_mem_nil, or_false] at hc
    rcases hc with rfl | rfl | rfl | rfl <;> simp [foldCase, eq_comm]
  · rw [foldCase_of_not_lookalike hc]
    refine (or_iff_left fun hmem => hc ?_).symm
    exact List.mem_map_of_mem (f := Prod.snd) hmem

theorem map_foldCase_eq_iff (h : word.all (· ∉ lookalikes)) :
    t.map foldCase = word ↔ Spells word t := by
  induction word generalizing t with
  | nil => simp [Spells]
  | cons l word ih =>
    obtain ⟨hl, hword⟩ := Bool.and_eq_true_iff.mp h
    have hl : l ∉ lookalikes := of_decide_eq_true hl
    cases t with
    | nil => simp [Spells]
    | cons c t =>
      rw [List.map_cons, List.cons.injEq, foldCase_eq_iff hl, ih hword, Spells, Spells,
        List.forall₂_cons]

theorem foldCase_eq_sign_iff (hl : isSmallLetter l = false) (hsame : foldCase l = l) :
    foldCase c = l ↔ c = l := by
  constructor
  · exact eq_of_foldCase hl
  · rintro rfl
    exact hsame

/-- A text without letters is spelled in one way only. -/
theorem eq_of_map_foldCase (h : word.all (!isSmallLetter ·)) (ht : t.map foldCase = word) :
    t = word := by
  have hsame : ∀ c ∈ t, foldCase c = c := by
    intro c hc
    have hmem : foldCase c ∈ word := ht ▸ List.mem_map_of_mem hc
    have hsmall : isSmallLetter (foldCase c) = false := by simpa using List.all_eq_true.mp h _ hmem
    exact (eq_of_foldCase hsmall rfl).symm
  rw [← ht, List.map_congr_left hsame, List.map_id']

theorem mem_map_foldCase (hl : isSmallLetter l = false) (hsame : foldCase l = l) :
    l ∈ t.map foldCase ↔ l ∈ t := by
  simp only [List.mem_map, foldCase_eq_sign_iff hl hsame, exists_eq_right]

theorem isSmallLetter_foldCase : isSmallLetter (foldCase c) ↔ IsLetter c := by
  rcases foldCase_cases c with ⟨hsmall, hletter⟩ | ⟨hsame, halpha, hlookalike⟩
  · exact iff_of_true hsmall hletter
  · rw [hsame]
    refine iff_of_false (fun hsmall => halpha ?_) (not_or.mpr ⟨halpha, hlookalike⟩)
    exact isAlpha_iff.mpr (Or.inr (isSmallLetter_iff.mp hsmall))

theorem isDigit_foldCase : (foldCase c).isDigit ↔ c.isDigit := by
  rcases foldCase_cases c with ⟨hsmall, hletter⟩ | ⟨hsame, _⟩
  · rw [isSmallLetter_iff] at hsmall
    refine iff_of_false (fun h => ?_) (fun h => ?_)
    · rw [isDigit_iff] at h
      omega
    · rcases hletter with hletter | hletter
      · rw [isAlpha_iff] at hletter
        rw [isDigit_iff] at h
        omega
      · have hall : (lookalikes.all fun d => !d.isDigit) = true := by decide
        simpa [h] using List.all_eq_true.mp hall c hletter
  · rw [hsame]

end Text

namespace Hazard

open Text

/-- A character that the name of a scheme may hold. -/
def InName (c : Char) : Prop := IsLetter c ∨ c.isDigit ∨ c = '+' ∨ c = '.' ∨ c = '-'

/-- The text up to the first comma ends in the mark of a payload. -/
def EndsInMark (t : Text) : Prop :=
  ∃ front mark rest, t = front ++ mark ++ ',' :: rest ∧ ',' ∉ front ++ mark ∧
    Spells ";base64".toList mark

/-- A media type and its parameters, none of which holds a comma or a semicolon, and behind them
the mark of a payload. -/
def ParametersThenMark (t : Text) : Prop :=
  ∃ parts mark rest, t = join [';'] parts ++ mark ++ ',' :: rest ∧ parts ≠ [] ∧
    (∀ part ∈ parts, ',' ∉ part ∧ ';' ∉ part) ∧ Spells ";base64".toList mark

/-- A hazardous scheme begins the text; `Payload` tells what has to follow `data:`. -/
inductive Begins (Payload : Text → Prop) : Text → Prop
  | scheme {word : String} {name : Text} (rest : Text) :
      word ∈ ["php", "phar", "expect", "zip", "glob", "rar", "ogg", "compress.zlib",
        "compress.bzip2"] →
      Spells word.toList name → Begins Payload (name ++ "://".toList ++ rest)
  | tunnel {front kind : Text} (rest : Text) : Spells "ssh2.".toList front → kind ≠ [] →
      (∀ c ∈ kind, IsLetter c) → Begins Payload (front ++ kind ++ "://".toList ++ rest)
  | data {front rest : Text} : Spells "data:".toList front → Payload rest →
      Begins Payload (front ++ rest)

/-- A hazardous scheme begins somewhere, and not inside a longer name. -/
def Carries (Payload : Text → Prop) (t : Text) : Prop :=
  ∃ before rest, t = before ++ rest ∧ (∀ c ∈ before.getLast?, ¬InName c) ∧ Begins Payload rest

variable {t u : Text} {c : Char}

theorem inScheme_foldCase : inScheme (foldCase c) ↔ InName c := by
  simp only [inScheme, InName, Bool.or_eq_true, beq_iff_eq, isSmallLetter_foldCase,
    isDigit_foldCase, foldCase_eq_sign_iff (l := '+') rfl rfl, foldCase_eq_sign_iff (l := '.') rfl rfl,
    foldCase_eq_sign_iff (l := '-') rfl rfl, or_assoc]

theorem search_iff {insideName : Bool} :
    search insideName t ↔ ∃ before rest, t = before ++ rest ∧ (before = [] → insideName = false) ∧
      (∀ c ∈ before.getLast?, inScheme c = false) ∧ opens rest := by
  induction t generalizing insideName with
  | nil =>
    refine iff_of_false Bool.false_ne_true ?_
    rintro ⟨before, rest, hsplit, _, _, hopens⟩
    obtain ⟨rfl, rfl⟩ := List.append_eq_nil_iff.mp hsplit.symm
    exact absurd hopens (by decide)
  | cons c t ih =>
    simp only [search, Bool.or_eq_true, Bool.and_eq_true, Bool.not_eq_true']
    constructor
    · rintro (⟨hfree, hopens⟩ | hlater)
      · exact ⟨[], c :: t, rfl, fun _ => hfree, by simp, hopens⟩
      · obtain ⟨before, rest, rfl, hfirst, hlast, hopens⟩ := ih.mp hlater
        refine ⟨c :: before, rest, rfl, by simp, ?_, hopens⟩
        cases before with
        | nil => simpa using hfirst rfl
        | cons d before => simpa using hlast
    · rintro ⟨before, rest, hsplit, hfirst, hlast, hopens⟩
      cases before with
      | nil =>
        rw [List.nil_append] at hsplit
        exact Or.inl ⟨hfirst rfl, hsplit ▸ hopens⟩
      | cons d before =>
        obtain ⟨rfl, rfl⟩ := List.cons.inj hsplit
        refine Or.inr (ih.mpr ⟨before, rest, rfl, ?_, ?_, hopens⟩)
        · rintro rfl
          exact hlast c rfl
        · intro e he
          cases before with
          | nil => simp at he
          | cons d before => exact hlast e (by simpa using he)

theorem opensTunnel_iff :
    opensTunnel u ↔ ∃ kind rest, u = "ssh2.".toList ++ kind ++ "://".toList ++ rest ∧ kind ≠ [] ∧
      ∀ c ∈ kind, isSmallLetter c := by
  unfold opensTunnel
  constructor
  · intro h
    split at h
    next r hr =>
      obtain ⟨hkind, hsign⟩ := Bool.and_eq_true_iff.mp h
      obtain ⟨rest, hrest⟩ := List.isPrefixOf_iff_prefix.mp hsign
      refine ⟨r.takeWhile isSmallLetter, rest, ?_, by simpa using hkind, ?_⟩
      · rw [after?_eq_some_iff.mp hr, List.append_assoc, List.append_assoc, hrest,
          List.takeWhile_append_dropWhile]
      · exact fun c hc => List.all_eq_true.mp List.all_takeWhile c hc
    next => simp at h
  · rintro ⟨kind, rest, rfl, hne, hkind⟩
    have hafter : after? "ssh2.".toList ("ssh2.".toList ++ kind ++ "://".toList ++ rest) =
        some (kind ++ ':' :: ("//".toList ++ rest)) := by
      rw [after?_eq_some_iff]
      simp
    have htake : (kind ++ ':' :: ("//".toList ++ rest)).takeWhile isSmallLetter = kind := by
      rw [takeWhile_append_stop (by decide), List.takeWhile_eq_self_iff.mpr hkind]
    have hdrop : (kind ++ ':' :: ("//".toList ++ rest)).dropWhile isSmallLetter =
        ':' :: ("//".toList ++ rest) := by
      rw [dropWhile_append_stop (by decide), List.dropWhile_eq_nil_iff.mpr hkind, List.nil_append]
    rw [hafter]
    simp only [htake, hdrop, Bool.and_eq_true, Bool.not_eq_true', List.isEmpty_eq_false_iff]
    exact ⟨hne, rfl⟩

theorem payloadAhead_iff :
    payloadAhead u ↔ ∃ front rest, u = front ++ ";base64".toList ++ ',' :: rest ∧ ',' ∉ front := by
  induction u with
  | nil => simp [payloadAhead]
  | cons c u ih =>
    simp only [payloadAhead, Bool.or_eq_true, Bool.and_eq_true, bne_iff_ne, List.isPrefixOf_iff_prefix]
    rw [ih]
    constructor
    · rintro (⟨rest, hrest⟩ | ⟨hc, front, rest, rfl, hfront⟩)
      · exact ⟨[], rest, hrest.symm, List.not_mem_nil⟩
      · refine ⟨c :: front, rest, rfl, ?_⟩
        rw [List.mem_cons, not_or]
        exact ⟨Ne.symm hc, hfront⟩
    · rintro ⟨front, rest, hsplit, hfront⟩
      cases front with
      | nil => exact Or.inl ⟨rest, hsplit.symm⟩
      | cons d front =>
        obtain ⟨rfl, rfl⟩ := List.cons.inj hsplit
        rw [List.mem_cons, not_or] at hfront
        exact Or.inr ⟨Ne.symm hfront.1, front, rest, rfl, hfront.2⟩

theorem payloadAhead_foldCase : payloadAhead (t.map foldCase) ↔ EndsInMark t := by
  have hmark : ";base64".toList.all (· ∉ lookalikes) := by decide
  rw [payloadAhead_iff]
  constructor
  · rintro ⟨front, rest, hsplit, hfront⟩
    obtain ⟨before, after, rfl, hbefore, hafter⟩ := List.map_eq_append_iff.mp hsplit
    obtain ⟨front, mark, rfl, rfl, hspell⟩ := List.map_eq_append_iff.mp hbefore
    obtain ⟨c, rest, rfl, hc, rfl⟩ := List.map_eq_cons_iff.mp hafter
    obtain rfl : c = ',' := eq_of_foldCase rfl hc
    refine ⟨front, mark, rest, rfl, ?_, (map_foldCase_eq_iff hmark).mp hspell⟩
    rw [List.mem_append, not_or]
    refine ⟨fun hm => hfront ((mem_map_foldCase rfl rfl).mpr hm), fun hm => ?_⟩
    have hin := (mem_map_foldCase (l := ',') rfl rfl).mpr hm
    rw [hspell] at hin
    exact absurd hin (by decide)
  · rintro ⟨front, mark, rest, rfl, hcomma, hspell⟩
    rw [List.mem_append, not_or] at hcomma
    refine ⟨front.map foldCase, rest.map foldCase, ?_, fun hm => hcomma.1 ?_⟩
    · rw [← (map_foldCase_eq_iff hmark).mpr hspell]
      simp [foldCase]
    · exact (mem_map_foldCase rfl rfl).mp hm

theorem begins_scheme_iff :
    (∃ s ∈ schemes, (s ++ "://".toList).isPrefixOf (t.map foldCase)) ↔
      ∃ word ∈ ["php", "phar", "expect", "zip", "glob", "rar", "ogg", "compress.zlib",
        "compress.bzip2"], ∃ name rest, Spells word.toList name ∧ t = name ++ "://".toList ++ rest := by
  have hplain : ∀ s ∈ schemes, s.all (· ∉ lookalikes) := by decide
  simp only [schemes, List.mem_map, exists_exists_and_eq_and, List.isPrefixOf_iff_prefix]
  refine exists_congr fun word => and_congr_right fun hword => ?_
  have hletters := hplain word.toList (List.mem_map_of_mem hword)
  constructor
  · rintro ⟨more, hmore⟩
    obtain ⟨front, rest, rfl, hfront, _⟩ := List.map_eq_append_iff.mp hmore.symm
    obtain ⟨name, sign, rfl, hname, hsign⟩ := List.map_eq_append_iff.mp hfront
    obtain rfl : sign = "://".toList := eq_of_map_foldCase (by decide) hsign
    exact ⟨name, rest, (map_foldCase_eq_iff hletters).mp hname, rfl⟩
  · rintro ⟨name, rest, hname, rfl⟩
    refine ⟨rest.map foldCase, ?_⟩
    rw [List.map_append, List.map_append, (map_foldCase_eq_iff hletters).mpr hname]
    rfl

theorem begins_tunnel_iff :
    opensTunnel (t.map foldCase) ↔ ∃ front kind rest, Spells "ssh2.".toList front ∧ kind ≠ [] ∧
      (∀ c ∈ kind, IsLetter c) ∧ t = front ++ kind ++ "://".toList ++ rest := by
  have hplain : "ssh2.".toList.all (· ∉ lookalikes) := by decide
  rw [opensTunnel_iff]
  constructor
  · rintro ⟨letters, more, hsplit, hne, hletters⟩
    obtain ⟨opened, rest, rfl, hopened, _⟩ := List.map_eq_append_iff.mp hsplit
    obtain ⟨named, sign, rfl, hnamed, hsign⟩ := List.map_eq_append_iff.mp hopened
    obtain ⟨front, kind, rfl, hfront, rfl⟩ := List.map_eq_append_iff.mp hnamed
    obtain rfl : sign = "://".toList := eq_of_map_foldCase (by decide) hsign
    refine ⟨front, kind, rest, (map_foldCase_eq_iff hplain).mp hfront, ?_, ?_, rfl⟩
    · rintro rfl
      exact hne rfl
    · exact fun c hc => isSmallLetter_foldCase.mp (hletters _ (List.mem_map_of_mem hc))
  · rintro ⟨front, kind, rest, hfront, hne, hkind, rfl⟩
    refine ⟨kind.map foldCase, rest.map foldCase, ?_, by simpa using hne, ?_⟩
    · rw [List.map_append, List.map_append, List.map_append,
        (map_foldCase_eq_iff hplain).mpr hfront]
      rfl
    · intro d hd
      obtain ⟨c, hc, rfl⟩ := List.mem_map.mp hd
      exact isSmallLetter_foldCase.mpr (hkind c hc)

theorem begins_data_iff :
    opensData (t.map foldCase) ↔
      ∃ front rest, Spells "data:".toList front ∧ EndsInMark rest ∧ t = front ++ rest := by
  have hplain : "data:".toList.all (· ∉ lookalikes) := by decide
  unfold opensData
  constructor
  · intro h
    split at h
    next more hmore =>
      obtain ⟨front, rest, rfl, hfront, rfl⟩ :=
        List.map_eq_append_iff.mp (after?_eq_some_iff.mp hmore)
      exact ⟨front, rest, (map_foldCase_eq_iff hplain).mp hfront, payloadAhead_foldCase.mp h, rfl⟩
    next => simp at h
  · rintro ⟨front, rest, hfront, hrest, rfl⟩
    rw [List.map_append, (map_foldCase_eq_iff hplain).mpr hfront, after?_eq_some_iff.mpr rfl]
    exact payloadAhead_foldCase.mpr hrest

/-- A hazard opens in folded letters just where one begins in the letters as they are written. -/
theorem opens_foldCase : opens (t.map foldCase) ↔ Begins EndsInMark t := by
  simp only [opens, Bool.or_eq_true, List.any_eq_true, begins_scheme_iff, begins_tunnel_iff,
    begins_data_iff]
  constructor
  · rintro ((⟨word, hword, name, rest, hname, rfl⟩ | ⟨front, kind, rest, hfront, hne, hkind, rfl⟩) |
      ⟨front, rest, hfront, hrest, rfl⟩)
    · exact .scheme rest hword hname
    · exact .tunnel rest hfront hne hkind
    · exact .data hfront hrest
  · intro h
    cases h with
    | scheme rest hword hname => exact Or.inl (Or.inl ⟨_, hword, _, rest, hname, rfl⟩)
    | tunnel rest hfront hne hkind =>
      exact Or.inl (Or.inr ⟨_, _, rest, hfront, hne, hkind, rfl⟩)
    | data hfront hrest => exact Or.inr ⟨_, _, hfront, hrest, rfl⟩

theorem carried_iff_carries : carried t ↔ Carries EndsInMark t := by
  unfold carried
  rw [search_iff]
  constructor
  · rintro ⟨before, rest, hsplit, _, hlast, hopens⟩
    obtain ⟨before, rest, rfl, rfl, rfl⟩ := List.map_eq_append_iff.mp hsplit
    refine ⟨before, rest, rfl, fun c hc hin => ?_, opens_foldCase.mp hopens⟩
    have hfree := hlast (foldCase c) (by rw [List.getLast?_map, hc]; rfl)
    rw [inScheme_foldCase.mpr hin] at hfree
    cases hfree
  · rintro ⟨before, rest, rfl, hlast, hbegins⟩
    refine ⟨before.map foldCase, rest.map foldCase, List.map_append, fun _ => rfl, ?_,
      opens_foldCase.mpr hbegins⟩
    intro d hd
    rw [List.getLast?_map, Option.mem_def, Option.map_eq_some_iff] at hd
    obtain ⟨c, hc, rfl⟩ := hd
    exact Bool.eq_false_iff.mpr fun hin => hlast c hc (inScheme_foldCase.mp hin)

/-- Any text without a comma is a media type with parameters, and no other text is one. -/
theorem exists_parts_iff :
    (∃ parts, t = join [';'] parts ∧ parts ≠ [] ∧ ∀ part ∈ parts, ',' ∉ part ∧ ';' ∉ part) ↔
      ',' ∉ t := by
  constructor
  · rintro ⟨parts, rfl, _, hparts⟩ hcomma
    rcases mem_of_mem_join hcomma with hmark | ⟨part, hpart, hin⟩
    · exact absurd hmark (by decide)
    · exact (hparts part hpart).1 hin
  · intro hcomma
    refine ⟨pieces ';' t, (join_pieces ';' t).symm, pieces_ne_nil ';' t, fun part hpart => ?_⟩
    exact ⟨fun hin => hcomma (mem_of_mem_pieces hpart hin), not_mem_of_mem_pieces hpart⟩

theorem endsInMark_iff : EndsInMark t ↔ ParametersThenMark t := by
  constructor
  · rintro ⟨front, mark, rest, rfl, hcomma, hmark⟩
    rw [List.mem_append, not_or] at hcomma
    obtain ⟨parts, rfl, hne, hparts⟩ := exists_parts_iff.mpr hcomma.1
    exact ⟨parts, mark, rest, rfl, hne, hparts, hmark⟩
  · rintro ⟨parts, mark, rest, rfl, hne, hparts, hmark⟩
    have hfront : ',' ∉ join [';'] parts := exists_parts_iff.mp ⟨parts, rfl, hne, hparts⟩
    have hspelled := (map_foldCase_eq_iff (by decide)).mpr hmark
    refine ⟨_, mark, rest, rfl, ?_, hmark⟩
    rw [List.mem_append, not_or]
    refine ⟨hfront, fun hin => ?_⟩
    rw [← mem_map_foldCase rfl rfl, hspelled] at hin
    exact absurd hin (by decide)

/-- A text is held to carry a hazard just where one of the schemes begins outside a longer name,
whether the payload of `data:` is told by the text up to the first comma or parameter by parameter.
What is hazardous stays so whatever is put behind it, and whatever is put in front that does not
end inside a name. -/
theorem carried_iff_language (t : Text) :
    (carried t ↔ Carries EndsInMark t) ∧ (carried t ↔ Carries ParametersThenMark t) ∧
    (carried t → ∀ after, carried (t ++ after)) ∧
    (carried t → ∀ before, (∀ c ∈ before.getLast?, ¬InName c) → carried (before ++ t)) := by
  have hpayload : EndsInMark = ParametersThenMark := funext fun _ => propext endsInMark_iff
  refine ⟨carried_iff_carries, hpayload ▸ carried_iff_carries, fun h after => carried_append after h,
    fun h before hlast => carried_prepend (fun c hc => ?_) h⟩
  exact Bool.eq_false_iff.mpr fun hin => hlast c hc (inScheme_foldCase.mp hin)

/-- A type without a name, an empty parameter and a mark in mixed letters, one of them a long s; the
scheme stands behind a blank. -/
theorem carried_iff_language_parameters :
    let payload := ";;a=1;Ba\u017FE64,x".toList
    let t := "x DATA:".toList ++ payload
    carried t ∧ ParametersThenMark payload ∧ Carries EndsInMark t ∧
      ¬InName '/' ∧ carried ('/' :: t) ∧ InName '\u212A' ∧ carried ('\u212A' :: t.drop 2) = false := by
  intro payload t
  have hcarried : carried t := by decide
  have hname : ¬InName '/' := by
    rw [← inScheme_foldCase]
    decide
  have hspells : Spells ";base64".toList ";Ba\u017FE64".toList :=
    (map_foldCase_eq_iff (by decide)).mp (by decide)
  have hpayload : ParametersThenMark payload :=
    ⟨[[], [], "a=1".toList], ";Ba\u017FE64".toList, ['x'], by decide, by decide, by decide, hspells⟩
  obtain ⟨hlanguage, _, _, hbefore⟩ := carried_iff_language t
  exact ⟨hcarried, hpayload, hlanguage.mp hcarried, hname,
    hbefore hcarried ['/'] (by simpa using hname), inScheme_foldCase.mp (by decide), by decide⟩

end Hazard

end EnvFile
