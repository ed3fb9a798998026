import EnvFile.Proofs.AssignedKeys
import EnvFile.Proofs.Chains
import EnvFile.Proofs.Gathering
import EnvFile.Proofs.LoadingSteps
import EnvFile.Proofs.SkippedLines
import EnvFile.Proofs.WrittenScalars

namespace EnvFile

/-- A fault that a load is meant to end with. A tolerant one passes over those of files and lines. -/
def Fault.isOfLoads (tolerant : Bool) : Fault → Bool
  | access .. | noFile .. | malformed _ => !tolerant
  | fault => fault.isOfExpansion

/-- A value that something can be made of where a text is needed. -/
def Value.HasText (v : Value) : Prop := ∃ t, v.splice = .ok t

namespace Scope

variable {s : Scope} {chain : List Text} {call : Call} {visits more : List Visit} {fault : Fault}
  {key draft : Text}

/-- A name is looked up that only a draft says something about, and the draft expands to an integer
with too many digits. -/
inductive Overlongs (s : Scope) (fault : Fault) : Visit → Prop
  | lookUp {chain name draft t} : s.value? name = none → s.drafts.get? name = some draft →
      s.resolve (chain ++ [name]) draft = .ok t → Value.Overlong t fault →
      Overlongs s fault ⟨chain, .lookUp name⟩

/-- A fault is meant for expansions, or comes from such a look-up among some visits. -/
def Explains (s : Scope) (fault : Fault) (visits : List Visit) : Prop :=
  fault.isOfExpansion ∨ ∃ v ∈ visits, s.Overlongs fault v

theorem Explains.mono (h : s.Explains fault visits) (hsub : visits ⊆ more) :
    s.Explains fault more := by
  refine h.imp_right ?_
  rintro ⟨v, hv, hlong⟩
  exact ⟨v, hsub hv, hlong⟩

theorem Explains.of_expand {t : Text} (h : s.Explains fault (⟨chain, .expand t⟩ :: visits)) :
    s.Explains fault visits := by
  refine h.imp_right ?_
  rintro ⟨v, hv, hlong⟩
  rcases List.mem_cons.mp hv with rfl | hv
  · cases hlong
  · exact ⟨v, hv, hlong⟩

/-- What a draft expands to has a text, unless it is an integer with too many digits. -/
theorem overlongs_of_drafted {name : Text} {t : Option Text} (hv : s.value? name = none)
    (hd : s.drafts.get? name = some draft)
    (ht : s.answer (chain ++ [name]) (.expand draft) = .ok t)
    (h : (Value.ofText (t.getD []) >>= fun v => v.splice.map some) = .error fault) :
    s.Overlongs fault ⟨chain, .lookUp name⟩ := by
  obtain ⟨u, hu, rfl⟩ := Results.map_eq_ok.mp ht
  rcases Results.bind_eq_error.mp h with h | ⟨v, hread, h⟩
  · exact .lookUp hv hd hu (Value.ofText_fails u fault h)
  · obtain ⟨w, hw⟩ := Value.splice_of_ofText hread
    simp [hw, Except.map] at h

/-- Among values that have texts, the visits of a run explain its fault. -/
theorem Runs.explains (hs : ∀ name v, s.value? name = some v → v.HasText)
    {r : Except Fault (Option Text)} (h : s.Runs chain call r visits) (hr : r = .error fault) :
    s.Explains fault (⟨chain, call⟩ :: visits) := by
  have hscreen {chain : List Text} {name t : Text}
      (h : (screen chain name t).map some = .error fault) : fault.isOfExpansion :=
    screen_fails (fun _ h => h) chain name t fault (Results.map_eq_error.mp h)
  induction h with
  | nil => cases hr
  | literal _ _ ih => exact (ih (Results.map_eq_error.mp hr)).of_expand.mono (List.subset_cons_self ..)
  | nothing _ _ ih => exact (ih (Results.map_eq_error.mp hr)).of_expand.mono (List.subset_cons_self ..)
  | broken _ =>
    cases hr
    exact Or.inl rfl
  | failed _ _ ih => exact (ih hr).mono (List.subset_cons_self ..)
  | replaced _ _ _ _ ih =>
    refine (ih (Results.map_eq_error.mp hr)).of_expand.mono ?_
    exact List.subset_cons_of_subset _ (List.subset_append_right ..)
  | recursive _ | tooDeep _ _ =>
    cases hr
    exact Or.inl rfl
  | unfound _ _ _ ih => exact (ih hr).mono (List.subset_cons_self ..)
  | taken => exact Or.inl (hscreen hr)
  | missing =>
    cases hr
    exact Or.inl rfl
  | argument _ _ _ _ _ _ ih =>
    rcases Results.bind_eq_error.mp hr with hr | ⟨t, _, hr⟩
    · refine (ih hr).mono ?_
      exact List.subset_cons_of_subset _ (List.subset_append_right ..)
    · exact Or.inl (hscreen hr)
  | known hv =>
    obtain ⟨t, ht⟩ := hs _ _ hv
    simp [ht, Except.map] at hr
  | drafted hv hd hruns ih =>
    rcases Results.bind_eq_error.mp hr with hr | ⟨t, ht, hr⟩
    · exact (ih hr).mono (List.subset_cons_self ..)
    · rw [hruns.eq_answer] at ht
      exact Or.inr ⟨_, List.mem_cons_self, overlongs_of_drafted hv hd ht hr⟩
  | absent => cases hr

/-- The text of a key expands to an integer with too many digits, or meets a draft that does. -/
inductive ReadsOverlong (s : Scope) (key draft : Text) (fault : Fault) : Prop
  | itself {t} : s.expand (some key) draft = .ok t → Value.Overlong t fault →
      ReadsOverlong s key draft fault
  | referred {visits v} : s.Runs (start (some key)) (.expand draft) (.error fault) visits →
      v ∈ visits → s.Overlongs fault v → ReadsOverlong s key draft fault

theorem value_fails_overlong (hs : ∀ name v, s.value? name = some v → v.HasText)
    (h : Listing.value s key draft = .error fault) :
    fault.isOfExpansion ∨ s.ReadsOverlong key draft fault := by
  rcases Results.bind_eq_error.mp h with hexpand | ⟨t, hexpand, h⟩
  · obtain ⟨visits, hruns⟩ := exists_runs_expand s (start (some key)) draft
    rw [answer, ← expand_eq_resolve, hexpand] at hruns
    refine (hruns.explains hs rfl).of_expand.imp_right ?_
    rintro ⟨v, hv, hlong⟩
    exact .referred hruns hv hlong
  · split at h
    · cases h
      exact Or.inl rfl
    · split at h
      · cases h
      · exact Or.inr (.itself hexpand (Value.ofText_fails t fault h))

end Scope

namespace Listing

/-- A wanted line, before which `staged` has been read, has a text that reads as an integer with too
many digits. -/
def MeetsOverlong (cache ambient : Table Text Value) (m : Manner) (lines : List Text) (fault : Fault) :
    Prop :=
  ∃ before line after staged key draft, lines = before ++ line :: after ∧
    (entriesFrom (scopeAfter cache ambient lines ∅) m 1 before ∅).1 = .ok staged ∧
    Line.ofText line = .declaration key draft ∧ m.filter.admits key ∧
    (scopeAfter cache ambient lines staged).ReadsOverlong key draft fault

variable {cache ambient staged : Table Text Value} {m : Manner} {lines : List Text} {fault : Fault}

theorem hasText_of_value? (hs : staged.All Value.HasText) (hc : cache.All Value.HasText)
    (ha : ambient.All Value.HasText) {name : Text} {v : Value}
    (h : (scopeAfter cache ambient lines staged).value? name = some v) : v.HasText := by
  rcases Option.or_eq_some_iff.mp h with h | ⟨_, h⟩
  · exact hs name v h
  rcases Option.or_eq_some_iff.mp h with h | ⟨_, h⟩
  · exact hc name v h
  · exact ha name v h

/-- Lines fail at one that is broken and may not be skipped, at one that cannot be expanded, or at one
that has too long an integer. -/
theorem entries_fails (hc : cache.All Value.HasText) (ha : ambient.All Value.HasText)
    (h : (entries cache ambient m lines).1 = .error fault) :
    (m.tolerant = false ∧ ∃ report, fault = .malformed report) ∨ fault.isOfExpansion ∨
      MeetsOverlong cache ambient m lines fault := by
  rcases course (scopeAfter cache ambient lines ∅) m 1 lines ∅ with
    ⟨values, hall⟩ | ⟨before, line, after, staged, fault', hsplit, hbefore, hstop, hall⟩
  · have hvalues := (congrArg Prod.fst hall).symm.trans h
    simp at hvalues
  · obtain rfl : fault' = fault := Except.error.inj ((congrArg Prod.fst hall).symm.trans h)
    have hread := congrArg Prod.fst hbefore
    have hstaged : staged.All Value.HasText :=
      forall_of_entriesFrom splice_of_value (Table.all_empty _) hread
    cases hstop with
    | broken ht _ => exact Or.inl ⟨ht, _, rfl⟩
    | faulty hl hadmits hv =>
      refine Or.inr ((Scope.value_fails_overlong (fun _ _ => hasText_of_value? hstaged hc ha) hv).imp_right
        fun hlong => ?_)
      exact ⟨before, line, after, staged, _, _, hsplit, hread, hl, hadmits, hlong⟩

end Listing

namespace Registry

/-- A registry whose values have texts, among variables that are texts and take any. -/
structure Plain (r : Registry) : Prop where
  cached : r.cache.All Value.HasText
  ambient : r.ambient.table.All fun v => ∃ t, v = .text t
  unguarded : r.ambient.guarded = false

variable {r s : Registry} {files : FileTree} {m : LoadMode} {p : Path} {fault : Fault}

theorem plain_fresh (roots names : List Text) (publishing keepsLines : Bool)
    (texts : Table Text Text) :
    (fresh roots names publishing keepsLines ∅ (.plain (texts.map .text))).Plain where
  cached := Table.all_empty _
  ambient := Table.all_map (fun t => ⟨t, rfl⟩) texts
  unguarded := rfl

/-- It stays such a one, whatever it loads. -/
theorem plain_outlasts (files : FileTree) : Outlasts Plain files where
  linesAt _ _ hr := ⟨hr.cached, hr.ambient, hr.unguarded⟩
  commit {r _ _ _ values} he hr := by
    have hvalues := Listing.splice_of_entries he
    have htexts : values.All Value.HasText := fun key v hkey =>
      hvalues (key, v) (Table.mem_entries_iff.mpr hkey)
    obtain ⟨owned, published, hcommit⟩ := commit_plain hr.unguarded hvalues
    rw [hcommit]
    refine ⟨hr.cached.insertAll htexts, ?_, ?_⟩
    · simp only
      split
      next => exact hr.ambient.insertAll (Table.all_map (fun v => ⟨_, rfl⟩) values)
      next => exact hr.ambient
    · simp only
      split
      next => rfl
      next => exact hr.unguarded
  forgetLines hr := ⟨hr.cached, hr.ambient, hr.unguarded⟩
  mark hr := ⟨hr.cached, hr.ambient, hr.unguarded⟩
  unload hr := ⟨hr.cached.eraseAll _, hr.ambient.eraseAll _, hr.unguarded⟩

theorem Outlasts.absorb {P : Registry → Prop} (hP : Outlasts P files) (hr : P r)
    (h : r.absorb files m p = .ok s) : P s := by
  have hread := hP.linesAt (Path.ofText p.toText) m.useKept hr
  rcases absorb_eq_ok h with rfl | ⟨lines, t, values, hl, hvalues, rfl⟩
  · exact hread
  · rw [hl] at hread
    exact hP.commit hvalues hread

/-- Something that a file declares is expanded to an integer with too many digits. -/
def MeetsOverlong (r : Registry) (files : FileTree) (m : LoadMode) (p : Path) (fault : Fault) : Prop :=
  ∃ lines, (r.linesAt files p m.useKept).1 = .ok lines ∧
    Listing.MeetsOverlong r.cache r.ambient.table ⟨m.filter, m.tolerant, p.toText⟩ lines fault

theorem absorb_fails (hr : r.Plain) (hp : p.Regular) (h : r.absorb files m p = .error fault) :
    fault.isOfLoads m.tolerant ∨
      files.LookUpFails p fault ∨ r.MeetsOverlong files m p fault := by
  have hpath := Path.ofText_toText hp
  rcases absorb_eq_error h with hlong | ⟨ht, path, reason, rfl⟩ | ⟨lines, t, hl, hentries⟩
  · rw [hpath] at hlong
    exact Or.inr (Or.inl hlong)
  · exact Or.inl (by simpa [Fault.isOfLoads] using ht)
  · obtain ⟨_, _, hcache, hambient⟩ := exists_of_linesAt hl
    rw [entriesIn, hcache, hambient] at hentries
    have htexts : r.ambient.table.All Value.HasText := by
      intro key v hkey
      obtain ⟨t, rfl⟩ := hr.ambient key v hkey
      exact ⟨t, rfl⟩
    rcases Listing.entries_fails hr.cached htexts hentries with
      ⟨ht, report, rfl⟩ | hexpansion | hlong
    · exact Or.inl (by simpa [Fault.isOfLoads] using ht)
    · refine Or.inl ?_
      cases fault with
      | access | noFile | malformed => simp [Fault.isOfExpansion] at hexpansion
      | _ => exact hexpansion
    · rw [hpath] at hl
      exact Or.inr (Or.inr ⟨lines, congrArg Prod.fst hl, hlong⟩)

end Registry

namespace LoadCall

variable {c : LoadCall} {r s : Registry} {files : FileTree} {fault : Fault} {notices : List Notice}

theorem outlasts_prepare {P : Registry → Prop} (hP : Registry.Outlasts P files) (hr : P r)
    (c : LoadCall) : P (c.prepare r) := by
  cases c with
  | load _ force _ =>
    cases force with
    | true => exact hP.forgetLines hr
    | false => exact hr
  | loadSome _ reset =>
    cases reset with
    | true => exact hP.unload hr
    | false => exact hr

/-- A call that loads fails as it is meant to, unless a path cannot be looked up, or a line of a file
reads as an integer with too many digits. -/
theorem perform_fails (hr : r.Plain) (h : c.perform r files = (.error fault, s, notices)) :
    fault.isOfLoads c.mode.tolerant ∨
    (∃ p ∈ r.present files, files.LookUpFails p fault) ∨
    ∃ before p after t, r.present files = before ++ p :: after ∧
      before.foldlM (Registry.absorb files c.mode) (c.prepare r) = .ok t ∧
      t.MeetsOverlong files c.mode p fault := by
  obtain ⟨told, h⟩ := loadFiles_of_perform h
  have hplain := outlasts_prepare (Registry.plain_outlasts files) hr c
  rw [← present_prepare c r files]
  generalize c.prepare r = start at h hplain ⊢
  rcases start.loadFiles_cases files c.mode with ⟨_, hload⟩ | ⟨_, hload⟩
  · rw [h] at hload
    split at hload
    next => simp at hload
    next ht =>
      cases hload
      exact Or.inl (by simpa [Fault.isOfLoads] using ht)
  · rw [h] at hload
    rcases Registry.loadEach_cases files c.mode hplain.unguarded
        (fun _ => Registry.regular_of_mem_paths) with
      ⟨_, _, _, heach⟩ | ⟨before, p, after, t, _, _, _, hsplit, hfold, hfail, heach, _⟩
    · rw [heach] at hload
      simp at hload
    · rw [heach] at hload
      cases hload
      have hmem : p ∈ start.present files := by
        rw [Registry.present, hsplit]
        simp
      have hregular := Registry.regular_of_mem_paths (List.mem_filter.mp hmem).1
      have ht : t.Plain := Results.foldlM_preserves
        (fun hs hnext => (Registry.plain_outlasts files).absorb hs hnext) hplain hfold
      rcases Registry.absorb_fails ht hregular hfail with hmeant | hlong | hlong
      · exact Or.inl hmeant
      · exact Or.inr (Or.inl ⟨p, hmem, hlong⟩)
      · exact Or.inr (Or.inr ⟨before, p, after, t, hsplit, hfold, hlong⟩)

/-- A registry that has loaded a file meets a hazard in the next one. -/
theorem perform_fails_reloaded :
    let r := (Registry.rooted.load (FileTree.holding "A=php\n".toList) [] false true).2.1
    let files := FileTree.holding "oops\nB=${A}://x\n".toList
    let c := load ["B".toList] true true
    let fault := Fault.dangerous (some "B".toList)
    r.cache = .ofList [("A".toList, .text "php".toList)] ∧ r.Plain ∧
    ∃ s notices, c.perform r files = (.error fault, s, notices) ∧
      (fault.isOfLoads true ∨
        (∃ p ∈ r.present files, files.LookUpFails p fault) ∨
        ∃ before p after t, r.present files = before ++ p :: after ∧
          before.foldlM (Registry.absorb files c.mode) (c.prepare r) = .ok t ∧
          t.MeetsOverlong files c.mode p fault) := by
  intro r files c fault
  have hplain : r.Plain :=
    (Registry.plain_outlasts (FileTree.holding "A=php\n".toList)).load [] false true
      (Registry.plain_fresh ["/".toList] [baseName] false true ∅)
  have hfault : (c.perform r files).1 = .error fault := by decide +kernel
  have hperform : c.perform r files =
      (.error fault, (c.perform r files).2.1, (c.perform r files).2.2) := Prod.ext hfault rfl
  exact ⟨by decide +kernel, hplain, _, _, hperform, perform_fails hplain hperform⟩

end LoadCall

namespace Listing

theorem value_ones {n : Nat} (hn : Fault.digitLimit < n) (s : Scope) (key : Text) :
    value s key (List.replicate n '1') = .error (.numeralTooLong n) := by
  have htoken : Text.IsToken (List.replicate n '1') :=
    Text.isToken_of_digits (Text.isDigit_of_mem_ones n) false
  have hplain : Template.Plain (List.replicate n '1') := Template.plain_of_not_mem (by simp)
  refine Results.bind_eq_error.mpr (Or.inr ⟨_, s.expand_of_plain _ hplain, ?_⟩)
  rw [Value.carried_of_token htoken, Value.ofText_of_overlong (Value.overlong_ones hn)]
  simp

theorem entries_ones {n : Nat} (hn : Fault.digitLimit < n) (path : Text) (tolerant : Bool) :
    (entries ∅ ∅ ⟨.all, tolerant, path⟩ (Text.lines ('A' :: '=' :: List.replicate n '1'))).1 =
      .error (.numeralTooLong n) := by
  have htoken : Text.IsToken (List.replicate n '1') :=
    Text.isToken_of_digits (Text.isDigit_of_mem_ones n) false
  have hones := (Value.restorable_of_token htoken).oneLine
  have hline : Line.ofText (['A'] ++ '=' :: List.replicate n '1') = _ :=
    ofText_of_restorable rfl (Value.restorable_of_token htoken) (Value.written_of_token htoken)
  rw [htoken.trim] at hones hline
  have hlines : Text.lines ('A' :: '=' :: List.replicate n '1') =
      ['A' :: '=' :: List.replicate n '1'] :=
    Text.lines_of_not_endsLine (List.forall_mem_cons.mpr ⟨rfl, List.forall_mem_cons.mpr ⟨rfl, hones⟩⟩)
      (List.cons_ne_nil _ _)
  rw [List.singleton_append] at hline
  rw [hlines, entries, entriesFrom, hline]
  simp [KeyFilter.admits, value_ones hn]

end Listing

theorem Registry.load_ones {n : Nat} (hn : Fault.digitLimit < n) (tolerant : Bool) :
    ∃ b told, rooted.load (FileTree.holding ('A' :: '=' :: List.replicate n '1')) [] false tolerant =
      (.error (.numeralTooLong n), b, told) :=
  load_holding_of_fault (by simp) rfl (Listing.entries_ones hn FileTree.envPath.toText tolerant)

/-- An integer with too many digits, a file name that is too long, or a directory that may not be
searched is more than a tolerant load passes over. -/
theorem LoadCall.perform_fails_otherwise :
    let name := List.replicate 256 'x'
    let r := Registry.fresh ["/".toList] [name] false true ∅ (.plain ∅)
    let s := Registry.fresh ["/d".toList] [baseName] false true ∅ (.plain ∅)
    let closed := (FileTree.bare ⟨['/'], ["d".toList]⟩).forbidSearching (.ofText "/d".toList)
    Registry.rooted.Plain ∧ r.Plain ∧ s.Plain ∧
    (∃ after notices, (load [] false true).perform Registry.rooted
        (FileTree.holding ('A' :: '=' :: List.replicate 4301 '1')) =
      (.error (.numeralTooLong 4301), after, notices)) ∧
    (Fault.numeralTooLong 4301).isOfLoads true = false ∧
    (∃ after notices, (load [] false true).perform r (FileTree.holding []) =
      (.error (.pathTooLong ('/' :: name)), after, notices)) ∧
    (Fault.pathTooLong ('/' :: name)).isOfLoads true = false ∧
    (∃ after notices, (load [] false true).perform s closed =
      (.error (.pathForbidden "/d/.env".toList), after, notices)) ∧
    (Fault.pathForbidden "/d/.env".toList).isOfLoads true = false := by
  intro name r s closed
  have hname : ((load [] false true).perform r (FileTree.holding [])).1 =
      .error (.pathTooLong ('/' :: name)) := by decide +kernel
  have hclosed : ((load [] false true).perform s closed).1 =
      .error (.pathForbidden "/d/.env".toList) := by decide +kernel
  rcases hr : (load [] false true).perform r (FileTree.holding []) with ⟨result, after, notices⟩
  rcases hs : (load [] false true).perform s closed with ⟨result', after', notices'⟩
  rw [hr] at hname
  rw [hs] at hclosed
  obtain rfl : result = _ := hname
  obtain rfl : result' = _ := hclosed
  have hlong : Fault.digitLimit < 4301 := by decide
  have hones := Registry.load_ones hlong true
  exact ⟨Registry.plain_fresh ["/".toList] [baseName] false true ∅,
    Registry.plain_fresh ["/".toList] [name] false true ∅,
    Registry.plain_fresh ["/d".toList] [baseName] false true ∅, hones, rfl,
    ⟨after, notices, rfl⟩, rfl, ⟨after', notices', rfl⟩, rfl⟩

end EnvFile
