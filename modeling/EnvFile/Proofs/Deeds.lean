import EnvFile.Proofs.FailedAssignments
import EnvFile.Proofs.LoadingSteps
import EnvFile.Proofs.WholeFiles

namespace EnvFile

/-- What a registry does to what it holds. -/
inductive Deed
  /-- It takes the values of a file over and publishes some of them. -/
  | take (values : Table Text Value) (shown : List (Text × Text))
  /-- It caches a value of its caller and publishes it, unless the list is empty. -/
  | hold (key : Text) (v : Value) (shown : List (Text × Text))
  | clear (key : Text)
  | unload
  | clearAll

namespace Ambient

/-- The texts of entries that the table takes one after another, up to the first that it refuses. -/
def accepted (a : Ambient) : List (Text × Value) → List (Text × Text)
  | [] => []
  | (key, v) :: es =>
    match v.splice with
    | .error _ => []
    | .ok t =>
      match a.publish key t with
      | .error _ => []
      | .ok b => (key, t) :: b.accepted es

end Ambient

namespace Registry

namespace Holdings

/-- Texts put into the ambient table, with their keys remembered. -/
def publish (h : Holdings) (shown : List (Text × Text)) : Holdings :=
  { h with
    ambient := { h.ambient with
      table := shown.foldl (fun t e => t.insert e.1 (.text e.2)) h.ambient.table }
    published := shown.foldl (fun ks e => ks.insert e.1) h.published }

def after (h : Holdings) : Deed → Holdings
  | .take values shown =>
    { h with
      cache := h.cache.insertAll values
      owned := values.keys.foldl (fun ks k => ks.insert k) h.owned }.publish shown
  | .hold key v shown => { h with cache := h.cache.insert key v }.publish shown
  | .clear key =>
    ⟨h.cache.erase key, if key ∈ h.published then h.ambient.erase key else h.ambient,
      h.owned.filter (· ≠ key), h.published.filter (· ≠ key)⟩
  | .unload => ⟨h.cache.eraseAll h.owned, h.ambient.eraseAll h.published, [], []⟩
  | .clearAll => ⟨∅, h.ambient.eraseAll h.published, [], []⟩

end Holdings

/-- What becomes public of entries that are published in order. -/
def shown (r : Registry) (es : List (Text × Value)) : List (Text × Text) :=
  if r.publishing then r.ambient.accepted es else []

def fileDeeds (r : Registry) (files : FileTree) (m : LoadMode) (p : Path) : List Deed :=
  match r.linesAt files p m.useKept with
  | (.error _, _) => []
  | (.ok lines, r) =>
    match (r.entriesIn m p.toText lines).1 with
    | .error _ => []
    | .ok values => [.take values (r.shown values.entries)]

def eachDeeds (r : Registry) (files : FileTree) (m : LoadMode) : List Path → List Deed
  | [] => []
  | p :: ps =>
    match files.isPresent p with
    | .error _ => []
    | .ok false => r.eachDeeds files m ps
    | .ok true =>
      match r.loadFile files m p with
      | (.error _, _, _) => r.fileDeeds files m p
      | (.ok (), s, _) => r.fileDeeds files m p ++ s.eachDeeds files m ps

def loadDeeds (r : Registry) (files : FileTree) (keys : List Text) (force tolerant : Bool) :
    List Deed :=
  if r.loaded && !force then []
  else
    let r := if force then r.forgetLines else r
    let filter := if keys.isEmpty then .all else .among keys
    r.eachDeeds files ⟨filter, tolerant, !force⟩ r.paths

def holdDeed (r : Registry) (key : Text) (v : Value) : Deed := .hold key v (r.shown [(key, v)])

end Registry

/-- What an operation does to what a registry holds, in order, whether it fails in the end or not. -/
def Operation.deeds (o : Operation) (r : Registry) (files : FileTree) : List Deed :=
  match o with
  | load keys force tolerant => r.loadDeeds files keys force tolerant
  | loadSome filter reset =>
    if reset then .unload :: r.unload.eachDeeds files ⟨filter, false, true⟩ r.paths
    else r.eachDeeds files ⟨filter, false, true⟩ r.paths
  | unload => [.unload]
  | reload => .unload :: r.unload.loadDeeds files [] true false
  | clear key => [.clear key]
  | clearAll => [.clearAll]
  | assign key v =>
    match Registry.objection? (Text.trim key) v, v.settle with
    | none, .ok w => [r.holdDeed (Text.trim key) w]
    | _, _ => []
  | valueOr key default =>
    match r.value? key, Registry.vetted key default with
    | .ok none, .ok w => [r.holdDeed key w]
    | _, _ => []
  | put key v =>
    match Registry.vetted key v with
    | .ok w => [.hold key w []]
    | .error _ => []
  | value _ | values | rename _ | setPublishing _ => []

namespace Registry

variable {r s : Registry} {files : FileTree}

theorem holdings_publishAll (r : Registry) (es : List (Text × Value)) :
    (r.publishAll es).2.holdings = r.holdings.publish (r.shown es) := by
  induction es generalizing r with
  | nil =>
    have hnone : r.shown [] = [] := by simp [shown, Ambient.accepted]
    rw [hnone]
    rfl
  | cons e es ih =>
    unfold publishAll
    cases hp : r.publish e.1 e.2 with
    | error fault =>
      have hnone : r.shown (e :: es) = [] := by
        unfold publish at hp
        unfold shown
        split at hp
        next hpublishing =>
          rw [if_pos hpublishing, Ambient.accepted]
          rcases Results.bind_eq_error.mp hp with ht | ⟨t, ht, hp⟩
          · rw [ht]
          · rw [ht]
            rcases Results.bind_eq_error.mp hp with ha | ⟨_, _, hp⟩
            · simp only [ha]
            · simp at hp
        next => simp at hp
      rw [hnone]
      rfl
    | ok s =>
      simp only
      rw [ih]
      unfold publish at hp
      unfold shown
      split at hp
      next hpublishing =>
        obtain ⟨t, ht, hp⟩ := Results.bind_eq_ok.mp hp
        obtain ⟨ambient, ha, hp⟩ := Results.bind_eq_ok.mp hp
        cases hp
        simp only [if_pos hpublishing, Ambient.accepted, ht, ha]
        obtain rfl := Ambient.eq_of_publish ha
        rfl
      next hpublishing =>
        cases hp
        simp only [if_neg hpublishing]

theorem holdings_commit (r : Registry) (values : Table Text Value) :
    (r.commit values).2.holdings = r.holdings.after (.take values (r.shown values.entries)) :=
  holdings_publishAll _ values.entries

theorem holdings_linesAt {p : Path} {useKept : Bool} {lines : Except Fault (List Text)}
    (h : r.linesAt files p useKept = (lines, s)) : s.holdings = r.holdings := by
  cases h
  rfl

theorem holdings_loadFile (r : Registry) (files : FileTree) (m : LoadMode) (p : Path) :
    (r.loadFile files m p).2.1.holdings = (r.fileDeeds files m p).foldl .after r.holdings := by
  unfold loadFile fileDeeds
  rcases hl : r.linesAt files p m.useKept with ⟨fault | lines, s⟩
  · have hsame := holdings_linesAt hl
    simp only
    split
    next => exact hsame
    next => exact hsame
  · have hsame := holdings_linesAt hl
    simp only
    rcases s.entriesIn m p.toText lines with ⟨fault | values, notices⟩
    · exact hsame
    · have hcommit := holdings_commit s values
      rw [hsame] at hcommit
      simp only
      split
      next hc =>
        rw [hc] at hcommit
        exact hcommit
      next hc =>
        rw [hc] at hcommit
        exact hcommit

theorem holdings_loadEach (r : Registry) (files : FileTree) (m : LoadMode) (ps : List Path) :
    (r.loadEach files m ps).2.1.holdings = (r.eachDeeds files m ps).foldl .after r.holdings := by
  induction ps generalizing r with
  | nil => rfl
  | cons p ps ih =>
    unfold loadEach eachDeeds
    rcases files.isPresent p with fault | _ | _
    · rfl
    · exact ih r
    · have hfile := holdings_loadFile r files m p
      rcases hl : r.loadFile files m p with ⟨fault | _, s, notices⟩
      · rw [hl] at hfile
        exact hfile
      · rw [hl] at hfile
        simp only [List.foldl_append, ← hfile]
        exact ih s

theorem eachDeeds_of_isAbsent {m : LoadMode} {ps : List Path}
    (h : ps.all files.isAbsent) : r.eachDeeds files m ps = [] := by
  induction ps with
  | nil => rfl
  | cons p ps ih =>
    rw [List.all_cons, Bool.and_eq_true] at h
    have hp : files.isPresent p = .ok false := by
      have habsent := h.1
      unfold FileTree.isAbsent at habsent
      split at habsent
      next hp => exact hp
      next => simp at habsent
    unfold eachDeeds
    rw [hp]
    exact ih h.2

theorem holdings_loadFiles (r : Registry) (files : FileTree) (m : LoadMode) :
    (r.loadFiles files m).2.1.holdings = (r.eachDeeds files m r.paths).foldl .after r.holdings := by
  unfold loadFiles
  split
  next h =>
    rw [eachDeeds_of_isAbsent h]
    split
    next => rfl
    next => rfl
  next => exact holdings_loadEach r files m r.paths

theorem holdings_load (r : Registry) (files : FileTree) (keys : List Text) (force tolerant : Bool) :
    (r.load files keys force tolerant).2.1.holdings =
      (r.loadDeeds files keys force tolerant).foldl .after r.holdings := by
  unfold loadDeeds
  split
  next hdone =>
    rw [load, if_pos hdone]
    rfl
  next hruns =>
    have hsame : (if force then r.forgetLines else r).holdings = r.holdings := by
      cases force with
      | true => rfl
      | false => rfl
    have hloads := holdings_loadFiles (if force then r.forgetLines else r) files
      ⟨if keys.isEmpty then .all else .among keys, tolerant, !force⟩
    rw [hsame] at hloads
    rw [load_of_runs (Bool.eq_false_iff.mpr hruns) files]
    split
    next hl =>
      rw [hl] at hloads
      exact hloads
    next => exact hloads

/-- A value that is cached, and published as far as that goes. -/
theorem holdings_hold (r : Registry) (key : Text) (v : Value) :
    ((r.caching key v).publishAll [(key, v)]).2.holdings = r.holdings.after (r.holdDeed key v) :=
  holdings_publishAll (r.caching key v) [(key, v)]

theorem publishAll_singleton (r : Registry) (key : Text) (v : Value) :
    (r.publishAll [(key, v)]).2 = match r.publish key v with
      | .error _ => r
      | .ok s => s := by
  unfold publishAll
  cases r.publish key v with
  | error fault => rfl
  | ok s => rfl

theorem holdings_assign (r : Registry) (files : FileTree) (writesAllowed : Bool) (key : Text)
    (v : Value) : (r.assign files writesAllowed key v).2.1.holdings =
      ((Operation.assign key v).deeds r files).foldl .after r.holdings := by
  unfold assign Operation.deeds
  simp only
  cases objection? (Text.trim key) v with
  | some fault => rfl
  | none =>
    cases v.settle with
    | error fault => rfl
    | ok w =>
      have hhold := holdings_hold r (Text.trim key) w
      rw [publishAll_singleton] at hhold
      simp only [List.foldl_cons, List.foldl_nil, ← hhold, caching]
      cases ({ r with cache := r.cache.insert (Text.trim key) w } : Registry).publish
        (Text.trim key) w with
      | error fault => rfl
      | ok s =>
        simp only
        split
        next => rfl
        next => rfl

theorem holdings_valueOr (r : Registry) (files : FileTree) (key : Text) (default : Value) :
    (r.valueOr key default).2.holdings =
      ((Operation.valueOr key default).deeds r files).foldl .after r.holdings := by
  unfold valueOr Operation.deeds
  simp only
  rcases r.value? key with fault | _ | v
  · rfl
  · cases vetted key default with
    | error fault => rfl
    | ok w =>
      have hhold := holdings_hold r key w
      rw [publishAll_singleton] at hhold
      simp only [List.foldl_cons, List.foldl_nil, ← hhold, caching]
      cases ({ r with cache := r.cache.insert key w } : Registry).publish key w with
      | error fault => rfl
      | ok s => rfl
  · rfl

/-- The deeds of an operation account for all that it changes of what a registry holds. -/
theorem holdings_perform (o : Operation) (r : Registry) (files : FileTree) (writesAllowed : Bool) :
    (o.perform r files writesAllowed).2.1.holdings = (o.deeds r files).foldl .after r.holdings := by
  cases o with
  | load keys force tolerant => exact holdings_load r files keys force tolerant
  | loadSome filter reset =>
    cases reset with
    | true => exact holdings_loadFiles r.unload files ⟨filter, false, true⟩
    | false => exact holdings_loadFiles r files ⟨filter, false, true⟩
  | unload => rfl
  | reload => exact holdings_load r.unload files [] true false
  | clear key => rfl
  | clearAll => rfl
  | assign key v => exact holdings_assign r files writesAllowed key v
  | valueOr key default => exact holdings_valueOr r files key default
  | put key v =>
    simp only [Operation.perform, put, Operation.deeds]
    cases vetted key v with
    | error fault => rfl
    | ok w => rfl
  | value key => rfl
  | values => rfl
  | rename names =>
    simp only [Operation.perform]
    split
    next => rfl
    next s hs =>
      obtain ⟨ns, _, rfl⟩ := Results.map_eq_ok.mp hs
      rfl
  | setPublishing publishing => rfl

end Registry

def Happening.deeds (happening : Happening) (s : Scene) : List Deed :=
  match happening with
  | .operation o => o.deeds s.registry s.files
  | .outside _ _ => []

namespace Scene

/-- All that a registry does to what it holds while things happen. -/
def deeds (s : Scene) : List Happening → List Deed
  | [] => []
  | happening :: happenings => happening.deeds s ++ (s.after happening).deeds happenings

theorem holdings_after (s : Scene) (happening : Happening) :
    (s.after happening).registry.holdings =
      (happening.deeds s).foldl .after s.registry.holdings := by
  cases happening with
  | operation o => exact Registry.holdings_perform o s.registry s.files s.writesAllowed
  | outside files writesAllowed => rfl

theorem holdings_run (s : Scene) (happenings : List Happening) :
    (s.run happenings).registry.holdings =
      (s.deeds happenings).foldl .after s.registry.holdings := by
  induction happenings generalizing s with
  | nil => rfl
  | cons happening happenings ih =>
    have hrun : s.run (happening :: happenings) = (s.after happening).run happenings := rfl
    rw [hrun, ih, holdings_after, deeds, List.foldl_append]

end Scene

end EnvFile
