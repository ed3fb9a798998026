import EnvFile.Proofs.OwnKeys

namespace EnvFile

/-- What a registry was asked for, with its answer. -/
structure Reply where
  operation : Operation
  answer : Except Fault Value

namespace Reply

/-- A load has returned. -/
def loads (reply : Reply) : Bool :=
  match reply.operation, reply.answer with
  | .load .., .ok _ | .reload, .ok _ => true
  | _, _ => false

/-- What was loaded before counts no more, whether the operation returned or not. -/
def resets (reply : Reply) : Bool :=
  match reply.operation with
  | .unload | .reload | .clearAll | .loadSome _ true => true
  | _ => false

/-- A load has returned, and none of the later operations has made it count no more. A reload that
returns is both, in this order: it first resets, and then loads. -/
def Loaded (replies : List Reply) : Prop :=
  ∃ before reply after, replies = before ++ reply :: after ∧ reply.loads ∧
    ∀ later ∈ after, later.resets = false

theorem not_loaded_nil : ¬Loaded [] := by
  rintro ⟨before, reply, after, h, _⟩
  simp at h

theorem loaded_cons {reply : Reply} {replies : List Reply} :
    Loaded (reply :: replies) ↔
      Loaded replies ∨ reply.loads ∧ ∀ later ∈ replies, later.resets = false := by
  constructor
  · rintro ⟨before, mid, after, h, hloads, hafter⟩
    cases before with
    | nil =>
      obtain ⟨rfl, rfl⟩ := List.cons.inj h
      exact Or.inr ⟨hloads, hafter⟩
    | cons first before =>
      obtain ⟨_, rfl⟩ := List.cons.inj h
      exact Or.inl ⟨before, mid, after, rfl, hloads, hafter⟩
  · rintro (⟨before, mid, after, rfl, hloads, hafter⟩ | ⟨hloads, hrest⟩)
    · exact ⟨reply :: before, mid, after, rfl, hloads, hafter⟩
    · exact ⟨[], reply, replies, rfl, hloads, hrest⟩

theorem loaded_append {earlier later : List Reply} :
    Loaded (earlier ++ later) ↔
      Loaded later ∨ Loaded earlier ∧ ∀ reply ∈ later, reply.resets = false := by
  induction earlier with
  | nil =>
    rw [List.nil_append]
    constructor
    · exact Or.inl
    · rintro (h | ⟨h, _⟩)
      · exact h
      · exact absurd h not_loaded_nil
  | cons reply earlier ih =>
    rw [List.cons_append, loaded_cons, ih, loaded_cons]
    simp only [List.mem_append]
    constructor
    · rintro ((h | ⟨h, hlater⟩) | ⟨h, hrest⟩)
      · exact Or.inl h
      · exact Or.inr ⟨Or.inl h, hlater⟩
      · exact Or.inr ⟨Or.inr ⟨h, fun r hr => hrest r (Or.inl hr)⟩, fun r hr => hrest r (Or.inr hr)⟩
    · rintro (h | ⟨h | ⟨h, hearlier⟩, hlater⟩)
      · exact Or.inl (Or.inl h)
      · exact Or.inl (Or.inr ⟨h, hlater⟩)
      · exact Or.inr ⟨h, fun r hr => hr.elim (hearlier r) (hlater r)⟩

theorem loaded_singleton {reply : Reply} : Loaded [reply] ↔ reply.loads := by
  simp [loaded_cons, not_loaded_nil]

end Reply

namespace Registry

variable {r : Registry} {files : FileTree}

/-- A load marks the registry if it returns; one that fails leaves the mark as it was. -/
theorem loaded_load (r : Registry) (files : FileTree) (keys : List Text) (force tolerant : Bool) :
    (r.load files keys force tolerant).2.1.loaded = true ↔
      (r.load files keys force tolerant).1 = .ok () ∨ r.loaded = true := by
  cases hdone : r.loaded && !force with
  | true =>
    have hloaded : r.loaded = true := (Bool.and_eq_true_iff.mp hdone).1
    rw [load, if_pos hdone]
    exact iff_of_true hloaded (Or.inr hloaded)
  | false =>
    have hstart : (if force then r.forgetLines else r).loaded = r.loaded := by
      split
      next => rfl
      next => rfl
    have hkept := kept_loadFiles (if force then r.forgetLines else r) files
      ⟨if keys.isEmpty then .all else .among keys, tolerant, !force⟩
    rw [load_of_runs hdone]
    rcases hl : (if force then r.forgetLines else r).loadFiles files
      ⟨if keys.isEmpty then .all else .among keys, tolerant, !force⟩ with ⟨fault | _, s, notices⟩
    · rw [hl] at hkept
      have hsame : s.loaded = r.loaded := hkept.loaded.trans hstart
      simp [hsame]
    · exact iff_of_true rfl (Or.inl rfl)

theorem loaded_reload (r : Registry) (files : FileTree) :
    (r.reload files).2.1.loaded = true ↔ (r.reload files).1 = .ok () := by
  have hload := loaded_load r.unload files [] true false
  have hunloaded : ¬r.unload.loaded = true := Bool.false_ne_true
  rw [or_iff_left hunloaded] at hload
  exact hload

theorem loaded_loadSome (r : Registry) (files : FileTree) (filter : KeyFilter) (reset : Bool) :
    (r.loadSome files filter reset).2.1.loaded = (!reset && r.loaded) := by
  cases reset with
  | true => exact (kept_loadFiles r.unload files ⟨filter, false, true⟩).loaded
  | false => exact (kept_loadFiles r files ⟨filter, false, true⟩).loaded

/-- After an operation a registry is loaded if that has loaded it, or if it was loaded before and
that has not reset it. -/
theorem loaded_perform (o : Operation) (r : Registry) (files : FileTree) (writesAllowed : Bool) :
    let reply : Reply := ⟨o, (o.perform r files writesAllowed).1⟩
    (o.perform r files writesAllowed).2.1.loaded = true ↔
      reply.loads ∨ r.loaded = true ∧ reply.resets = false := by
  cases o with
  | load keys force tolerant =>
    have hload := loaded_load r files keys force tolerant
    simp only [Operation.perform, Reply.loads, Reply.resets]
    rcases hl : r.load files keys force tolerant with ⟨fault | _, s, notices⟩
    · rw [hl] at hload
      simpa [Except.map] using hload
    · rw [hl] at hload
      simpa [Except.map] using hload
  | reload =>
    have hreload := loaded_reload r files
    simp only [Operation.perform, Reply.loads, Reply.resets]
    rcases hl : r.reload files with ⟨fault | _, s, notices⟩
    · rw [hl] at hreload
      simpa [Except.map] using hreload
    · rw [hl] at hreload
      simpa [Except.map] using hreload
  | loadSome filter reset =>
    have hsome := loaded_loadSome r files filter reset
    simp only [Operation.perform, Reply.loads, Reply.resets, hsome]
    cases reset with
    | true => simp
    | false => simp
  | unload | clearAll | clear | value | values | setPublishing =>
    simp [Operation.perform, Reply.loads, Reply.resets, release, unload, clearAll, clear, setPublishing]
  | assign key v =>
    obtain ⟨_, _, _, hassign⟩ := r.exists_of_assign files writesAllowed key v
    have hsame := congrArg Registry.loaded hassign
    simpa [Operation.perform, Reply.loads, Reply.resets] using hsame
  | valueOr key default =>
    obtain ⟨_, _, _, hvalue⟩ := r.exists_of_valueOr key default
    have hsame := congrArg Registry.loaded hvalue
    simpa [Operation.perform, Reply.loads, Reply.resets] using hsame
  | put key v =>
    simp only [Operation.perform, Reply.loads, Reply.resets]
    split
    next => simp
    next s hs =>
      obtain ⟨w, _, rfl⟩ := Results.map_eq_ok.mp hs
      simp
  | rename names =>
    simp only [Operation.perform, Reply.loads, Reply.resets]
    split
    next => simp
    next s hs =>
      obtain ⟨ns, _, rfl⟩ := Results.map_eq_ok.mp hs
      simp

end Registry

/-- What a registry answers in its turn. -/
def Turn.reply? (t : Turn) (s : Scene) : Option Reply :=
  match t with
  | own (.operation o) => some ⟨o, (o.perform s.registry s.files s.writesAllowed).1⟩
  | own (.outside _ _) | others _ _ => none

namespace Scene

/-- All that a registry was asked for in the course of some turns, with its answers. -/
def replies (s : Scene) : List Turn → List Reply
  | [] => []
  | t :: ts => (t.reply? s).toList ++ (s.turn t).replies ts

theorem loaded_turn (s : Scene) (t : Turn) :
    (s.turn t).registry.loaded = true ↔
      Reply.Loaded (t.reply? s).toList ∨
        s.registry.loaded = true ∧ ∀ reply ∈ (t.reply? s).toList, reply.resets = false := by
  cases t with
  | own happening =>
    cases happening with
    | operation o =>
      have hperform := Registry.loaded_perform o s.registry s.files s.writesAllowed
      simp only [Turn.reply?, Option.toList_some, Reply.loaded_singleton, List.mem_singleton,
        forall_eq]
      exact hperform
    | outside files writesAllowed => simp [Turn.reply?, Reply.not_loaded_nil, turn, after]
  | others cache ambient => simp [Turn.reply?, Reply.not_loaded_nil, turn]

/-- Whether a registry is loaded at the end can be told from its replies and the start. -/
theorem loaded_turns (s : Scene) (ts : List Turn) :
    (s.turns ts).registry.loaded = true ↔
      Reply.Loaded (s.replies ts) ∨
        s.registry.loaded = true ∧ ∀ reply ∈ s.replies ts, reply.resets = false := by
  induction ts generalizing s with
  | nil => simp [turns, replies, Reply.not_loaded_nil]
  | cons t ts ih =>
    have hturns : s.turns (t :: ts) = (s.turn t).turns ts := rfl
    rw [hturns, ih, loaded_turn, replies, Reply.loaded_append]
    simp only [List.mem_append, or_imp, forall_and]
    tauto

end Scene

namespace Opening

/-- What is loaded while a registry is opened. -/
def start (o : Opening) (r : Registry) (files : FileTree) :
    Except Fault Unit × Registry × List Notice :=
  match o.parts with
  | some parts => r.loadSome files (.containing parts) false
  | none => if o.fastLoad then r.load files [] false false else (.ok (), r, [])

/-- What was asked of a registry that has been opened: it has returned, or there is none. -/
def replies (o : Opening) : List Reply :=
  match o.parts with
  | some parts => [⟨.loadSome (.containing parts) false, .ok .null⟩]
  | none => if o.fastLoad then [⟨.load [] false false, .ok .null⟩] else []

theorem loaded_start {o : Opening} {r : Registry} {files : FileTree} (h : r.loaded = false)
    (ho : (o.start r files).1 = .ok ()) :
    (o.start r files).2.1.loaded = true ↔ Reply.Loaded o.replies := by
  unfold start at ho ⊢
  unfold replies
  cases hp : o.parts with
  | some parts =>
    have hsome := r.loaded_loadSome files (.containing parts) false
    simp [hsome, h, Reply.loaded_singleton, Reply.loads]
  | none =>
    cases hf : o.fastLoad with
    | true =>
      have hload := r.loaded_load files [] false false
      simp only [hp, hf, ↓reduceIte] at ho ⊢
      simp [hload, ho, Reply.loaded_singleton, Reply.loads]
    | false => simp [h, Reply.not_loaded_nil]

end Opening

namespace Host

variable {h next : Host} {o : Opening} {cache id : Nat} {ambient : Option Nat} {m : Member}

/-- Nothing but tables changes when the tables of a registry are brought back. -/
theorem exists_of_store (h : Host) (m : Member) :
    ∃ caches environment ambients,
      h.store m = { h with caches := caches, environment := environment, ambients := ambients } := by
  unfold store
  split
  next => exact ⟨_, _, _, rfl⟩
  next => exact ⟨_, _, _, rfl⟩

theorem openMember_of_names {names : List Text}
    (hn : o.names.elim (.ok [baseName]) fileNames = .ok names) :
    h.openMember o cache ambient =
      let (result, r, notices) := o.start (.fresh o.roots names o.publishing o.keepsLines
        (h.cacheAt cache) (h.ambientAt ambient)) h.files
      let m : Member := ⟨h.members.length, r, cache, ambient⟩
      let opened := (h.store m).tell notices
      match result with
      | .error fault => (.error fault, opened)
      | .ok () => (.ok m.id, { opened with members := opened.members ++ [m] }) := by
  unfold openMember
  rw [hn]
  rfl

/-- A registry is opened by loading into a fresh one, where that returns. -/
theorem openMember_eq_ok (ho : h.openMember o cache ambient = (.ok id, next)) :
    ∃ names m, o.names.elim (.ok [baseName]) fileNames = .ok names ∧
      let start := o.start (.fresh o.roots names o.publishing o.keepsLines (h.cacheAt cache)
        (h.ambientAt ambient)) h.files
      start.1 = .ok () ∧ m.registry = start.2.1 ∧ next.members[id]? = some m := by
  cases hn : o.names.elim (.ok [baseName]) fileNames with
  | error fault => simp [openMember, hn] at ho
  | ok names =>
    rw [openMember_of_names hn] at ho
    refine ⟨names, ?_⟩
    rcases hs : o.start (.fresh o.roots names o.publishing o.keepsLines (h.cacheAt cache)
      (h.ambientAt ambient)) h.files with ⟨fault | _, r, notices⟩
    · rw [hs] at ho
      simp at ho
    · rw [hs] at ho
      cases ho
      obtain ⟨_, _, _, hstore⟩ := h.exists_of_store ⟨h.members.length, r, cache, ambient⟩
      have hmembers : (h.store ⟨h.members.length, r, cache, ambient⟩).members = h.members := by
        rw [hstore]
      exact ⟨⟨h.members.length, r, cache, ambient⟩, rfl, rfl, rfl, by simp [tell, hmembers]⟩

/-- A registry that has been opened is loaded if that was part of it. -/
theorem loaded_of_openMember (ho : h.openMember o cache ambient = (.ok id, next))
    (hm : next.member? id = some m) : m.registry.loaded = true ↔ Reply.Loaded o.replies := by
  obtain ⟨names, m', _, hok, hr, hid⟩ := openMember_eq_ok ho
  obtain ⟨_, he, rfl⟩ := Option.map_eq_some_iff.mp hm
  rw [hid] at he
  cases he
  change m'.registry.loaded = true ↔ _
  rw [hr]
  exact Opening.loaded_start rfl hok

/-- A registry is loaded just if a load has returned that nothing has reset since, whatever else was
asked of it, failed or was done by others. As long as it is, a load that is not forced returns and
changes nothing, whatever the files are by then. -/
theorem loaded_iff_replies (ho : h.openMember o cache ambient = (.ok id, next))
    (hm : next.member? id = some m) (ts : List Turn) :
    let start : Scene := ⟨m.registry, next.files, next.writesAllowed⟩
    let now := start.turns ts
    (now.registry.loaded = true ↔ Reply.Loaded (o.replies ++ start.replies ts)) ∧
    (now.registry.loaded = true → ∀ keys tolerant files writesAllowed,
      (Operation.load keys false tolerant).perform now.registry files writesAllowed =
        (.ok .null, now.registry, files, [])) := by
  intro start now
  refine ⟨?_, fun hloaded keys tolerant files writesAllowed => ?_⟩
  · have hstart : start.registry.loaded = true ↔ Reply.Loaded o.replies := loaded_of_openMember ho hm
    have hturns := start.loaded_turns ts
    rw [hstart] at hturns
    rw [Reply.loaded_append]
    exact hturns
  · have hload : now.registry.load files keys false tolerant = (.ok (), now.registry, []) := by
      rw [Registry.load, hloaded]
      rfl
    simp only [Operation.perform, hload, Except.map]

/-- It is loaded while it is opened; the file is broken then, so that a forced load fails and leaves it
loaded, and so do a key that is dropped and others that empty the tables. A reload fails as well, and
unloads it. -/
theorem loaded_iff_replies_broken :
    let h := start (.holding "A=1\n".toList) ∅
    let o : Opening := ⟨["/".toList], none, true, true, none, true⟩
    let next := (h.openMember o 0 none).2
    let ts : List Turn := [.own (.outside (.holding "A\n".toList) true),
      .own (.operation (.load [] true false)), .own (.operation (.clear "A".toList)), .others ∅ ∅]
    h.openMember o 0 none = (.ok 0, next) ∧
    ∃ m, next.member? 0 = some m ∧
      let start : Scene := ⟨m.registry, next.files, next.writesAllowed⟩
      let now := start.turns ts
      m.registry.cache.entries = [("A".toList, .int 1)] ∧ now.registry.loaded = true ∧
      (start.turns (ts ++ [.own (.operation .reload)])).registry.loaded = false ∧
      (now.registry.loaded = true ↔ Reply.Loaded (o.replies ++ start.replies ts)) ∧
      ∀ keys tolerant files writesAllowed,
        (Operation.load keys false tolerant).perform now.registry files writesAllowed =
          (.ok .null, now.registry, files, []) := by
  intro h o next ts
  have ho : h.openMember o 0 none = (.ok 0, next) := by
    have hid : (h.openMember o 0 none).1 = .ok 0 := by decide +kernel
    exact Prod.ext hid rfl
  have hruns : (next.member? 0).map (fun m =>
      let start : Scene := ⟨m.registry, next.files, next.writesAllowed⟩
      (m.registry.cache.entries, (start.turns ts).registry.loaded,
        (start.turns (ts ++ [.own (.operation .reload)])).registry.loaded)) =
      some ([("A".toList, .int 1)], true, false) := by decide +kernel
  obtain ⟨m, hm, hall⟩ := Option.map_eq_some_iff.mp hruns
  obtain ⟨hcache, hloads⟩ := Prod.mk.inj hall
  obtain ⟨hloaded, hreloaded⟩ := Prod.mk.inj hloads
  obtain ⟨hiff, hnothing⟩ := loaded_iff_replies ho hm ts
  exact ⟨ho, m, hm, hcache, hloaded, hreloaded, hiff, hnothing hloaded⟩

end Host

end EnvFile
