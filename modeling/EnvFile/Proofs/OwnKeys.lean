import Mathlib.Data.List.Induction
import EnvFile.Proofs.CleanReloads
import EnvFile.Proofs.Deeds

namespace EnvFile

theorem Table.eraseAll_eq_restrict {κ α : Type} [DecidableEq κ] {t : Table κ α} {ks : List κ}
    {p : κ → Bool} (h : ∀ k, p k = true ↔ k ∉ ks) : t.eraseAll ks = t.restrict p := by
  have hentries : (t.eraseAll ks).entries = t.entries.filter fun e => decide (e.1 ∉ ks) := by
    unfold eraseAll
    clear h
    induction ks generalizing t with
    | nil => simp
    | cons k ks ih =>
      rw [List.foldl_cons, ih, erase, List.filter_filter]
      refine List.filter_congr fun e _ => ?_
      simp only [List.mem_cons, not_or, Bool.decide_and, Bool.and_comm, ne_eq]
  have hkept : (fun e : κ × α => decide (e.1 ∉ ks)) = fun e => p e.1 := by
    funext e
    rw [Bool.eq_iff_iff, decide_eq_true_iff, h]
  have hsame : (t.eraseAll ks).entries = (t.restrict p).entries := by
    rw [hentries, hkept]
    rfl
  obtain ⟨es, hn⟩ := t
  cases he : Table.eraseAll ⟨es, hn⟩ ks
  rw [he] at hsame
  cases hsame
  rfl

theorem concat_eq_append_cons {α : Type} {xs before after : List α} {x y : α} :
    xs ++ [x] = before ++ y :: after ↔
      after = [] ∧ before = xs ∧ y = x ∨ ∃ rest, after = rest ++ [x] ∧ xs = before ++ y :: rest := by
  constructor
  · intro h
    rcases List.eq_nil_or_concat' after with rfl | ⟨rest, last, rfl⟩
    · obtain ⟨rfl, hlast⟩ := List.append_inj' h rfl
      exact Or.inl ⟨rfl, rfl, (List.singleton_inj.mp hlast).symm⟩
    · rw [← List.cons_append, ← List.append_assoc] at h
      obtain ⟨rfl, hlast⟩ := List.append_inj' h rfl
      obtain rfl := List.singleton_inj.mp hlast
      exact Or.inr ⟨rest, rfl, rfl⟩
  · rintro (⟨rfl, rfl, rfl⟩ | ⟨rest, rfl, rfl⟩)
    · rfl
    · simp

namespace Deed

variable {begins ends : Deed → Bool} {ds : List Deed} {d : Deed} {key : Text}

/-- Something has begun, and nothing after it has ended it. -/
def Since (begins ends : Deed → Bool) (ds : List Deed) : Prop :=
  ∃ before d after, ds = before ++ d :: after ∧ begins d ∧ ∀ e ∈ after, ends e = false

theorem not_since_nil : ¬Since begins ends [] := by
  rintro ⟨before, d, after, h, _⟩
  simp at h

theorem since_concat :
    Since begins ends (ds ++ [d]) ↔ begins d ∨ ends d = false ∧ Since begins ends ds := by
  constructor
  · rintro ⟨before, e, after, h, hbegins, hafter⟩
    rcases concat_eq_append_cons.mp h with ⟨_, _, rfl⟩ | ⟨rest, rfl, hds⟩
    · exact Or.inl hbegins
    · exact Or.inr ⟨hafter d (by simp), before, e, rest, hds, hbegins,
        fun f hf => hafter f (List.mem_append_left _ hf)⟩
  · rintro (hbegins | ⟨hd, before, e, after, rfl, hbegins, hafter⟩)
    · exact ⟨ds, d, [], rfl, hbegins, by simp⟩
    · refine ⟨before, e, after ++ [d], by simp, hbegins, fun f hf => ?_⟩
      rcases List.mem_append.mp hf with hf | hf
      · exact hafter f hf
      · rwa [List.mem_singleton.mp hf]

theorem since_iff_foldl :
    Since begins ends ds ↔ ds.foldl (fun held d => begins d || !ends d && held) false := by
  induction ds using List.reverseRecOn with
  | nil => simpa using not_since_nil
  | append_singleton ds d ih => simp [since_concat, List.foldl_append, ih]

instance : Decidable (Since begins ends ds) := decidable_of_iff _ since_iff_foldl.symm

/-- Whether a deed takes a key over from a file. -/
def takes (key : Text) : Deed → Bool
  | take values _ => key ∈ values.keys
  | _ => false

/-- Whether a deed makes a key public. -/
def shows (key : Text) : Deed → Bool
  | take _ shown | hold _ _ shown => key ∈ shown.map Prod.fst
  | _ => false

/-- Whether a deed gives a key up. -/
def drops (key : Text) : Deed → Bool
  | clear k => k = key
  | unload | clearAll => true
  | _ => false

/-- A key was taken from a file and has not been given up since. -/
def Taken (key : Text) (ds : List Deed) : Prop := Since (takes key) (drops key) ds

instance : Decidable (Taken key ds) := inferInstanceAs (Decidable (Since _ _ _))

/-- A key was made public and has not been given up since. -/
def Shown (key : Text) (ds : List Deed) : Prop := Since (shows key) (drops key) ds

instance : Decidable (Shown key ds) := inferInstanceAs (Decidable (Since _ _ _))

end Deed

namespace Registry

namespace Holdings

/-- The keys that are owned and published are those that the deeds so far say. -/
structure Records (h : Holdings) (ds : List Deed) : Prop where
  owned : ∀ k, k ∈ h.owned ↔ Deed.Taken k ds
  published : ∀ k, k ∈ h.published ↔ Deed.Shown k ds

variable {h : Holdings} {ds more : List Deed}

theorem mem_published_publish {shown : List (Text × Text)} {k : Text} :
    k ∈ (h.publish shown).published ↔ k ∈ h.published ∨ k ∈ shown.map Prod.fst := by
  have hfold : (h.publish shown).published =
      (shown.map Prod.fst).foldl (fun ks k => ks.insert k) h.published := by
    rw [List.foldl_map]
    rfl
  rw [hfold, mem_foldl_insert]

/-- A deed is recorded as it is done. -/
theorem Records.after (hr : h.Records ds) (d : Deed) : (h.after d).Records (ds ++ [d]) := by
  refine ⟨fun k => ?_, fun k => ?_⟩
  · have howned := hr.owned k
    rw [Deed.Taken, Deed.since_concat, ← Deed.Taken, ← howned]
    cases d with
    | take values shown =>
      have hmem : k ∈ (h.after (.take values shown)).owned ↔ k ∈ h.owned ∨ k ∈ values.keys :=
        mem_foldl_insert
      simp [hmem, Deed.takes, Deed.drops, or_comm]
    | hold key v shown => simp [Holdings.after, Holdings.publish, Deed.takes, Deed.drops]
    | clear key =>
      simp only [Holdings.after, List.mem_filter, Deed.takes, Deed.drops]
      grind
    | unload => simp [Holdings.after, Deed.takes, Deed.drops]
    | clearAll => simp [Holdings.after, Deed.takes, Deed.drops]
  · have hpublished := hr.published k
    rw [Deed.Shown, Deed.since_concat, ← Deed.Shown, ← hpublished]
    cases d with
    | take values shown =>
      simp [Holdings.after, mem_published_publish, Deed.shows, Deed.drops, or_comm]
    | hold key v shown =>
      simp [Holdings.after, mem_published_publish, Deed.shows, Deed.drops, or_comm]
    | clear key =>
      simp only [Holdings.after, List.mem_filter, Deed.shows, Deed.drops]
      grind
    | unload => simp [Holdings.after, Deed.shows, Deed.drops]
    | clearAll => simp [Holdings.after, Deed.shows, Deed.drops]

theorem Records.foldl (hr : h.Records ds) (more : List Deed) :
    (more.foldl .after h).Records (ds ++ more) := by
  induction more generalizing h ds with
  | nil => simpa using hr
  | cons d more ih =>
    have hrest := ih (hr.after d)
    rwa [List.append_assoc] at hrest

end Holdings

end Registry

/-- What can happen to a registry that shares its tables: something happens to it, or others write
to the tables what they like. -/
inductive Turn
  | own (happening : Happening)
  | others (cache ambient : Table Text Value)

namespace Turn

def deeds (turn : Turn) (s : Scene) : List Deed :=
  match turn with
  | own happening => happening.deeds s
  | others _ _ => []

end Turn

namespace Scene

def turn (s : Scene) : Turn → Scene
  | .own happening => s.after happening
  | .others cache ambient =>
    { s with registry :=
      { s.registry with cache, ambient := { s.registry.ambient with table := ambient } } }

def turns (s : Scene) (ts : List Turn) : Scene := ts.foldl turn s

/-- All that the registry itself does in the course of some turns. -/
def ownDeeds (s : Scene) : List Turn → List Deed
  | [] => []
  | t :: ts => t.deeds s ++ (s.turn t).ownDeeds ts

theorem records_turn {s : Scene} {ds : List Deed} (h : s.registry.holdings.Records ds) (t : Turn) :
    (s.turn t).registry.holdings.Records (ds ++ t.deeds s) := by
  cases t with
  | own happening =>
    have hfold := h.foldl (happening.deeds s)
    rwa [← holdings_after] at hfold
  | others cache ambient =>
    rw [Turn.deeds, List.append_nil]
    exact ⟨h.owned, h.published⟩

/-- What others do in between is no deed of the registry, and its lists do not notice it. -/
theorem records_turns {s : Scene} {ds : List Deed} (h : s.registry.holdings.Records ds)
    (ts : List Turn) : (s.turns ts).registry.holdings.Records (ds ++ s.ownDeeds ts) := by
  induction ts generalizing s ds with
  | nil => simpa [ownDeeds, turns] using h
  | cons t ts ih =>
    have hrest := ih (records_turn h t)
    rwa [List.append_assoc] at hrest

theorem records_fresh (roots names : List Text) (publishing keepsLines : Bool)
    (cache : Table Text Value) (ambient : Ambient) :
    (Registry.fresh roots names publishing keepsLines cache ambient).holdings.Records [] := by
  refine ⟨fun k => ?_, fun k => ?_⟩
  · exact iff_of_false List.not_mem_nil Deed.not_since_nil
  · exact iff_of_false List.not_mem_nil Deed.not_since_nil

/-- Whatever a registry and others have done to the tables that they share, unloading takes out of the
cache the keys that the registry took from files and has not given up since, and out of the ambient
table those that it made public and has not given up since. All else stays as it is. -/
theorem unload_removes_own_keys (roots names : List Text) (publishing keepsLines : Bool)
    (cache : Table Text Value) (ambient : Ambient) (files : FileTree) (writesAllowed : Bool)
    (ts : List Turn) :
    let start : Scene :=
      ⟨.fresh roots names publishing keepsLines cache ambient, files, writesAllowed⟩
    let r := (start.turns ts).registry
    let ds := start.ownDeeds ts
    r.unload.cache = r.cache.restrict (fun k => ¬Deed.Taken k ds) ∧
      r.unload.ambient =
        { r.ambient with table := r.ambient.table.restrict fun k => ¬Deed.Shown k ds } ∧
      r.unload.loaded = false := by
  intro start r ds
  have hstart : start.registry.holdings.Records [] :=
    records_fresh roots names publishing keepsLines cache ambient
  have hrecords : r.holdings.Records ds := records_turns hstart ts
  have howned (k : Text) : decide (¬Deed.Taken k ds) = true ↔ k ∉ r.owned := by
    rw [decide_eq_true_iff, ← hrecords.owned k, Registry.holdings]
  have hpublished (k : Text) : decide (¬Deed.Shown k ds) = true ↔ k ∉ r.published := by
    rw [decide_eq_true_iff, ← hrecords.published k, Registry.holdings]
  refine ⟨Table.eraseAll_eq_restrict howned, ?_, rfl⟩
  rw [← Table.eraseAll_eq_restrict hpublished]
  rfl

/-- A load breaks off in the second file, and others put their own values in place of what it took. -/
example :
    let start : Scene := ⟨.fresh ["/".toList] [baseName, ".env.local".toList] true true ∅ (.plain ∅),
      FileTree.pair "A=1\nB=2\n".toList "C\n".toList, false⟩
    let r := (start.turns [.own (.operation (.load [] false false)),
      .own (.operation (.assign "D".toList (.int 4))), .own (.operation (.clear "B".toList)),
      .others (.ofList [("A".toList, .null), ("B".toList, .null), ("D".toList, .null)])
        (.ofList [("D".toList, .null), ("E".toList, .null)])]).registry
    r.unload.cache.entries = [("B".toList, .null), ("D".toList, .null)] ∧
      r.unload.ambient.table.entries = [("E".toList, .null)] := by
  decide +kernel

end Scene

end EnvFile
