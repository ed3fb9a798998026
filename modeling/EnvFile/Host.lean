import EnvFile.Registry.Assignment
import EnvFile.Registry.Loading
import EnvFile.Settings

namespace EnvFile

/-- A registry of a host, with its number and those of its tables. Without a number of its own its
ambient table is the environment of the process. -/
structure Member where
  id : Nat
  registry : Registry
  cache : Nat
  ambient : Option Nat

/-- How a registry is made. -/
structure Opening where
  roots : List Text
  names : Option (List Text)
  publishing : Bool
  fastLoad : Bool
  /-- Parts of keys: if given, only keys that hold one of them are loaded at once. -/
  parts : Option (List Text)
  keepsLines : Bool
deriving DecidableEq, Repr

/-- A process that holds registries: its files and environment, the tables that registries share,
and what is common to all of them. -/
structure Host where
  files : FileTree
  environment : Table Text Text
  writesAllowed : Bool
  /-- The first cache is the common one. -/
  caches : List (Table Text Value)
  ambients : List (Table Text Value)
  members : List Member
  common : Option Nat
  settings : Settings
  memo : Table Text Text
  notices : List Notice

namespace Host

def start (files : FileTree) (environment : Table Text Text) : Host :=
  ⟨files, environment, true, [∅], [], [], none, Settings.initial files.herePath.toText, ∅, []⟩

def tell (h : Host) (ns : List Notice) : Host := { h with notices := h.notices ++ ns }

def addCache (h : Host) (t : Table Text Value) : Nat × Host :=
  (h.caches.length, { h with caches := h.caches ++ [t] })

def addAmbient (h : Host) (t : Table Text Value) : Nat × Host :=
  (h.ambients.length, { h with ambients := h.ambients ++ [t] })

def cacheAt (h : Host) (cache : Nat) : Table Text Value := h.caches[cache]?.getD ∅

def ambientAt (h : Host) : Option Nat → Ambient
  | none => .ofEnvironment h.environment
  | some n => .plain (h.ambients[n]?.getD ∅)

/-- The tables of a registry brought back to where they are shared. -/
def store (h : Host) (m : Member) : Host :=
  let h := { h with caches := h.caches.set m.cache m.registry.cache }
  match m.ambient with
  | none =>
    { h with environment := m.registry.ambient.table.map fun
        | .text t => t
        | _ => [] }
  | some n => { h with ambients := h.ambients.set n m.registry.ambient.table }

/-- A member with its tables as they are now. -/
def member? (h : Host) (id : Nat) : Option Member :=
  (h.members[id]?).map fun m =>
    { m with registry := { m.registry with
        cache := h.cacheAt m.cache
        ambient := h.ambientAt m.ambient } }

/-- Lets a member act on its registry. -/
def act {α : Type} (h : Host) (m : Member)
    (f : Registry → Except Fault α × Registry × List Notice) : Except Fault α × Host :=
  let (result, registry, notices) := f m.registry
  let m := { m with registry }
  (result, ({ h with members := h.members.set m.id m }.store m).tell notices)

/-- Lets a member give a key a value. -/
def assignAt (h : Host) (m : Member) (key : Text) (v : Value) : Except Fault Unit × Host :=
  let (result, registry, files, notices) := m.registry.assign h.files h.writesAllowed key v
  let m := { m with registry }
  (result, ({ h with files, members := h.members.set m.id m }.store m).tell notices)

/-- Makes a registry over two tables. One that cannot load at once is no member, but what it took
over until then stays in its tables. -/
def openMember (h : Host) (o : Opening) (cache : Nat) (ambient : Option Nat) : Except Fault Nat × Host :=
  match o.names.elim (.ok [baseName]) fileNames with
  | .error fault => (.error fault, h)
  | .ok names =>
    let r := Registry.fresh o.roots names o.publishing o.keepsLines (h.cacheAt cache)
      (h.ambientAt ambient)
    let (result, r, notices) := match o.parts with
      | some parts => r.loadSome h.files (.containing parts) false
      | none => if o.fastLoad then r.load h.files [] false false else (.ok (), r, [])
    let m : Member := ⟨h.members.length, r, cache, ambient⟩
    let h := (h.store m).tell notices
    match result with
    | .error fault => (.error fault, h)
    | .ok () => (.ok m.id, { h with members := h.members ++ [m] })

/-- Reads the settings, once. -/
def configure (h : Host) : Except Fault Settings × Host :=
  let (result, settings, notices) := h.settings.configure h.files.herePath.toText h.environment
  (result.map fun _ => settings, { h with settings }.tell notices)

/-- The common registry, made from the settings when it is first asked for. -/
def commonMember (h : Host) : Except Fault Nat × Host :=
  match h.common with
  | some id => (.ok id, h)
  | none =>
    match h.configure with
    | (.error fault, h) => (.error fault, h)
    | (.ok s, h) =>
      let h := { h with writesAllowed := s.writesAllowed }
      match h.openMember ⟨s.roots, some s.names, s.publishing, false, none, true⟩ 0 none with
      | (.error fault, h) => (.error fault, h)
      | (.ok id, h) => (.ok id, { h with common := some id })

/-- The value of a key in the common registry; a default, if there is one, is put there. Without a
key it is the dictionary of all values. -/
def value (h : Host) (key : Option Text) (default : Option Value) : Except Fault Value × Host :=
  match h.commonMember with
  | (.error fault, h) => (.error fault, h)
  | (.ok id, h) =>
    match h.member? id, key, default with
    | none, _, _ => (.ok .null, h)
    | some m, none, _ => (m.registry.values.map fun t => .dict t.entries, h)
    | some m, some key, none => ((m.registry.value? key).map (·.getD .null), h)
    | some m, some key, some default => h.act m fun r =>
      let (result, r) := r.valueOr key default
      (result, r, [])

def flatEntries : List (Text × Value) → Except Fault (List (Text × Value))
  | [] => .ok []
  | (key, v) :: es => do
    let t ← v.flat
    .ok ((key, .text t) :: (← flatEntries es))

/-- The same for readers that know texts only. -/
def flatValue (h : Host) (key : Option Text) (default : Option Value) : Except Fault Value × Host :=
  match h.value key default with
  | (.error fault, h) => (.error fault, h)
  | (.ok v, h) =>
    match key, v with
    | none, .dict es => ((flatEntries es).map .dict, h)
    | _, v => (v.flat.map .text, h)

/-- Gives a key a value in the common registry. -/
def assign (h : Host) (key : Text) (v : Value) : Except Fault Unit × Host :=
  match h.commonMember with
  | (.error fault, h) => (.error fault, h)
  | (.ok id, h) =>
    match h.member? id with
    | none => (.ok (), h)
    | some m => h.assignAt m key v

/-- A host whose files something has been done to. -/
def withFiles (h : Host) (done : Except Fault Unit × FileTree × List Notice) :
    Except Fault Unit × Host :=
  (done.1, { h with files := done.2.1 }.tell done.2.2)

/-- Saves a value in a file, whatever registries hold. -/
def save (h : Host) (p : Path) (key : Text) (v : Value) : Except Fault Unit × Host :=
  h.withFiles (h.files.save p key v)

def saveRaw (h : Host) (p : Path) (key : Text) (r : RawText) : Except Fault Unit × Host :=
  h.withFiles (h.files.saveRaw p key r)

/-- Gives the process a variable that its environment takes. -/
def setVariable (h : Host) (name t : Text) : Except Fault Host :=
  match Ambient.objection? name t with
  | some fault => .error fault
  | none => .ok { h with environment := h.environment.insert name t }

def dropVariable (h : Host) (name : Text) : Host :=
  { h with environment := h.environment.erase name }

def allowWrites (h : Host) (writesAllowed : Bool) : Host := { h with writesAllowed }

def setCommon (h : Host) (common : Option Nat) : Host := { h with common }

/-- Lets the settings be read anew. -/
def resetSettings (h : Host) : Host :=
  { h with settings := Settings.initial h.files.herePath.toText }

/-- A variable of the process, as it was when first asked for. -/
def remembered (h : Host) (key : Text) : Text × Host :=
  match h.memo.get? key with
  | some t => (t, h)
  | none =>
    let t := (h.environment.get? key).getD []
    (t, { h with memo := h.memo.insert key t })

def forgetRemembered (h : Host) : Host := { h with memo := ∅ }

end Host

end EnvFile
