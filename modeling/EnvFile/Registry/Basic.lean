import EnvFile.Hazard
import EnvFile.Reader
import EnvFile.Value.Printing
import EnvFile.Value.Reading

namespace EnvFile

/-- A table of variables around a registry: one of its own, or the environment of the process,
which does not take every name and every text. -/
structure Ambient where
  table : Table Text Value
  guarded : Bool
deriving DecidableEq

namespace Ambient

def plain (table : Table Text Value) : Ambient := ⟨table, false⟩

def ofEnvironment (environment : Table Text Text) : Ambient := ⟨environment.map .text, true⟩

/-- Why the environment of the process does not take a variable. -/
def objection? (key t : Text) : Option Fault :=
  if key.contains '\x00' || t.contains '\x00' then some .embeddedNul
  else if key.contains '=' then some .illegalName
  else if key.isEmpty then some .emptyName
  else none

def publish (a : Ambient) (key t : Text) : Except Fault Ambient :=
  match if a.guarded then objection? key t else none with
  | some fault => .error fault
  | none => .ok { a with table := a.table.insert key (.text t) }

def erase (a : Ambient) (key : Text) : Ambient := { a with table := a.table.erase key }

def eraseAll (a : Ambient) (keys : List Text) : Ambient :=
  { a with table := a.table.eraseAll keys }

end Ambient

/-- The file that every root may have, and that assignments go to. -/
def baseName : Text := ".env".toList

/-- Names in order of first mention, with `base` in front if it is among them. -/
def inOrder {α : Type} [DecidableEq α] (base : α) (names : List α) : List α :=
  let distinct := names.foldl (fun ns n => if n ∈ ns then ns else ns ++ [n]) []
  if base ∈ distinct then base :: distinct.filter (· ≠ base) else distinct

def fileNames (names : List Text) : Except Fault (List Text) :=
  match inOrder baseName names with
  | [] => .error .noNames
  | ns => .ok ns

/-- Values from the env files of some root directories. The registry owns the keys that it took
from files into its cache, and it remembers those that it published in the ambient table; neither
list repeats a key. -/
structure Registry where
  roots : List Text
  names : List Text
  publishing : Bool
  loaded : Bool
  owned : List Text
  published : List Text
  reader : Reader
  cache : Table Text Value
  ambient : Ambient
deriving DecidableEq

namespace Registry

/-- A registry that has loaded nothing. -/
def fresh (roots names : List Text) (publishing keepsLines : Bool) (cache : Table Text Value)
    (ambient : Ambient) : Registry :=
  ⟨roots, names, publishing, false, [], [], .fresh keepsLines, cache, ambient⟩

/-- Takes other file names for the loads to come. -/
def rename (r : Registry) (names : List Text) : Except Fault Registry :=
  (fileNames names).map fun ns => { r with names := ns }

/-- Publishes from now on, or no more; what is published already stays. -/
def setPublishing (r : Registry) (publishing : Bool) : Registry := { r with publishing }

def forgetLines (r : Registry) : Registry := { r with reader := r.reader.forgetAll }

def forgetLinesAt (r : Registry) (files : FileTree) (p : Path) : Except Fault Registry :=
  (r.reader.forget files p).map fun reader => { r with reader }

/-- The paths of the env files, root by root. -/
def paths (r : Registry) : List Path :=
  r.roots.flatMap fun root => r.names.map fun name => (Path.ofText root).join (Path.ofText name)

/-- Puts a value into the ambient table, if the registry publishes. -/
def publish (r : Registry) (key : Text) (v : Value) : Except Fault Registry :=
  if r.publishing then do
    let t ← v.splice
    let ambient ← r.ambient.publish key t
    .ok { r with ambient, published := r.published.insert key }
  else .ok r

/-- Publishes entries in order; those before a failure stay published. -/
def publishAll (r : Registry) : List (Text × Value) → Except Fault Unit × Registry
  | [] => (.ok (), r)
  | (key, v) :: es =>
    match r.publish key v with
    | .error fault => (.error fault, r)
    | .ok r => r.publishAll es

/-- Takes the entries of a file over as the registry's own. -/
def commit (r : Registry) (values : Table Text Value) : Except Fault Unit × Registry :=
  { r with
    cache := r.cache.insertAll values
    owned := values.keys.foldl (fun ks k => ks.insert k) r.owned }.publishAll values.entries

/-- Drops what the registry owns from the cache and what it published from the ambient table. -/
def unload (r : Registry) : Registry :=
  { r with
    cache := r.cache.eraseAll r.owned
    ambient := r.ambient.eraseAll r.published
    owned := []
    published := []
    loaded := false }

/-- Drops one key from the cache, and from the ambient table if it was published there. -/
def clear (r : Registry) (key : Text) : Registry :=
  { r with
    cache := r.cache.erase key
    owned := r.owned.filter (· ≠ key)
    ambient := if key ∈ r.published then r.ambient.erase key else r.ambient
    published := r.published.filter (· ≠ key) }

/-- Empties the cache, whoever filled it, and forgets all lines. -/
def clearAll (r : Registry) : Registry :=
  { r with
    cache := ∅
    reader := r.reader.forgetAll
    ambient := r.ambient.eraseAll r.published
    owned := []
    published := []
    loaded := false }

/-- The value of a key: the cached one, or else what the ambient text stands for. -/
def value? (r : Registry) (key : Text) : Except Fault (Option Value) :=
  match r.cache.get? key with
  | some v => .ok (some v)
  | none =>
    match r.ambient.table.get? key with
    | some v => v.settle.map some
    | none => .ok none

def settleAll (t : Table Text Value) : List (Text × Value) → Except Fault (Table Text Value)
  | [] => .ok t
  | (key, v) :: es => do settleAll (t.insert key (← v.settle)) es

/-- Every value: the cache, over the ambient table if the registry publishes there. -/
def values (r : Registry) : Except Fault (Table Text Value) :=
  if r.publishing then (settleAll ∅ r.ambient.table.entries).map (·.insertAll r.cache)
  else .ok r.cache

/-- A value as it may enter the cache: read if it is a text, and free of hazards. -/
def vetted (key : Text) (v : Value) : Except Fault Value := do
  match ← v.settle with
  | .text t => if Hazard.carried t then .error (.dangerous (some key)) else .ok (.text t)
  | v => .ok v

/-- The value of a key, or a default that is put into the cache and published. -/
def valueOr (r : Registry) (key : Text) (default : Value) : Except Fault Value × Registry :=
  match r.value? key with
  | .error fault => (.error fault, r)
  | .ok (some v) => (.ok v, r)
  | .ok none =>
    match vetted key default with
    | .error fault => (.error fault, r)
    | .ok v =>
      let r := { r with cache := r.cache.insert key v }
      match r.publish key v with
      | .error fault => (.error fault, r)
      | .ok r => (.ok v, r)

/-- Puts a value into the cache and nowhere else. -/
def put (r : Registry) (key : Text) (v : Value) : Except Fault Registry :=
  (vetted key v).map fun v => { r with cache := r.cache.insert key v }

end Registry

end EnvFile
