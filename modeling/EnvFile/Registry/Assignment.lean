import EnvFile.Registry.Basic
import EnvFile.Saving

namespace EnvFile

namespace Registry

/-- The file that assignments go to: the base file of the first root. -/
def basePath (r : Registry) (files : FileTree) : Path :=
  let root := match r.roots with
    | [] => files.herePath
    | root :: _ => Path.ofText root
  root.join (Path.ofText baseName)

/-- What keeps a value from being assigned to a key. -/
def objection? (key : Text) (v : Value) : Option Fault :=
  if !Text.isAssignable key then
    some (.invalidKey ⟨"invalid key ".toList ++ Text.quoted key, none, none, none⟩)
  else match v.compound?, v with
    | some kind, _ => some (.notScalar key kind)
    | none, .text t =>
      if t.contains '\n' || t.contains '\r' then some (.lineBreakFor key)
      else if Hazard.carried t then some (.dangerous (some key))
      else none
    | none, _ => none

/-- Gives a key a value: in the cache, in the ambient table if the registry publishes, and in the
base file if files may be written. -/
def assign (r : Registry) (files : FileTree) (writesAllowed : Bool) (key : Text) (v : Value) :
    Except Fault Unit × Registry × FileTree × List Notice :=
  let key := Text.trim key
  match objection? key v with
  | some fault => (.error fault, r, files, [])
  | none =>
    match v.settle with
    | .error fault => (.error fault, r, files, [])
    | .ok settled =>
      let r := { r with cache := r.cache.insert key settled }
      match r.publish key settled with
      | .error fault => (.error fault, r, files, [])
      | .ok r =>
        if writesAllowed then
          let (result, files, notices) := files.save (r.basePath files) key v
          (result, r, files, notices)
        else (.ok (), r, files, [])

end Registry

end EnvFile
