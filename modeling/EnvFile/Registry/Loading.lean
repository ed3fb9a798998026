import EnvFile.Listing
import EnvFile.Registry.Basic

namespace EnvFile

namespace Registry

/-- How files are loaded: which keys are wanted, whether faults of files and lines are passed over,
and whether kept lines will do. -/
structure LoadMode where
  filter : KeyFilter
  tolerant : Bool
  useKept : Bool
deriving DecidableEq, Repr

/-- The lines of a file, which the reader may keep. -/
def linesAt (r : Registry) (files : FileTree) (p : Path) (useKept : Bool) :
    Except Fault (List Text) × Registry :=
  let (lines, reader) := r.reader.read files p useKept
  (lines, { r with reader })

/-- What lines declare among the values that are there; `path` is their file's name in reports. -/
def entriesIn (r : Registry) (m : LoadMode) (path : Text) (lines : List Text) :
    Except Fault (Table Text Value) × List Notice :=
  Listing.entries r.cache r.ambient.table ⟨m.filter, m.tolerant, path⟩ lines

/-- What a file declares. The cache stays as it is. -/
def entriesAt (r : Registry) (files : FileTree) (m : LoadMode) (path : Text) :
    Except Fault (Table Text Value) × Registry × List Notice :=
  match r.linesAt files (Path.ofText path) m.useKept with
  | (.error fault, r) => (.error fault, r, [])
  | (.ok lines, r) =>
    let (result, notices) := r.entriesIn m path lines
    (result, r, notices)

/-- Loads one file. Nothing of it is taken over unless all of it can be. -/
def loadFile (r : Registry) (files : FileTree) (m : LoadMode) (p : Path) :
    Except Fault Unit × Registry × List Notice :=
  match r.linesAt files p m.useKept with
  | (.error fault, r) =>
    if m.tolerant then (.ok (), r, [.skippedFile fault]) else (.error fault, r, [])
  | (.ok lines, r) =>
    match r.entriesIn m p.toText lines with
    | (.error fault, notices) => (.error fault, r, notices)
    | (.ok values, notices) =>
      match r.commit values with
      | (.error fault, r) => (.error fault, r, notices)
      | (.ok (), r) => (.ok (), r, notices ++ [.loaded values.size p.toText])

/-- Loads in order the files that are there; the first failure ends it, and the files before it stay
loaded. -/
def loadEach (r : Registry) (files : FileTree) (m : LoadMode) :
    List Path → Except Fault Unit × Registry × List Notice
  | [] => (.ok (), r, [])
  | p :: ps =>
    match files.isPresent p with
    | .error fault => (.error fault, r, [])
    | .ok false => r.loadEach files m ps
    | .ok true =>
      match r.loadFile files m p with
      | (.error fault, r, notices) => (.error fault, r, notices)
      | (.ok (), r, notices) =>
        let (result, r, more) := r.loadEach files m ps
        (result, r, notices ++ more)

/-- Loads every env file that is there. -/
def loadFiles (r : Registry) (files : FileTree) (m : LoadMode) :
    Except Fault Unit × Registry × List Notice :=
  if r.paths.all files.isAbsent then
    if m.tolerant then (.ok (), r, [.noFile r.roots])
    else (.error (.noFile r.roots r.names), r, [])
  else r.loadEach files m r.paths

/-- Loads the files, unless that has been done and is not forced. An empty list of keys wants all. -/
def load (r : Registry) (files : FileTree) (keys : List Text) (force tolerant : Bool) :
    Except Fault Unit × Registry × List Notice :=
  if r.loaded && !force then (.ok (), r, [])
  else
    let r := if force then { r with reader := r.reader.forgetAll } else r
    let filter := if keys.isEmpty then .all else .among keys
    match r.loadFiles files ⟨filter, tolerant, !force⟩ with
    | (.ok (), r, notices) => (.ok (), { r with loaded := true }, notices)
    | failed => failed

/-- Unloads, and tells how many keys were owned. -/
def release (r : Registry) : Registry × List Notice := (r.unload, [.unloaded r.owned.length])

/-- Loads what a filter admits, loaded or not, and after unloading if `reset` is set. -/
def loadSome (r : Registry) (files : FileTree) (filter : KeyFilter) (reset : Bool) :
    Except Fault Unit × Registry × List Notice :=
  let (r, before) := if reset then r.release else (r, [])
  let (result, r, notices) := r.loadFiles files ⟨filter, false, true⟩
  (result, r, before ++ notices)

/-- Unloads, and loads again from the files as they are. -/
def reload (r : Registry) (files : FileTree) : Except Fault Unit × Registry × List Notice :=
  let (r, before) := r.release
  let (result, r, notices) := r.load files [] true false
  (result, r, before ++ notices)

end Registry

end EnvFile
