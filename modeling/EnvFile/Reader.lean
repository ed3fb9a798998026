import EnvFile.Fault
import EnvFile.FileTree
import EnvFile.Text.Basic

namespace EnvFile

/-- Reads the lines of files, and may keep them for the next time. -/
structure Reader where
  keeps : Bool
  kept : Table Place (List Text)
deriving DecidableEq, Repr

namespace Reader

def fresh (keeps : Bool) : Reader := ⟨keeps, ∅⟩

/-- The lines of a file as they are now. -/
def current (content : ByteArray) : Except Undecodable (List Text) :=
  (Utf8.decode content).map fun t => Text.lines (Text.unifyNewlines t)

/-- The lines at a path, kept ones if `useKept` is set. A file must be there and be readable even
where its lines are kept. -/
def read (r : Reader) (files : FileTree) (p : Path) (useKept : Bool) :
    Except Fault (List Text) × Reader :=
  match files.isPresent p, files.content? p with
  | .error fault, _ => (.error fault, r)
  | .ok _, none => (.error (.access p.toText "cannot read".toList), r)
  | .ok _, some content =>
    if !files.isReadable p then (.error (.access p.toText "not readable".toList), r)
    else
      let place := files.normalise p
      match if r.keeps && useKept then r.kept.get? place else none with
      | some lines => (.ok lines, r)
      | none =>
        match current content with
        | .error u =>
          (.error (.access p.toText ("failed to read (".toList ++ u.message ++ [')'])), r)
        | .ok lines =>
          (.ok lines, if r.keeps then { r with kept := r.kept.insert place lines } else r)

/-- Forgets the lines kept of one file, whether it is there or not. -/
def forget (r : Reader) (files : FileTree) (p : Path) : Except Fault Reader :=
  if p.holdsNul then .error .embeddedNul
  else .ok { r with kept := r.kept.erase (files.normalise p) }

def forgetAll (r : Reader) : Reader := { r with kept := ∅ }

end Reader

end EnvFile
