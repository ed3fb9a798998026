import EnvFile.Edit
import EnvFile.FileTree
import EnvFile.Notice
import EnvFile.Text.Basic

namespace EnvFile

namespace FileTree

/-- A refusal, which is also told. -/
def refuse (f : FileTree) (p : Path) (reason : Text) : Except Fault Unit × FileTree × List Notice :=
  let fault := Fault.access p.toText reason
  (.error fault, f, [.notPersisted fault.message])

/-- The system does not let the file be written, for a reason of its own. -/
def failToWrite (f : FileTree) (p : Path) (cause : Text) :
    Except Fault Unit × FileTree × List Notice :=
  let path := p.toText
  (.error (.access path "failed to write".toList), f,
    [.notPersisted ("Failed to write ".toList ++ path ++ ": ".toList ++ cause)])

/-- The same for a reason that names the path. -/
def failAt (f : FileTree) (p : Path) (reason : String) : Except Fault Unit × FileTree × List Notice :=
  f.failToWrite p (Fault.ofSystem reason.toList p.toText)

/-- Gives a file its new content. The file is emptied, or made, before anything is written, and it
keeps as much as there is room for. -/
def fill (f : FileTree) (p : Path) (place : Place) (content : RawText) (told : List Notice) :
    Except Fault Unit × FileTree × List Notice :=
  match Utf8.encodeRaw content with
  | .error u => (.error (.unencodable u), f.put place (.file .empty), [])
  | .ok bytes =>
    match (f.rooms.get? place).filter (· < bytes.size) with
    | some room =>
      (f.put place (.file (bytes.extract 0 room))).failToWrite p
        "[Errno 28] No space left on device".toList
    | none => (.ok (), f.put place (.file bytes), told)

/-- Gives a key its line in the file at a path, which is made if there is none. -/
def saveLine (f : FileTree) (p : Path) (key : Text) (written : Except Fault RawText) :
    Except Fault Unit × FileTree × List Notice :=
  match written with
  | .error fault => (.error fault, f, [])
  | .ok t =>
    let line := RawText.ofText (key ++ ['=']) ++ t
    let told := [Notice.persisted key p.toText]
    match f.locate p with
    | .ok place =>
      if !f.isWritable p then f.refuse p "not writable".toList
      else if f.unreadable.contains place then f.failAt p "[Errno 13] Permission denied"
      else match f.content? p with
        | none => f.failAt p "[Errno 21] Is a directory"
        | some content =>
          match Utf8.decode content with
          | .error u => (.error (.undecodable u), f, [])
          | .ok old => f.fill p place (Edit.overwriteRaw key line (Text.unifyNewlines old)) told
    | .error .tooLong => f.failAt p "[Errno 36] File name too long"
    | .error .forbidden => f.failAt p "[Errno 13] Permission denied"
    | .error _ =>
      if p.parent.holdsNul then (.error .embeddedNul, f, [])
      else if !f.isWritable p.parent then f.refuse p "cannot create".toList
      else if p.holdsNul then (.error .embeddedNul, f, [])
      else match f.find? p.parent with
        | some .directory => f.fill p (f.normalise p) (line ++ [.char '\n']) told
        | _ => f.failAt p "[Errno 20] Not a directory"

def save (f : FileTree) (p : Path) (key : Text) (v : Value) :
    Except Fault Unit × FileTree × List Notice :=
  f.saveLine p key (v.written.map RawText.ofText)

def saveRaw (f : FileTree) (p : Path) (key : Text) (r : RawText) :
    Except Fault Unit × FileTree × List Notice :=
  f.saveLine p key r.written

end FileTree

end EnvFile
