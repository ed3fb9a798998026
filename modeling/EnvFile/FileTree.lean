import EnvFile.Fault
import EnvFile.Table

namespace EnvFile

/-- A path as it is written: slashes in front if it is absolute, and the segments. -/
structure Path where
  lead : Text
  segments : List Text
deriving DecidableEq, Repr

namespace Path

/-- Two slashes in front are kept as they are; any other number of them counts as one. -/
def leadOf (t : Text) : Text :=
  match (t.takeWhile (· == '/')).length with
  | 0 => []
  | 2 => "//".toList
  | _ => "/".toList

/-- Empty segments and single points say nothing. -/
def ofText (t : Text) : Path :=
  ⟨leadOf t, (Text.pieces '/' t).filter fun s => s ≠ [] ∧ s ≠ ['.']⟩

/-- The path that says nothing names the working directory. -/
def isHere (p : Path) : Bool := p.lead.isEmpty && p.segments.isEmpty

def toText (p : Path) : Text :=
  if p.isHere then ['.']
  else p.lead ++ Text.join ['/'] p.segments

/-- An absolute path stands for itself wherever it is joined to. -/
def join (p q : Path) : Path :=
  if q.lead.isEmpty then ⟨p.lead, p.segments ++ q.segments⟩ else q

def parent (p : Path) : Path := ⟨p.lead, p.segments.dropLast⟩

def holdsNul (p : Path) : Bool := p.toText.contains '\x00'

def isAbsolute (p : Path) : Bool := !p.lead.isEmpty

example : (join (ofText "r//sub/..".toList) (ofText "./.env".toList)).toText = "r/sub/../.env".toList := by
  decide

end Path

/-- A place in a file tree: the names on the way from the root. -/
abbrev Place := List Text

inductive Node
  | file (content : ByteArray)
  | directory

/-- Files and directories, the working directory, and what may be done at which places. There are no
links: the ways to a place differ in single points and double ones only. -/
structure FileTree where
  here : Place
  nodes : Table Place Node
  unreadable : List Place := []
  unwritable : List Place := []
  /-- Places that a check of the rights denies to readers, who can read there all the same. -/
  withheld : List Place := []
  /-- Directories in which no name may be looked up. -/
  unsearchable : List Place := []
  /-- The most bytes of a file, where there is no room for any number of them. -/
  rooms : Table Place Nat := ∅

/-- Why a path leads nowhere. -/
inductive Dead
  | missing
  | notDirectory
  | tooLong
  | forbidden
deriving DecidableEq, Repr

namespace FileTree

/-- The node at a place. The root is a directory. -/
def node? (f : FileTree) (place : Place) : Option Node :=
  if place.isEmpty then some .directory else f.nodes.get? place

/-- The most bytes of a name, and of a path with the zero byte that ends it. -/
def nameLimit : Nat := 255

def pathLimit : Nat := 4096

def byteCount (t : Text) : Nat := (Utf8.encode t).size

/-- One step along a path. -/
def step (f : FileTree) (place : Place) (segment : Text) : Except Dead Place :=
  match f.node? place with
  | some .directory =>
    if f.unsearchable.contains place then .error .forbidden
    else if segment = "..".toList then .ok place.dropLast
    else if nameLimit < byteCount segment then .error .tooLong
    else if (f.node? (place ++ [segment])).isSome then .ok (place ++ [segment])
    else .error .missing
  | some (.file _) => .error .notDirectory
  | none => .error .missing

def start (f : FileTree) (p : Path) : Place := if p.isAbsolute then [] else f.here

/-- The place that a path leads to. A path with a zero byte names nothing. The working directory is
searched even for itself. -/
def locate (f : FileTree) (p : Path) : Except Dead Place :=
  if p.holdsNul then .error .missing
  else if pathLimit ≤ byteCount p.toText then .error .tooLong
  else if p.isHere && f.unsearchable.contains f.here then .error .forbidden
  else p.segments.foldlM f.step (f.start p)

/-- The place that a path names, whether something is there or not. -/
def normalise (f : FileTree) (p : Path) : Place :=
  p.segments.foldl (fun place s => if s = "..".toList then place.dropLast else place ++ [s])
    (f.start p)

def find? (f : FileTree) (p : Path) : Option Node :=
  (f.locate p).toOption.bind f.node?

def exists? (f : FileTree) (p : Path) : Bool := (f.find? p).isSome

/-- Whether something is at a path that a file system can look up. -/
def isPresent (f : FileTree) (p : Path) : Except Fault Bool :=
  match f.locate p with
  | .ok place => .ok (f.node? place).isSome
  | .error .tooLong => .error (.pathTooLong p.toText)
  | .error .forbidden => .error (.pathForbidden p.toText)
  | .error _ => .ok false

def isAbsent (f : FileTree) (p : Path) : Bool :=
  match f.isPresent p with
  | .ok false => true
  | _ => false

def content? (f : FileTree) (p : Path) : Option ByteArray :=
  match f.find? p with
  | some (.file content) => some content
  | _ => none

/-- What a check of the rights says of readers. -/
def isReadable (f : FileTree) (p : Path) : Bool :=
  f.exists? p && !f.unreadable.contains (f.normalise p) && !f.withheld.contains (f.normalise p)

def isWritable (f : FileTree) (p : Path) : Bool :=
  f.exists? p && !f.unwritable.contains (f.normalise p)

def put (f : FileTree) (place : Place) (n : Node) : FileTree :=
  { f with nodes := f.nodes.insert place n }

/-- The directories on the way to a place. -/
def ancestors (place : Place) : List Place :=
  (List.range place.length).map place.take

/-- Puts a node at a path, and directories on the way to it where there are none. -/
def plant (f : FileTree) (p : Path) (n : Node) : FileTree :=
  let place := f.normalise p
  ((ancestors place).foldl
    (fun f a => if (f.node? a).isSome then f else f.put a .directory) f).put place n

/-- The same for a path that a file system takes. -/
def write (f : FileTree) (p : Path) (n : Node) : Except Fault FileTree :=
  if p.holdsNul then .error .embeddedNul else .ok (f.plant p n)

/-- Removes what is at a path and below it. -/
def remove (f : FileTree) (p : Path) : FileTree :=
  { f with nodes := f.nodes.restrict fun place => !(f.normalise p).isPrefixOf place }

def forbidReading (f : FileTree) (p : Path) : FileTree :=
  { f with unreadable := f.normalise p :: f.unreadable }

def withholdReading (f : FileTree) (p : Path) : FileTree :=
  { f with withheld := f.normalise p :: f.withheld }

def forbidSearching (f : FileTree) (p : Path) : FileTree :=
  { f with unsearchable := f.normalise p :: f.unsearchable }

def forbidWriting (f : FileTree) (p : Path) : FileTree :=
  { f with unwritable := f.normalise p :: f.unwritable }

/-- A tree that holds a working directory and nothing else. -/
def bare (here : Path) : FileTree :=
  let place := here.segments
  { here := place
    nodes := (ancestors place ++ [place]).foldl (fun t a => t.insert a .directory) ∅ }

def herePath (f : FileTree) : Path := ⟨['/'], f.here⟩

end FileTree

end EnvFile
