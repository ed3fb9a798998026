import EnvFile.Host

namespace EnvFile

inductive Operation
  | load (keys : List Text) (force tolerant : Bool)
  | loadSome (filter : KeyFilter) (reset : Bool)
  | unload
  | reload
  | clear (key : Text)
  | clearAll
  | assign (key : Text) (v : Value)
  | valueOr (key : Text) (default : Value)
  | put (key : Text) (v : Value)
  | value (key : Text)
  | values
  | rename (names : List Text)
  | setPublishing (publishing : Bool)

namespace Operation

/-- A registry and the files around it after an operation, with its answer. An operation that has
nothing to answer answers null. -/
def perform (o : Operation) (r : Registry) (files : FileTree) (writesAllowed : Bool) :
    Except Fault Value × Registry × FileTree × List Notice :=
  let done := fun (answer : Except Fault Unit × Registry × List Notice) =>
    (answer.1.map fun _ => Value.null, answer.2.1, files, answer.2.2)
  match o with
  | load keys force tolerant => done (r.load files keys force tolerant)
  | loadSome filter reset => done (r.loadSome files filter reset)
  | unload => done (.ok (), r.release)
  | reload => done (r.reload files)
  | clear key => (.ok .null, r.clear key, files, [])
  | clearAll => (.ok .null, r.clearAll, files, [])
  | assign key v =>
    let (answer, r, files, notices) := r.assign files writesAllowed key v
    (answer.map fun _ => .null, r, files, notices)
  | valueOr key default =>
    let (answer, r) := r.valueOr key default
    (answer, r, files, [])
  | put key v =>
    match r.put key v with
    | .error fault => (.error fault, r, files, [])
    | .ok r => (.ok .null, r, files, [])
  | value key => ((r.value? key).map (·.getD .null), r, files, [])
  | values => (r.values.map fun t => .dict t.entries, r, files, [])
  | rename names =>
    match r.rename names with
    | .error fault => (.error fault, r, files, [])
    | .ok r => (.ok .null, r, files, [])
  | setPublishing publishing => (.ok .null, r.setPublishing publishing, files, [])

/-- Whether an operation may put a value of its caller into the cache. -/
def takesValue : Operation → Bool
  | assign .. | valueOr .. | put .. => true
  | _ => false

end Operation

/-- A registry with tables of its own, and the files around it. -/
structure Scene where
  registry : Registry
  files : FileTree
  writesAllowed : Bool

/-- What can happen to a registry with tables of its own: it is asked for something, or the files
change in any way. -/
inductive Happening
  | operation (o : Operation)
  | outside (files : FileTree) (writesAllowed : Bool)

namespace Scene

def after (s : Scene) : Happening → Scene
  | .operation o =>
    let (_, registry, files, _) := o.perform s.registry s.files s.writesAllowed
    { s with registry, files }
  | .outside files writesAllowed => { s with files, writesAllowed }

def run (s : Scene) (happenings : List Happening) : Scene := happenings.foldl after s

end Scene

/-- What can happen to a host: a member is asked for something, a registry is opened, or the world
around changes in any way. -/
inductive Event
  | operation (member : Nat) (o : Operation)
  | opening (o : Opening) (cache : Nat) (ambient : Option Nat)
  | outside (files : FileTree) (environment : Table Text Text) (ambients : List (Table Text Value))
      (writesAllowed : Bool)

namespace Host

def perform (h : Host) (member : Nat) (o : Operation) : Except Fault Value × Host :=
  match h.member? member, o with
  | none, _ => (.ok .null, h)
  | some m, .assign key v =>
    let (answer, h) := h.assignAt m key v
    (answer.map fun _ => .null, h)
  | some m, o => h.act m fun r =>
    let (answer, r, _, notices) := o.perform r h.files h.writesAllowed
    (answer, r, notices)

def after (h : Host) : Event → Host
  | .operation member o => (h.perform member o).2
  | .opening o cache ambient => (h.openMember o cache ambient).2
  | .outside files environment ambients writesAllowed =>
    { h with files, environment, ambients, writesAllowed }

def run (h : Host) (events : List Event) : Host := events.foldl after h

end Host

end EnvFile
