import EnvFile.Command.Outcome

namespace EnvFile

def usageLine : String :=
  "usage: tinyenv [-h] [--root ROOT] [--file FILE] [--tolerant] [-v] \x7bget,dump,check\x7d ...\n"

/-- The variables of an environment block, which a zero byte ends each. -/
def environmentOf (block : ByteArray) : Table Text Text :=
  match Utf8.decode block with
  | .error _ => ∅
  | .ok t => (Text.pieces '\x00' t).foldl (fun e v =>
      match v.dropWhile (· ≠ '=') with
      | [] => e
      | _ :: given => e.insert (v.takeWhile (· ≠ '=')) given) ∅

/-- The node at a path of the machine. A path through a file leads nowhere. -/
def probe (p : Path) : IO (Option Node × Bool) := do
  try
    return (some (.file (← IO.FS.readBinFile (String.ofList p.toText))), true)
  catch
    | .noFileOrDirectory .. => return (none, true)
    | .inappropriateType _ 20 _ => return (none, true)
    | .permissionDenied .. => return (some (.file .empty), false)
    | _ => return (some .directory, true)

/-- Takes the nodes on the way to a path, and the one there, into a tree. A directory that may not be
searched does not even give itself. -/
def fetch (files : FileTree) (p : Path) : IO FileTree := do
  let mut files := files
  for n in [0 : p.segments.length + 1] do
    let way : Path := ⟨p.lead, p.segments.take n⟩
    match ← probe way with
    | (none, _) => pure ()
    | (some (.file content), readable) =>
      files := files.plant way (.file content)
      unless readable do files := files.forbidReading way
    | (some .directory, _) =>
      files := files.plant way .directory
      let (_, searchable) ← probe ⟨way.lead, way.segments ++ [['.']]⟩
      unless searchable do files := files.forbidSearching way
  return files

def usage (u : Usage) : IO Unit :=
  match u with
  | .help => IO.print usageLine
  | .refused => IO.eprint usageLine

/-- Carries a command line out and gives its exit status. Files and environment are read into
values first, and what the invocation leaves is printed. -/
def perform (args : List String) : IO UInt32 := do
  match Invocation.ofArguments (args.map String.toList) with
  | .error u =>
    usage u
    return u.status.toUInt32
  | .ok i =>
    let here := Path.ofText (← IO.currentDir).toString.toList
    let environment := environmentOf (← IO.FS.readBinFile "/proc/self/environ")
    let files ← (i.paths here environment).foldlM fetch (FileTree.bare here)
    let (result, cautions) := i.run files environment
    for n in cautions do IO.eprintln (String.ofList n.line)
    match result with
    | .ok o =>
      IO.print (String.ofList o.printed)
      IO.eprint (String.ofList o.said)
      return o.status.toUInt32
    | .error fault =>
      IO.eprintln (String.ofList fault.message)
      return 1

end EnvFile

def main (args : List String) : IO UInt32 := EnvFile.perform args
