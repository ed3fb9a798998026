import EnvFile.Text.Characters

namespace EnvFile

/-- Schemes that make a reader include, unpack or run what follows them. -/
def Hazard.schemes : List Text :=
  ["php", "phar", "expect", "zip", "glob", "rar", "ogg", "compress.zlib", "compress.bzip2"].map
    String.toList

namespace Hazard

/-- A character that a scheme's name may hold; a scheme that follows one is part of a longer name. -/
def inScheme (c : Char) : Bool :=
  Text.isSmallLetter c || c.isDigit || c == '+' || c == '.' || c == '-'

/-- The tunnelled schemes are a family: any letters may follow the point. -/
def opensTunnel (t : Text) : Bool :=
  match Text.after? "ssh2.".toList t with
  | some r =>
    let kind := r.takeWhile Text.isSmallLetter
    !kind.isEmpty && "://".toList.isPrefixOf (r.dropWhile Text.isSmallLetter)
  | none => false

/-- A payload mark stands before the first comma. -/
def payloadAhead : Text → Bool
  | [] => false
  | c :: t => ";base64,".toList.isPrefixOf (c :: t) || (c != ',' && payloadAhead t)

def opensData (t : Text) : Bool :=
  match Text.after? "data:".toList t with
  | some r => payloadAhead r
  | none => false

/-- A hazardous scheme begins right here, in a text of small letters. -/
def opens (t : Text) : Bool :=
  schemes.any (fun s => (s ++ "://".toList).isPrefixOf t) || opensTunnel t || opensData t

/-- A hazardous scheme begins here or later, and not inside a longer name. -/
def search (insideName : Bool) : Text → Bool
  | [] => false
  | c :: t => (!insideName && opens (c :: t)) || search (inScheme c) t

/-- The text carries a hazardous scheme, in letters of either case. -/
def carried (t : Text) : Bool := search false (t.map Text.foldCase)

example : carried "x PHP://y".toList = true ∧ carried "aphp://y".toList = false := by decide

example : carried "data:text/plain;base64,eA".toList = true := by decide

end Hazard

end EnvFile
