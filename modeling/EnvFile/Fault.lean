import EnvFile.Text.Quoted
import EnvFile.Text.Utf8

namespace EnvFile

namespace Text

def ofNat (n : Nat) : Text := Nat.toDigits 10 n

def ofInt (n : Int) : Text := if n < 0 then '-' :: ofNat n.natAbs else ofNat n.natAbs

end Text

/-- What is known of a refused line. -/
structure LineReport where
  reason : Text
  line : Option Text
  number : Option Int
  path : Option Text
deriving DecidableEq, Repr

/-- What can go wrong. -/
inductive Fault
  | general (message : Text)
  | access (path reason : Text)
  | noFile (roots names : List Text)
  | malformed (report : LineReport)
  | invalidKey (report : LineReport)
  | dangerous (key : Option Text)
  | expansion (message : Text)
  /-- A variable is met again while it is being expanded. -/
  | recursive (chain : List Text)
  | tooDeep (chain : List Text) (limit : Int)
  | required (name message : Text)
  | badPlaceholder (placeholder detail : Text)
  | numeralTooLong (digits : Nat)
  | integerTooLong
  | depthBelowOne
  | noNames
  /-- A value with a line break has no place in a file. -/
  | lineBreak
  | lineBreakFor (key : Text)
  | notScalar (key kind : Text)
  /-- A name that is no text has no path. -/
  | notName (kind : Text)
  /-- Names cannot be told one after another where one is no text. -/
  | notListed (index : Nat) (kind : Text)
  | undecodable (fault : Undecodable)
  | unencodable (fault : Unencodable)
  | embeddedNul
  | illegalName
  | emptyName
  | pathTooLong (path : Text)
  /-- A directory on the way may not be searched. -/
  | pathForbidden (path : Text)
deriving DecidableEq, Repr

def LineReport.message (r : LineReport) : Text :=
  let number := fun n => "line ".toList ++ Text.ofInt n
  r.reason ++ match r.path, r.number with
    | some path, some n => " (".toList ++ path ++ ", ".toList ++ number n ++ ")".toList
    | some path, none => " (".toList ++ path ++ ")".toList
    | none, some n => " (".toList ++ number n ++ ")".toList
    | none, none => []

def Undecodable.Reason.text : Undecodable.Reason → Text
  | .startByte => "invalid start byte".toList
  | .continuationByte => "invalid continuation byte".toList
  | .endOfData => "unexpected end of data".toList

def Undecodable.message (u : Undecodable) : Text :=
  let place :=
    if u.length = 1 then
      "byte 0x".toList ++ Text.hex 2 u.byte.toNat ++ " in position ".toList ++ Text.ofNat u.position
    else
      "bytes in position ".toList ++ Text.ofNat u.position ++ "-".toList ++
        Text.ofNat (u.position + u.length - 1)
  "'utf-8' codec can't decode ".toList ++ place ++ ": ".toList ++ u.reason.text

def Unencodable.message (u : Unencodable) : Text :=
  let place :=
    if u.length = 1 then
      "character '\\u".toList ++ Text.hex 4 u.code ++ "' in position ".toList ++ Text.ofNat u.position
    else
      "characters in position ".toList ++ Text.ofNat u.position ++ "-".toList ++
        Text.ofNat (u.position + u.length - 1)
  "'utf-8' codec can't encode ".toList ++ place ++ ": surrogates not allowed".toList

namespace Fault

/-- The most digits that an integer may have where it is read or written. -/
def digitLimit : Nat := 4300

def chainText (chain : List Text) : Text := Text.join " -> ".toList chain

/-- A fault of files and of what they say. The others come from limits and from wrong calls. -/
def isOfFiles : Fault → Bool
  | general _ | access .. | noFile .. | malformed _ | invalidKey _ | dangerous _ | expansion _
  | recursive _ | tooDeep .. | required .. | badPlaceholder .. => true
  | numeralTooLong _ | integerTooLong | depthBelowOne | noNames | lineBreak | lineBreakFor _
  | notScalar .. | notName _ | notListed .. | undecodable _ | unencodable _ | embeddedNul | illegalName
  | emptyName | pathTooLong _ | pathForbidden _ => false

/-- A variable that is required and missing; without a message of its own it is just required. -/
def requiring (name message : Text) : Fault :=
  .required name (if message.isEmpty then name ++ " is required".toList else message)

/-- What the system says of a path that it does not take. -/
def ofSystem (reason path : Text) : Text := reason ++ ": ".toList ++ Text.quoted path

def message : Fault → Text
  | general m => m
  | access path reason => reason ++ ": ".toList ++ path
  | noFile roots names =>
    let places := Text.join ", ".toList roots
    "no env file found (looked for ".toList ++ Text.join ", ".toList names ++ " in ".toList ++
      (if places.isEmpty then "<no directories>".toList else places) ++ ")".toList
  | malformed r => r.message
  | invalidKey r => r.message
  | dangerous key =>
    "rejected dangerous env value".toList ++ match key with
      | some (c :: k) => " for key ".toList ++ c :: k
      | _ => []
  | expansion m => m
  | recursive chain => "recursive variable substitution: ".toList ++ chainText chain
  | tooDeep chain limit =>
    "substitution depth exceeded (".toList ++ Text.ofInt limit ++ "): ".toList ++ chainText chain
  | required name m => "required variable ".toList ++ name ++ " is missing: ".toList ++ m
  | badPlaceholder placeholder detail => detail ++ ": ".toList ++ placeholder
  | numeralTooLong digits =>
    "Exceeds the limit (".toList ++ Text.ofNat digitLimit ++
      " digits) for integer string conversion: value has ".toList ++ Text.ofNat digits ++
      " digits; use sys.set_int_max_str_digits() to increase the limit".toList
  | integerTooLong =>
    "Exceeds the limit (".toList ++ Text.ofNat digitLimit ++
      " digits) for integer string conversion; use sys.set_int_max_str_digits() to increase the limit".toList
  | depthBelowOne => "max_depth must be at least 1".toList
  | noNames => "at least one env file name is required".toList
  | lineBreak => "env file values must be a single line".toList
  | lineBreakFor key => "value for ".toList ++ Text.quoted key ++ " must be a single line".toList
  | notScalar key kind => "cannot cast value for ".toList ++ Text.quoted key ++ ": ".toList ++ kind
  | notName kind =>
    "unsupported operand type(s) for /: 'PosixPath' and '".toList ++ kind ++ ['\'']
  | notListed index kind =>
    "sequence item ".toList ++ Text.ofNat index ++ ": expected str instance, ".toList ++ kind ++
      " found".toList
  | undecodable u => u.message
  | unencodable u => u.message
  | embeddedNul => "embedded null byte".toList
  | illegalName => "illegal environment variable name".toList
  | emptyName => "[Errno 22] Invalid argument".toList
  | pathTooLong path => ofSystem "[Errno 36] File name too long".toList path
  | pathForbidden path => ofSystem "[Errno 13] Permission denied".toList path

end Fault

end EnvFile
