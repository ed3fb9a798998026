import EnvFile.Line
import EnvFile.Notice
import EnvFile.Scope

namespace EnvFile

/-- Which keys of a file are wanted. -/
inductive KeyFilter
  | all
  | among (keys : List Text)
  | containing (parts : List Text)
deriving DecidableEq, Repr

def KeyFilter.admits : KeyFilter → Text → Bool
  | all, _ => true
  | among keys, key => keys.contains key
  | containing parts, key => parts.any fun part => Text.holds part key

namespace Listing

/-- The drafts that the lines of a file declare; a later one counts, in the place of the first. -/
def drafts (lines : List Text) : Table Text Text :=
  lines.foldl (fun t line =>
    match Line.ofText line with
    | .declaration key draft => t.insert key draft
    | _ => t) ∅

/-- The value that a draft gives to its key. What a reference empties is an empty text. -/
def value (s : Scope) (key draft : Text) : Except Fault Value := do
  let t ← s.expand (some key) draft
  if Hazard.carried t then .error (.dangerous (some key))
  else if t.isEmpty && !draft.isEmpty then .ok (.text [])
  else Value.ofText t

/-- The entry of a single line, if it declares one that is wanted. -/
def entry? (s : Scope) (filter : KeyFilter) (line : Text) : Except Fault (Option (Text × Value)) :=
  match Line.ofText line with
  | .silent => .ok none
  | .broken problem => .error (.malformed ⟨problem.reason, some line, none, none⟩)
  | .declaration key draft =>
    if filter.admits key then (value s key draft).map fun v => some (key, v) else .ok none

/-- How the lines of a file are taken; `path` is its name in reports. -/
structure Manner where
  filter : KeyFilter
  tolerant : Bool
  path : Text
deriving DecidableEq, Repr

/-- Reads lines on, after `staged` has been read from those before. -/
def entriesFrom (s : Scope) (m : Manner) :
    (number : Nat) → List Text → (staged : Table Text Value) → Except Fault (Table Text Value) × List Notice
  | _, [], staged => (.ok staged, [])
  | number, line :: lines, staged =>
    match Line.ofText line with
    | .silent => entriesFrom s m (number + 1) lines staged
    | .broken problem =>
      let report := ⟨problem.reason, some line, some number, some m.path⟩
      if m.tolerant then
        let (result, notices) := entriesFrom s m (number + 1) lines staged
        (result, .skippedLine report :: notices)
      else (.error (.malformed report), [])
    | .declaration key draft =>
      if m.filter.admits key then
        match value { s with overlay := staged } key draft with
        | .error fault => (.error fault, [])
        | .ok v => entriesFrom s m (number + 1) lines (staged.insert key v)
      else entriesFrom s m (number + 1) lines staged

/-- The entries of a file in the order of its lines, with a notice for each line skipped. -/
def entries (cache ambient : Table Text Value) (m : Manner) (lines : List Text) :
    Except Fault (Table Text Value) × List Notice :=
  entriesFrom ⟨∅, cache, ambient, drafts lines, Scope.defaultLimit⟩ m 1 lines ∅

end Listing

end EnvFile
