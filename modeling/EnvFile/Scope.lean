import EnvFile.Hazard
import EnvFile.Table
import EnvFile.Template.Basic
import EnvFile.Value.Printing
import EnvFile.Value.Reading

namespace EnvFile

/-- Where the variables of a template are looked up: first among the values already read from its
file, then in the cache, then in the ambient table, and last among the texts of its file, which
may be declared further down. A chain of names holds at most `limit` of them. -/
structure Scope where
  overlay : Table Text Value
  cache : Table Text Value
  ambient : Table Text Value
  drafts : Table Text Text
  limit : Nat

namespace Scope

/-- The most names in a chain, unless a caller says otherwise. -/
def defaultLimit : Nat := 10

def limit? (n : Int) : Except Fault Nat :=
  if n < 1 then .error .depthBelowOne else .ok n.toNat

def value? (s : Scope) (name : Text) : Option Value :=
  (s.overlay.get? name).or ((s.cache.get? name).or (s.ambient.get? name))

/-- A text on its way into a template. The owner of the chain answers for a hazardous one. -/
def screen (chain : List Text) (name t : Text) : Except Fault Text :=
  if Hazard.carried t then .error (.dangerous (some (chain.headD name))) else .ok t

/-- The text of a variable, where `expand` expands a draft in a longer chain. -/
def lookUp (s : Scope) (expand : List Text → Text → Except Fault Text) (chain : List Text)
    (name : Text) : Except Fault (Option Text) :=
  if name ∈ chain then .error (.recursive (chain ++ [name]))
  else if s.limit ≤ chain.length then .error (.tooDeep (chain ++ [name]) s.limit)
  else match s.value? name with
    | some v => v.splice.map some
    | none =>
      match s.drafts.get? name with
      | some draft => do
        let v ← Value.ofText (← expand (chain ++ [name]) draft)
        v.splice.map some
      | none => .ok none

mutual

/-- The text of an item; a default is expanded only where it is used. -/
def expandItem (s : Scope) (expand : List Text → Text → Except Fault Text) (chain : List Text) :
    Item → Except Fault Text
  | .literal t => .ok t
  | .value name => do
    let found ← s.lookUp expand chain name
    screen chain name (found.getD [])
  | .withDefault name enough default => do
    match ← s.lookUp expand chain name with
    | some t =>
      if enough.met t then screen chain name t
      else screen chain name (← expandItems s expand chain default)
    | none => screen chain name (← expandItems s expand chain default)
  | .required name enough message => do
    match ← s.lookUp expand chain name with
    | some t => if enough.met t then screen chain name t else .error (.requiring name message)
    | none => .error (.requiring name message)
  | .broken placeholder detail => .error (.badPlaceholder placeholder detail)
termination_by structural item => item

/-- The texts of the items in a row; the first failure decides. -/
def expandItems (s : Scope) (expand : List Text → Text → Except Fault Text) (chain : List Text) :
    Template → Except Fault Text
  | [] => .ok []
  | item :: items => do
    let t ← expandItem s expand chain item
    .ok (t ++ (← expandItems s expand chain items))
termination_by structural template => template

end

/-- The expansion of a text in a chain that can take `room` more names. -/
def expandIn (s : Scope) : (room : Nat) → (chain : List Text) → Text → Except Fault Text
  | 0, chain, t =>
    s.expandItems (fun chain _ => .error (.tooDeep chain s.limit)) chain (Template.ofText t)
  | room + 1, chain, t => s.expandItems (s.expandIn room) chain (Template.ofText t)

/-- The text of a value with its references replaced. The name of the variable that owns the value
starts the chain; an empty name owns nothing. -/
def expand (s : Scope) (owner : Option Text) (t : Text) : Except Fault Text :=
  let chain := owner.toList.filter (!·.isEmpty)
  s.expandIn (s.limit - chain.length) chain t

end Scope

end EnvFile
