import EnvFile.Text.Basic

namespace EnvFile

/-- The value of a variable. Files hold no lists and no dictionaries; callers may pass them in. -/
inductive Value
  | null
  | bool (b : Bool)
  | int (n : Int)
  | float (x : Float)
  | text (t : Text)
  | list (items : List Value)
  | dict (entries : List (Text × Value))
deriving Inhabited

namespace Value

mutual

def decEq : (a b : Value) → Decidable (a = b)
  | null, null => isTrue rfl
  | bool a, bool b => decidable_of_iff (a = b) (by simp)
  | int a, int b => decidable_of_iff (a = b) (by simp)
  | float a, float b => decidable_of_iff (a = b) (by simp)
  | text a, text b => decidable_of_iff (a = b) (by simp)
  | list a, list b => @decidable_of_iff _ (a = b) (by simp) (decEqItems a b)
  | dict a, dict b => @decidable_of_iff _ (a = b) (by simp) (decEqEntries a b)
  | null, bool _ | null, int _ | null, float _ | null, text _ | null, list _ | null, dict _
  | bool _, null | bool _, int _ | bool _, float _ | bool _, text _ | bool _, list _ | bool _, dict _
  | int _, null | int _, bool _ | int _, float _ | int _, text _ | int _, list _ | int _, dict _
  | float _, null | float _, bool _ | float _, int _ | float _, text _ | float _, list _
  | float _, dict _
  | text _, null | text _, bool _ | text _, int _ | text _, float _ | text _, list _ | text _, dict _
  | list _, null | list _, bool _ | list _, int _ | list _, float _ | list _, text _ | list _, dict _
  | dict _, null | dict _, bool _ | dict _, int _ | dict _, float _ | dict _, text _
  | dict _, list _ => isFalse nofun

def decEqItems : (a b : List Value) → Decidable (a = b)
  | [], [] => isTrue rfl
  | [], _ :: _ | _ :: _, [] => isFalse nofun
  | a :: as, b :: bs =>
    match decEq a b, decEqItems as bs with
    | isTrue h, isTrue hs => isTrue (by rw [h, hs])
    | isFalse h, _ => isFalse fun e => h (List.cons.inj e).1
    | _, isFalse h => isFalse fun e => h (List.cons.inj e).2

def decEqEntries : (a b : List (Text × Value)) → Decidable (a = b)
  | [], [] => isTrue rfl
  | [], _ :: _ | _ :: _, [] => isFalse nofun
  | (j, a) :: as, (k, b) :: bs =>
    if hk : j = k then
      match decEq a b, decEqEntries as bs with
      | isTrue h, isTrue hs => isTrue (by rw [hk, h, hs])
      | isFalse h, _ => isFalse fun e => h (Prod.mk.inj (List.cons.inj e).1).2
      | _, isFalse h => isFalse fun e => h (List.cons.inj e).2
    else isFalse fun e => hk (Prod.mk.inj (List.cons.inj e).1).1

end

instance : DecidableEq Value := decEq

def text? : Value → Option Text
  | text t => some t
  | _ => none

/-- The kind of a value that is not a scalar. -/
def compound? : Value → Option Text
  | list _ => some "list".toList
  | dict _ => some "dict".toList
  | _ => none

end Value

end EnvFile
