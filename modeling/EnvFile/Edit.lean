import EnvFile.Value.Printing

namespace EnvFile

/-- The text of a value in an env file: on one line, and between marks where a reader would lose
blanks or take a comment. -/
def Value.written : Value → Except Fault Text
  | null => .ok []
  | bool true => .ok "true".toList
  | bool false => .ok "false".toList
  | v => do
    let raw ← v.display
    let t := Text.trim raw
    if raw.contains '\n' || raw.contains '\r' then .error .lineBreak
    else if t.contains '#' || t != raw then .ok ('"' :: t ++ ['"'])
    else .ok t

namespace RawText

def isBlank : CodePoint → Bool
  | .char c => Text.isBlank c
  | .half _ => false

def trim (r : RawText) : RawText :=
  ((r.dropWhile isBlank).reverse.dropWhile isBlank).reverse

/-- The same for a string that may have no encoding. -/
def written (r : RawText) : Except Fault RawText :=
  let t := r.trim
  if r.contains (.char '\n') || r.contains (.char '\r') then .error .lineBreak
  else if t.contains (.char '#') || t != r then .ok (.char '"' :: t ++ [.char '"'])
  else .ok t

end RawText

namespace Edit

def isPad (c : Char) : Bool := c == ' ' || c == '\t'

/-- What can be left of a text when pads at its start are dropped, the least first. -/
def unpadded : Text → List Text
  | c :: t => (if isPad c then unpadded t else []) ++ [c :: t]
  | [] => [[]]

theorem length_le_of_mem_unpadded {t u : Text} (h : u ∈ unpadded t) : u.length ≤ t.length := by
  induction t with
  | nil => simp_all [unpadded]
  | cons c t ih =>
    rcases List.mem_append.mp h with h | h
    · split at h
      next => exact Nat.le_trans (ih h) (by simp)
      next => simp at h
    · cases List.mem_singleton.mp h
      exact Nat.le_refl _

/-- The end of the line, where a text begins with a key and its sign. -/
def afterSign? (key t : Text) : Option Text :=
  match (Text.after? key t).map (·.dropWhile isPad) with
  | some ('=' :: right) => some (right.dropWhile (· != '\n'))
  | _ => none

theorem afterSign?_length_le {key t r : Text} (h : afterSign? key t = some r) :
    r.length ≤ t.length := by
  unfold afterSign? at h
  split at h
  next right hm =>
    cases h
    obtain ⟨u, hu, hd⟩ := Option.map_eq_some_iff.mp hm
    have hs := (List.dropWhile_sublist (l := right) (· != '\n')).length_le
    have hp := (List.dropWhile_sublist (l := u) isPad).length_le
    rw [hd, List.length_cons] at hp
    rw [Text.after?_eq_some_iff] at hu
    subst hu
    simp only [List.length_append]
    omega
  next => simp at h

/-- The same after the word that marks a variable for export. -/
def afterExport? (key t : Text) : Option Text :=
  match Text.after? "export".toList t with
  | some (c :: u) => if isPad c then (unpadded u).findSome? (afterSign? key) else none
  | _ => none

theorem afterExport?_length_le {key t r : Text} (h : afterExport? key t = some r) :
    r.length ≤ t.length := by
  unfold afterExport? at h
  split at h
  next c u hu =>
    split at h
    next =>
      obtain ⟨v, hv, hr⟩ := List.exists_of_findSome?_eq_some h
      have := afterSign?_length_le hr
      have := length_le_of_mem_unpadded hv
      rw [Text.after?_eq_some_iff] at hu
      subst hu
      simp only [List.length_append, List.length_cons]
      omega
    next => simp at h
  next => simp at h

/-- The end of the line, where a text begins with a declaration of a key. -/
def afterDeclaration? (key t : Text) : Option Text :=
  (unpadded t).findSome? fun u => (afterExport? key u).or (afterSign? key u)

theorem afterDeclaration?_length_le {key t r : Text} (h : afterDeclaration? key t = some r) :
    r.length ≤ t.length := by
  obtain ⟨u, hu, hr⟩ := List.exists_of_findSome?_eq_some h
  have hl := length_le_of_mem_unpadded hu
  rcases Option.or_eq_some_iff.mp hr with he | ⟨_, he⟩
  · exact Nat.le_trans (afterExport?_length_le he) hl
  · exact Nat.le_trans (afterSign?_length_le he) hl

/-- A line of a file, as an edit of one key sees it. -/
inductive Segment
  | declaration
  | other (line : Text)
deriving DecidableEq, Repr

/-- The line at the start of a text, and what is left from its end on. -/
def firstSegment (key t : Text) : Segment × Text :=
  match afterDeclaration? key t with
  | some r => (.declaration, r)
  | none => (.other (t.takeWhile (· != '\n')), t.dropWhile (· != '\n'))

theorem firstSegment_length_le (key t : Text) : (firstSegment key t).2.length ≤ t.length := by
  unfold firstSegment
  split
  next r h => exact afterDeclaration?_length_le h
  next => exact (List.dropWhile_sublist _).length_le

/-- The lines of a text, one more than there are line feeds between them. -/
def segments (key t : Text) : List Segment :=
  match _h : (firstSegment key t).2 with
  | [] => [(firstSegment key t).1]
  | _ :: next => (firstSegment key t).1 :: segments key next
termination_by t.length
decreasing_by
  have := firstSegment_length_le key t
  rw [_h, List.length_cons] at this
  omega

/-- Every declaration of the key gives way to the new line; without one the line is added last. -/
def overwrite (key line t : Text) : Text :=
  let ss := segments key t
  if ss.contains .declaration then
    Text.join ['\n'] (ss.map fun
      | .declaration => line
      | .other l => l)
  else
    let ended := if t.isEmpty || t.getLast? == some '\n' then t else t ++ ['\n']
    ended ++ line ++ ['\n']

/-- The same for a line that may have no encoding. -/
def overwriteRaw (key : Text) (line : RawText) (t : Text) : RawText :=
  let ss := segments key t
  if ss.contains .declaration then
    Text.join [.char '\n'] (ss.map fun
      | .declaration => line
      | .other l => RawText.ofText l)
  else
    let ended := if t.isEmpty || t.getLast? == some '\n' then t else t ++ ['\n']
    RawText.ofText ended ++ line ++ [.char '\n']

end Edit

end EnvFile
