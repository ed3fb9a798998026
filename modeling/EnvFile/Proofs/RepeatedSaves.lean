import EnvFile.Proofs.EditedLines

namespace EnvFile

namespace Text

end Text

namespace Edit

open Text

variable {k k' l l' : Text} {ps : List Text}

/-- What stands before the sign on a line, without the pads. -/
def signed (p : Text) : Text := (p.filter (!isPad ·)).takeWhile (· != '=')

theorem signed_of_assigns (hk : isAssignable k) {p : Text} (h : Assigns k p) :
    signed p = k ∨ signed p = "export".toList ++ k := by
  have hpads : ∀ t, IsPadding t → t.filter (!isPad ·) = [] := fun t ht =>
    List.filter_eq_nil_iff.mpr fun c hc => by simp [ht c hc]
  have hkey : k.filter (!isPad ·) = k := List.filter_eq_self.mpr fun c hc => by
    rw [Bool.not_eq_true', Bool.eq_false_iff]
    exact fun hp => absurd (isBlank_of_isPad hp) (by simp [not_isBlank_of_mem_assignable hk hc])
  have hword : "export".toList.filter (!isPad ·) = "export".toList := by decide
  have hsign : ∀ right : Text, ('=' :: right).filter (!isPad ·) = '=' :: right.filter (!isPad ·) :=
    fun right => List.filter_cons_of_pos (by decide)
  have stop : ∀ {t : Text}, '=' ∉ t → ∀ right, (t ++ '=' :: right).takeWhile (· != '=') = t := by
    intro t ht right
    rw [takeWhile_append_stop (by decide)]
    exact (Declaration.takeWhile_of_not_mem ht).1
  have hne : '=' ∉ k := not_mem_assignable hk (by decide)
  unfold signed
  cases h with
  | @bare front back right hfront hback =>
    left
    rw [List.filter_append, List.filter_append, List.filter_append, hpads front hfront,
      hpads back hback, hkey, hsign, List.nil_append, List.append_nil]
    exact stop hne _
  | @exported front gap back right hfront hgap _ hback =>
    right
    rw [List.filter_append, List.filter_append, List.filter_append, List.filter_append,
      List.filter_append, hpads front hfront, hpads gap hgap, hpads back hback, hkey, hword, hsign,
      List.nil_append, List.nil_append, List.append_nil, ← List.append_assoc]
    exact stop (by simp [hne]) _

/-- A line assigns to one key at most. -/
theorem Assigns.unique (hk : isAssignable k) (hk' : isAssignable k') {p : Text}
    (h : Assigns k p) (h' : Assigns k' p) : k = k' := by
  have hword : ∀ {t : Text}, isAssignable t → ∀ u : Text, t ≠ "export".toList ++ u := by
    rintro t ht u rfl
    exact absurd (List.mem_append_left u (by decide : 'e' ∈ "export".toList))
      (not_mem_assignable ht (by decide))
  rcases signed_of_assigns hk h with hs | hs <;> rcases signed_of_assigns hk' h' with hs' | hs'
  · exact hs.symm.trans hs'
  · exact absurd (hs.symm.trans hs') (hword hk k')
  · exact absurd (hs'.symm.trans hs) (hword hk' k)
  · exact List.append_cancel_left (hs.symm.trans hs')

end Edit

/-- What is saved under a key: a value, or a string that may hold code points without an encoding. -/
inductive Payload
  | value (v : Value)
  | string (r : RawText)

namespace Payload

def written : Payload → Except Fault RawText
  | value v => v.written.map RawText.ofText
  | string r => r.written

end Payload

namespace Edit

/-- What a text becomes when keys get their lines in it one after another, as long as each new text
will do. -/
inductive Amends (fits : Text → Prop) : Text → List (Text × Payload) → Text → Prop
  | done {t : Text} : Amends fits t [] t
  | next {t t' key w : Text} {i : Payload} {es : List (Text × Payload)} :
      i.written = .ok (RawText.ofText w) → fits (overwrite key (key ++ '=' :: w) t) →
      Amends fits (overwrite key (key ++ '=' :: w) t) es t' → Amends fits t ((key, i) :: es) t'

theorem Amends.unique {fits : Text → Prop} {t u u' : Text} {es : List (Text × Payload)}
    (h : Amends fits t es u) (h' : Amends fits t es u') : u = u' := by
  induction h with
  | done =>
    cases h'
    rfl
  | next hw _ _ ih =>
    cases h' with
    | next hw' _ hrest =>
      rw [hw] at hw'
      obtain rfl := RawText.ofText_inj.mp (Except.ok.inj hw')
      exact ih hrest

end Edit

namespace FileTree

open Edit

variable {f f' : FileTree} {p : Path} {key w : Text} {v : Value} {i : Payload} {notices : List Notice}

/-- A path to a file that holds a text with no second mark at its start, or to a name that is free in a
directory that is there. -/
inductive Textual (f : FileTree) (p : Path) : Prop
  | file {content : ByteArray} {old : Text} : f.content? p = some content →
      Utf8.decode content = .ok old → (∀ c ∈ old.head?, c ≠ '\uFEFF') → Textual f p
  | free : f.locate p = .error .missing → p.holdsNul = false → f.find? p.parent = some .directory →
      Textual f p

section Pairs

variable {k k' : Text} {i i' : Payload}

end Pairs

end FileTree

end EnvFile
