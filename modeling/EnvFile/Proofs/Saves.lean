import EnvFile.Proofs.KeyLines
import EnvFile.Proofs.Places
import EnvFile.Proofs.WrittenValues
import EnvFile.Saving

namespace EnvFile

namespace Edit

theorem rewrites_nil (key : Text) : rewrites key [] = false := by
  rw [Bool.eq_false_iff]
  intro h
  exact absurd (rewrites_iff.mp h).mem List.not_mem_nil

/-- In an empty text the new line stands alone. -/
theorem overwrite_nil {key : Text} (hk : '\n' ∉ key) (line : Text) :
    overwrite key line [] = line ++ ['\n'] := by
  have hnone : (Text.pieces '\n' []).any (rewrites key) = false := by
    simp [Text.pieces, rewrites_nil]
  rw [overwrite, segments_eq_map hk, contains_declaration, hnone]
  rfl

end Edit

namespace FileTree

/-- The text of a file, its line ends made one, or an empty text where no file holds any. -/
def textAt (f : FileTree) (p : Path) : Text :=
  match (f.content? p).map Utf8.decode with
  | some (.ok t) => Text.unifyNewlines t
  | _ => []

variable {f f' : FileTree} {p : Path} {key : Text} {v : Value} {notices notices' : List Notice}
  {result : Except Fault Unit}

theorem textAt_of_decode {content : ByteArray} {t : Text} (hc : f.content? p = some content)
    (hd : Utf8.decode content = .ok t) : f.textAt p = Text.unifyNewlines t := by
  simp [textAt, hc, hd]

theorem textAt_of_encode {t : Text} (hc : f.content? p = some (Utf8.encode t)) (ht : '\r' ∉ t)
    (hm : Utf8.unmarked t = t) : f.textAt p = t := by
  have hd : Utf8.decode (Utf8.encode t) = .ok t := by rw [Utf8.decode_encode, hm]
  rw [textAt_of_decode hc hd, Text.unifyNewlines_of_not_mem ht]

theorem not_mem_textAt (f : FileTree) (p : Path) : '\r' ∉ f.textAt p := by
  unfold textAt
  split
  next t _ => exact Text.not_mem_unifyNewlines t
  next => simp

theorem textAt_of_locate_ne (h : ∀ place, f.locate p ≠ .ok place) : f.textAt p = [] := by
  have hnone : f.content? p = none := by
    cases hc : f.content? p with
    | none => rfl
    | some content =>
      obtain ⟨place, hl, _⟩ := content?_eq_some_iff.mp hc
      exact absurd hl (h place)
  simp [textAt, hnone]

/-- All that filling a file can do: it is left empty where the content has no encoding, and with a part
of it where there is no room for all of it. -/
theorem fill_cases {place : Place} {content : RawText} {told : List Notice}
    (h : f.fill p place content told = (result, f', notices)) :
    (∃ u, Utf8.encodeRaw content = .error u ∧ result = .error (.unencodable u) ∧
      f' = f.put place (.file .empty)) ∨
    ∃ bytes, Utf8.encodeRaw content = .ok bytes ∧
      ((∃ room, f.rooms.get? place = some room ∧ room < bytes.size ∧
          result = .error (.access p.toText "failed to write".toList) ∧
          f' = f.put place (.file (bytes.extract 0 room))) ∨
        (∀ room, f.rooms.get? place = some room → bytes.size ≤ room) ∧ result = .ok () ∧
          f' = f.put place (.file bytes)) := by
  unfold fill at h
  split at h
  next u hu =>
    cases h
    exact Or.inl ⟨u, hu, rfl, rfl⟩
  next bytes hb =>
    refine Or.inr ⟨bytes, hb, ?_⟩
    split at h
    next room hroom =>
      cases h
      obtain ⟨hroom, hlt⟩ := Option.filter_eq_some_iff.mp hroom
      exact Or.inl ⟨room, hroom, of_decide_eq_true hlt, rfl, rfl⟩
    next hroom =>
      cases h
      refine Or.inr ⟨fun room hr => ?_, rfl, rfl⟩
      rw [Option.filter_eq_none_iff] at hroom
      exact Nat.not_lt.mp (by simpa using hroom room hr)

/-- What a file is to hold once a key has got its line: an edit of the text that is there, or the line
alone in a file that is made in a directory that is there. -/
inductive Receives (f : FileTree) (p : Path) (key : Text) (line : RawText) : Place → RawText → Prop
  | edited {place : Place} {content : ByteArray} {old : Text} : f.locate p = .ok place →
      f.node? place = some (.file content) → f.isWritable p → place ∉ f.unreadable →
      Utf8.decode content = .ok old →
      Receives f p key line place (Edit.overwriteRaw key line (Text.unifyNewlines old))
  | made : (∀ place, f.locate p ≠ .ok place) → f.locate p ≠ .error .forbidden →
      p.holdsNul = false → byteCount p.toText < pathLimit → f.isWritable p.parent →
      f.find? p.parent = some .directory →
      Receives f p key line (f.normalise p) (line ++ [.char '\n'])

theorem refused {fault : Fault} (h : (.error fault, f, notices) = (result, f', notices')) :
    (∃ fault, result = .error fault) ∧ f' = f := by
  cases h
  exact ⟨⟨fault, rfl⟩, rfl⟩

theorem byteCount_lt_of_locate {dead : Dead} (h : f.locate p = .error dead) (hlong : dead ≠ .tooLong)
    (hnul : p.holdsNul = false) : byteCount p.toText < pathLimit := by
  by_contra hge
  unfold locate at h
  rw [hnul, if_neg Bool.false_ne_true, if_pos (Nat.not_lt.mp hge)] at h
  exact hlong (Except.error.inj h).symm

/-- A line is refused, and all files stay as they are, or a file is filled. -/
theorem saveLine_cases {written : Except Fault RawText}
    (h : f.saveLine p key written = (result, f', notices)) :
    ((∃ fault, result = .error fault) ∧ f' = f) ∨
    ∃ t place content, written = .ok t ∧
      f.Receives p key (RawText.ofText (key ++ ['=']) ++ t) place content ∧
      f.fill p place content [.persisted key p.toText] = (result, f', notices) := by
  unfold saveLine at h
  split at h
  next => exact Or.inl (refused h)
  next t =>
    simp only at h
    cases hl : f.locate p with
    | ok place =>
      simp only [hl] at h
      split at h
      next => exact Or.inl (refused h)
      next hwritable =>
        split at h
        next => exact Or.inl (refused h)
        next hreadable =>
          split at h
          next => exact Or.inl (refused h)
          next content hc =>
            obtain ⟨place', hl', hn⟩ := content?_eq_some_iff.mp hc
            obtain rfl := Except.ok.inj (hl.symm.trans hl')
            split at h
            next => exact Or.inl (refused h)
            next old hd =>
              exact Or.inr ⟨t, place, _, rfl,
                .edited hl hn (by simpa using hwritable) (by simpa using hreadable) hd, h⟩
    | error dead =>
      rw [hl] at h
      split at h
      next he => cases he
      next => exact Or.inl (refused h)
      next => exact Or.inl (refused h)
      next hlong hsearch he =>
        cases he
        split at h
        next => exact Or.inl (refused h)
        split at h
        next => exact Or.inl (refused h)
        next hwritable =>
          split at h
          next => exact Or.inl (refused h)
          next hnul =>
            rw [Bool.not_eq_true] at hnul
            split at h
            next hparent =>
              refine Or.inr ⟨t, f.normalise p, _, rfl, ?_, h⟩
              refine .made (by simp [hl]) ?_ hnul ?_ (by simpa using hwritable) hparent
              · rw [hl]
                exact fun he => hsearch (Except.error.inj he)
              · exact byteCount_lt_of_locate hl (fun he => hlong he) hnul
            next => exact Or.inl (refused h)

/-- A line of characters makes a content of characters. -/
theorem Receives.exists_text {line : Text} {place : Place} {content : RawText}
    (h : f.Receives p key (RawText.ofText line) place content) : ∃ t, content = RawText.ofText t ∧
      f.normalise p = place ∧ ('\n' ∉ key → t = Edit.overwrite key line (f.textAt p)) := by
  cases h with
  | edited hl hn _ _ hd =>
    refine ⟨_, Edit.overwriteRaw_ofText key line _, normalise_of_locate hl, fun _ => ?_⟩
    rw [textAt_of_decode (content?_eq_some_iff.mpr ⟨place, hl, hn⟩) hd]
  | made hfree =>
    refine ⟨line ++ ['\n'], by simp [RawText.ofText], rfl, fun hk => ?_⟩
    rw [textAt_of_locate_ne hfree, Edit.overwrite_nil hk]

theorem ofText_line (key t : Text) :
    RawText.ofText (key ++ ['=']) ++ RawText.ofText t = RawText.ofText (key ++ '=' :: t) := by
  simp [RawText.ofText]

/-- There is room for a text in the file at a path. -/
def Fits (f : FileTree) (p : Path) (t : Text) : Prop :=
  ∀ room, f.rooms.get? (f.normalise p) = some room → (Utf8.encode t).size ≤ room

/-- All that saving a value can do: it edits the file that is there, or makes one in a directory
that is there. -/
theorem save_cases (h : f.save p key v = (.ok (), f', notices)) :
    ∃ t, v.written = .ok t ∧
      ((∃ place content old, f.locate p = .ok place ∧ f.node? place = some (.file content) ∧
          f.isWritable p ∧ place ∉ f.unreadable ∧ Utf8.decode content = .ok old ∧
          f' = f.put place (.file (Utf8.encode
            (Edit.overwrite key (key ++ '=' :: t) (Text.unifyNewlines old))))) ∨
        ((∀ place, f.locate p ≠ .ok place) ∧ f.locate p ≠ .error .forbidden ∧ p.holdsNul = false ∧
          byteCount p.toText < pathLimit ∧ f.isWritable p.parent ∧
          f.find? p.parent = some .directory ∧
          f' = f.put (f.normalise p) (.file (Utf8.encode (key ++ '=' :: t ++ ['\n']))))) := by
  rcases saveLine_cases h with ⟨⟨_, he⟩, _⟩ | ⟨r, place, content, hw, hreceives, hfill⟩
  · cases he
  obtain ⟨t, hvalue, rfl⟩ := Results.map_eq_ok.mp hw
  rw [ofText_line] at hreceives
  refine ⟨t, hvalue, ?_⟩
  rcases fill_cases hfill with ⟨_, _, he, _⟩ | ⟨bytes, hb, ⟨_, _, _, he, _⟩ | ⟨_, _, rfl⟩⟩
  · cases he
  · cases he
  cases hreceives with
  | edited hl hn hwritable hreadable hd =>
    rw [Edit.overwriteRaw_ofText, Utf8.encodeRaw_ofText] at hb
    cases hb
    exact Or.inl ⟨place, _, _, hl, hn, hwritable, hreadable, hd, rfl⟩
  | made hfree hsearch hnul hshort hwritable hparent =>
    have hline : RawText.ofText (key ++ '=' :: t) ++ [.char '\n'] =
        RawText.ofText (key ++ '=' :: t ++ ['\n']) := by simp [RawText.ofText]
    rw [hline, Utf8.encodeRaw_ofText] at hb
    cases hb
    exact Or.inr ⟨hfree, hsearch, hnul, hshort, hwritable, hparent, rfl⟩

/-- The new text of a file did not fit, which showed only after the old one was gone. -/
def Overflows (f : FileTree) (p : Path) (key : Text) (v : Value) (after : FileTree) : Prop :=
  ∃ t content, v.written = .ok t ∧
    ¬f.Fits p (Edit.overwrite key (key ++ '=' :: t) (f.textAt p)) ∧
    after = f.put (f.normalise p) (.file content)

theorem fits_of_no_rooms (h : f.rooms = ∅) (p : Path) (t : Text) : f.Fits p t := by
  intro room hroom
  rw [h] at hroom
  cases hroom

theorem not_overflows_of_no_rooms {after : FileTree} (h : f.rooms = ∅) :
    ¬f.Overflows p key v after := by
  rintro ⟨t, _, _, hfull, _⟩
  exact hfull (fits_of_no_rooms h p _)

/-- A value that cannot be saved leaves the files as they are, unless its file has been emptied for a
text that does not fit. -/
theorem save_fault {fault : Fault} (hk : '\n' ∉ key)
    (h : f.save p key v = (.error fault, f', notices)) : f' = f ∨ f.Overflows p key v f' := by
  rcases saveLine_cases h with ⟨_, rfl⟩ | ⟨r, place, content, hw, hreceives, hfill⟩
  · exact Or.inl rfl
  obtain ⟨t, hvalue, rfl⟩ := Results.map_eq_ok.mp hw
  rw [ofText_line] at hreceives
  obtain ⟨u, rfl, rfl, hu⟩ := hreceives.exists_text
  rcases fill_cases hfill with ⟨_, hb, _⟩ | ⟨bytes, hb, ⟨room, hroom, hlt, _, rfl⟩ | ⟨_, he, _⟩⟩
  · rw [Utf8.encodeRaw_ofText] at hb
    cases hb
  · rw [Utf8.encodeRaw_ofText] at hb
    cases hb
    refine Or.inr ⟨t, _, hvalue, fun hfits => ?_, rfl⟩
    rw [← hu hk] at hfits
    exact absurd (hfits room hroom) (Nat.not_le.mpr hlt)
  · cases he

/-- Saving puts one node into the tree and does nothing else to it. -/
theorem exists_of_save (h : f.save p key v = (.ok (), f', notices)) :
    ∃ place n, f' = f.put place n := by
  obtain ⟨t, _, ⟨place, _, _, _, _, _, _, _, rfl⟩ | ⟨_, _, _, _, _, _, rfl⟩⟩ := save_cases h
  · exact ⟨_, _, rfl⟩
  · exact ⟨_, _, rfl⟩

theorem exists?_of_content? {content : ByteArray} (h : f.content? p = some content) :
    f.exists? p := by
  obtain ⟨place, hl, hn⟩ := content?_eq_some_iff.mp h
  rw [exists?, find?_eq_some_iff.mpr ⟨place, hl, hn⟩]
  rfl

theorem rest_of_save (h : f.save p key v = (.ok (), f', notices)) :
    f'.normalise p = f.normalise p ∧ f'.unreadable = f.unreadable ∧
      f'.unwritable = f.unwritable ∧ f'.withheld = f.withheld ∧ f'.rooms = f.rooms := by
  obtain ⟨place, n, rfl⟩ := exists_of_save h
  exact ⟨rfl, rfl, rfl, rfl, rfl⟩

theorem isReadable_of_save {new : ByteArray} (h : f.save p key v = (.ok (), f', notices))
    (hr : f.normalise p ∉ f.unreadable) (hheld : f.normalise p ∉ f.withheld)
    (hc : f'.content? p = some new) : f'.isReadable p := by
  obtain ⟨hplace, hunreadable, _, hwithheld, _⟩ := rest_of_save h
  unfold isReadable
  rw [exists?_of_content? hc, hplace, hunreadable, hwithheld]
  simpa using ⟨hr, hheld⟩

/-- Saved under a name that a file can have, the text of the file has been edited. -/
theorem content?_of_save {segments : List Text} {name : Text} (hk : '\n' ∉ key)
    (hp : p.segments = segments ++ [name]) (hname : name ≠ "..".toList)
    (hshort : byteCount name ≤ nameLimit) (h : f.save p key v = (.ok (), f', notices)) :
    ∃ t, v.written = .ok t ∧
      f'.content? p = some (Utf8.encode (Edit.overwrite key (key ++ '=' :: t) (f.textAt p))) := by
  obtain ⟨t, hw, ⟨place, content, old, hl, hn, _, _, hd, rfl⟩ |
    ⟨hfree, hsearch, hnul, hlong, _, hparent, rfl⟩⟩ := save_cases h
  · refine ⟨t, hw, ?_⟩
    rw [textAt_of_decode (content?_eq_some_iff.mpr ⟨place, hl, hn⟩) hd]
    exact content?_put hl hn _
  · refine ⟨t, hw, ?_⟩
    rw [textAt_of_locate_ne hfree, Edit.overwrite_nil hk]
    exact content?_put_new hp hname hshort hnul hlong hfree hsearch hparent _

end FileTree

end EnvFile
