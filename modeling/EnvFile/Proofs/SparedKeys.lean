import EnvFile.Proofs.Saves
import EnvFile.Proofs.WrittenValues
import EnvFile.Reader

namespace EnvFile

namespace Edit

variable {key line t : Text}

theorem not_mem_overwrite (hk : '\n' ∉ key) (hline : '\r' ∉ line) (ht : '\r' ∉ t) :
    '\r' ∉ overwrite key line t := by
  cases h : (Text.pieces '\n' t).any (rewrites key) with
  | true =>
    rw [overwrite_of_any hk h]
    intro hm
    rcases Text.mem_of_mem_join hm with hm | ⟨q, hq, hm⟩
    · exact absurd hm (by decide)
    · obtain ⟨p, hp, rfl⟩ := List.mem_map.mp hq
      unfold rewritten at hm
      split at hm
      next => exact hline hm
      next => exact ht (Text.mem_of_mem_pieces hp hm)
  | false =>
    rcases overwrite_of_not_any line hk h with ⟨he, _⟩ | ⟨he, _⟩
    · rw [he]
      simp [hline, ht]
    · rw [he]
      simp [hline, ht]

end Edit

namespace Reader

theorem current_encode {t : Text} (h : '\r' ∉ t) :
    current (Utf8.encode t) = .ok (Text.lines (Utf8.unmarked t)) := by
  have hu : '\r' ∉ Utf8.unmarked t := by
    unfold Utf8.unmarked
    split
    next => exact fun hm => h (List.mem_cons_of_mem _ hm)
    next => exact h
  rw [current, Utf8.decode_encode]
  exact congrArg (fun u => Except.ok (Text.lines u)) (Text.unifyNewlines_of_not_mem hu)

theorem current_encode_of_unmarked {t : Text} (h : '\r' ∉ t) (hm : Utf8.unmarked t = t) :
    current (Utf8.encode t) = .ok (Text.lines t) := by
  rw [current_encode h, hm]

end Reader

namespace FileTree

/-- The drafts that a reader finds in a file. -/
def drafts? (f : FileTree) (p : Path) : Option (Table Text Text) :=
  (f.content? p).bind fun content => (Reader.current content).toOption.map Listing.drafts

variable {f f' : FileTree} {p : Path} {key : Text} {v : Value} {notices : List Notice}

theorem save_eq_ok {content : ByteArray} {old : Text} (hc : f.content? p = some content)
    (hd : Utf8.decode content = .ok old) (h : f.save p key v = (.ok (), f', notices)) :
    ∃ t, v.written = .ok t ∧
      f'.content? p =
        some (Utf8.encode (Edit.overwrite key (key ++ '=' :: t) (Text.unifyNewlines old))) := by
  obtain ⟨t, hw, ⟨place, content', old', hl, hn, _, _, hd', rfl⟩ | ⟨hfree, _⟩⟩ :=
    save_cases h
  · rw [content?_eq_some_iff.mpr ⟨place, hl, hn⟩] at hc
    cases hc
    rw [hd] at hd'
    cases hd'
    exact ⟨t, hw, content?_put hl hn _⟩
  · obtain ⟨place, hl, _⟩ := content?_eq_some_iff.mp hc
    exact absurd hl (hfree place)

theorem drafts?_of_decode {content : ByteArray} {t : Text} (hc : f.content? p = some content)
    (hd : Utf8.decode content = .ok t) :
    f.drafts? p = some (Listing.drafts (Text.lines (Text.unifyNewlines t))) := by
  simp [drafts?, hc, Reader.current, hd, Except.map, Except.toOption]

theorem drafts?_of_encode {t : Text} (hc : f.content? p = some (Utf8.encode t)) (ht : '\r' ∉ t) :
    f.drafts? p = some (Listing.drafts (Text.lines (Utf8.unmarked t))) := by
  simp [drafts?, hc, Reader.current_encode ht, Except.toOption]

/-- Saving a key leaves the drafts of all the others exactly where the edit spares them, and so it
does where the new line and the lines that give way to it are single lines to a reader. -/
theorem save_keeps_others_iff {content : ByteArray} {old : Text} (hk : Text.isAssignable key)
    (hc : f.content? p = some content) (hd : Utf8.decode content = .ok old)
    (h : f.save p key v = (.ok (), f', notices)) :
    ∃ t before after, v.written = .ok t ∧ f.drafts? p = some before ∧ f'.drafts? p = some after ∧
      ((∀ k, k ≠ key → after.get? k = before.get? k) ↔
        Edit.Spares key (key ++ '=' :: t) (Text.unifyNewlines old)) ∧
      ((∀ c ∈ t, Text.endsLine c = false) →
        (∀ q ∈ Text.pieces '\n' (Text.unifyNewlines old), Edit.rewrites key q →
          ∀ c ∈ q, Text.endsLine c = false) →
        (∀ c ∈ (Text.unifyNewlines old).head?, c ≠ '\uFEFF') →
        ∀ k, k ≠ key → after.get? k = before.get? k) := by
  obtain ⟨t, hw, hc'⟩ := save_eq_ok hc hd h
  have hn : '\n' ∉ key := Text.not_mem_assignable hk (by decide)
  have hr : '\r' ∉ key := Text.not_mem_assignable hk (by decide)
  have hline : '\r' ∉ key ++ '=' :: t := by
    simp [hr, (Value.not_mem_written hw).2]
  have hhead := Edit.head_line hk t
  have hnew := drafts?_of_encode hc'
    (Edit.not_mem_overwrite hn hline (Text.not_mem_unifyNewlines old))
  have hiff := Edit.drafts_overwrite_iff hn hhead (Text.unifyNewlines old)
  refine ⟨t, _, _, hw, drafts?_of_decode hc hd, hnew, hiff, fun ht hps hmark => ?_⟩
  exact hiff.mpr (Edit.spares_of_plain hk (Edit.not_endsLine_line hk ht) hps hmark)

def holding (t : Text) : FileTree :=
  { here := []
    nodes := (∅ : Table Place Node).insert [".env".toList] (.file (Utf8.encode t)) }

def envPath : Path := Path.ofText "/.env".toList

theorem save_holding (key : Text) {t u : Text} (hm : Utf8.unmarked t = t)
    (hw : v.written = .ok u) :
    (holding t).save envPath key v =
      (.ok (), holding (Edit.overwrite key (key ++ '=' :: u) (Text.unifyNewlines t)),
        [.persisted key envPath.toText]) := by
  have hd : Utf8.decode (Utf8.encode t) = .ok t := by rw [Utf8.decode_encode, hm]
  have hl : (holding t).locate envPath = .ok [".env".toList] := rfl
  have hc : (holding t).content? envPath = some (Utf8.encode t) := rfl
  have ha : (holding t).isWritable envPath = true := rfl
  unfold save saveLine
  simp only [hw, Except.map, hl, hc, ha, hd, ofText_line, Edit.overwriteRaw_ofText, fill,
    Utf8.encodeRaw_ofText]
  rfl

theorem save_keeps_others_iff_of_two :
    Text.isAssignable "A".toList ∧
    (holding "A=1\nB=2\n".toList).content? envPath = some (Utf8.encode "A=1\nB=2\n".toList) ∧
    Utf8.decode (Utf8.encode "A=1\nB=2\n".toList) = .ok "A=1\nB=2\n".toList ∧
    ∃ after notices,
      (holding "A=1\nB=2\n".toList).save envPath "A".toList (.text "x#".toList) =
        (.ok (), after, notices) ∧
      ∃ t old new, (Value.text "x#".toList).written = .ok t ∧
        (holding "A=1\nB=2\n".toList).drafts? envPath = some old ∧
        after.drafts? envPath = some new ∧ (∀ k, k ≠ "A".toList → new.get? k = old.get? k) ∧
        Edit.Spares "A".toList ("A".toList ++ '=' :: t)
          (Text.unifyNewlines "A=1\nB=2\n".toList) := by
  have hm : Utf8.unmarked "A=1\nB=2\n".toList = "A=1\nB=2\n".toList := rfl
  have hd : Utf8.decode (Utf8.encode "A=1\nB=2\n".toList) = .ok "A=1\nB=2\n".toList := by
    rw [Utf8.decode_encode, hm]
  have hw : (Value.text "x#".toList).written = .ok "\"x#\"".toList := rfl
  have hs := save_holding "A".toList hm hw
  refine ⟨by decide, rfl, hd, _, _, hs, ?_⟩
  obtain ⟨t, old, new, hw', ho, hn, hiff, hplain⟩ := save_keeps_others_iff (by decide) rfl hd hs
  rw [hw] at hw'
  cases hw'
  have hone : "\"x#\"".toList.all (!Text.endsLine ·) := rfl
  have hall : (Text.pieces '\n' (Text.unifyNewlines "A=1\nB=2\n".toList)).all
      (·.all (!Text.endsLine ·)) := by decide +kernel
  have hkeeps := hplain (by simpa using hone) (fun q hq _ => by simpa using List.all_eq_true.mp hall q hq)
    (by simp [Text.unifyNewlines])
  exact ⟨_, old, new, hw, ho, hn, hkeeps, hiff.mp hkeeps⟩

/-- A line tabulation ends a line for a reader only, so a value that holds one can declare another
key. -/
theorem save_declares_another :
    ∃ after notices old new, Text.isAssignable "A".toList ∧
      (holding "A=1\n".toList).save envPath "A".toList (.text "x\x0bB=2".toList) =
        (.ok (), after, notices) ∧
      (holding "A=1\n".toList).drafts? envPath = some old ∧ after.drafts? envPath = some new ∧
      old.get? "B".toList = none ∧ new.get? "B".toList = some "2".toList := by
  have hm : Utf8.unmarked "A=1\n".toList = "A=1\n".toList := rfl
  have hd : Utf8.decode (Utf8.encode "A=1\n".toList) = .ok "A=1\n".toList := by
    rw [Utf8.decode_encode, hm]
  have hw : (Value.text "x\x0bB=2".toList).written = .ok "x\x0bB=2".toList := rfl
  have hs := save_holding "A".toList hm hw
  refine ⟨_, _, _, _, by decide, hs, drafts?_of_decode rfl hd, drafts?_of_encode rfl ?_, ?_, ?_⟩
  · decide +kernel
  · decide +kernel
  · decide +kernel

end FileTree

end EnvFile
