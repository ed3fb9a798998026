import EnvFile.Proofs.SparedKeys

namespace EnvFile

namespace Edit

open Text

variable {key line : Text} {ps : List Text}

/-- The lines of a text, without the empty one that follows a last line feed. -/
def ended (ps : List Text) : List Text :=
  if ps.getLast? = some [] then ps.dropLast else ps

def amendedLine (key line p : Text) : Text := if Assigns key p then line else p

/-- Lines in which a key gets a new line: it takes the place of every line that assigns to the key,
and only if there is none it is added as the last. -/
def amended (key line : Text) (ps : List Text) : List Text :=
  if ∃ p ∈ ps, Assigns key p then ps.map (amendedLine key line) else ended ps ++ [line, []]

theorem any_rewrites_iff : ps.any (rewrites key) ↔ ∃ p ∈ ps, Assigns key p := by
  rw [List.any_eq_true]
  exact exists_congr fun p => and_congr_right fun _ => rewrites_iff

theorem rewritten_eq_amendedLine (key line p : Text) :
    rewritten key line p = amendedLine key line p :=
  if_congr rewrites_iff rfl rfl

theorem ended_concat_nil (ps : List Text) : ended (ps ++ [[]]) = ps := by
  simp [ended]

theorem ended_concat_of_ne (ps : List Text) {p : Text} (h : p ≠ []) :
    ended (ps ++ [p]) = ps ++ [p] := by
  simp [ended, h]

/-- An edit of a text is one of its lines. -/
theorem pieces_overwrite (hk : '\n' ∉ key) (hline : '\n' ∉ line) (t : Text) :
    pieces '\n' (overwrite key line t) = amended key line (pieces '\n' t) := by
  have hended : pieces '\n' (line ++ ['\n']) = [line, []] := by
    rw [pieces_append, pieces_of_not_mem hline]
    rfl
  unfold amended
  cases h : (pieces '\n' t).any (rewrites key) with
  | true =>
    have hmap : (pieces '\n' t).map (rewritten key line) =
        (pieces '\n' t).map (amendedLine key line) :=
      List.map_congr_left fun p _ => rewritten_eq_amendedLine key line p
    rw [if_pos (any_rewrites_iff.mp h), overwrite_of_any hk h, hmap]
    refine pieces_join '\n' (by simpa using pieces_ne_nil '\n' t) fun q hq => ?_
    obtain ⟨p, hp, rfl⟩ := List.mem_map.mp hq
    unfold amendedLine
    split
    next => exact hline
    next => exact not_mem_of_mem_pieces hp
  | false =>
    have hnone : ¬∃ p ∈ pieces '\n' t, Assigns key p := by
      rw [← any_rewrites_iff, h]
      exact Bool.false_ne_true
    rw [if_neg hnone]
    rcases overwrite_of_not_any line hk h with ⟨he, u, c, hc, rfl⟩ | ⟨he, rfl | ⟨u, rfl⟩⟩
    · obtain ⟨qs, q, hq⟩ := pieces_concat_of_ne hc u
      rw [he, pieces_append, hended, hq, ended_concat_of_ne qs (by simp)]
    · rw [he, List.nil_append, hended]
      rfl
    · have hu : pieces '\n' (u ++ ['\n']) = pieces '\n' u ++ [[]] := pieces_append '\n' u []
      rw [he, hu, ended_concat_nil, List.append_assoc, List.singleton_append, pieces_append, hended]

/-- The line that a key and its value get is a single one. -/
theorem not_mem_line {v : Value} {w : Text} (hk : isAssignable key) (hw : v.written = .ok w) :
    '\n' ∉ key ++ '=' :: w ∧ '\r' ∉ key ++ '=' :: w := by
  obtain ⟨hn, hr⟩ := Value.not_mem_written hw
  have hn' : '\n' ∉ key := not_mem_assignable hk (by decide)
  have hr' : '\r' ∉ key := not_mem_assignable hk (by decide)
  exact ⟨by simp [hn, hn'], by simp [hr, hr']⟩

theorem pieces_overwrite_written {v : Value} {w : Text} (hk : isAssignable key)
    (hw : v.written = .ok w) (t : Text) :
    pieces '\n' (overwrite key (key ++ '=' :: w) t) =
      amended key (key ++ '=' :: w) (pieces '\n' t) :=
  pieces_overwrite (not_mem_assignable hk (by decide)) (not_mem_line hk hw).1 t

end Edit

namespace FileTree

variable {f f' : FileTree} {p : Path} {key : Text} {v : Value} {notices : List Notice}

/-- Saving a key in a file gives every line that assigns to it the new text, or adds a last line if
there is none. All other lines stay as they are, in their order. -/
theorem save_amends_lines {content : ByteArray} {old : Text} (hk : Text.isAssignable key)
    (hc : f.content? p = some content) (hd : Utf8.decode content = .ok old)
    (h : f.save p key v = (.ok (), f', notices)) :
    ∃ t new, v.written = .ok t ∧ f'.content? p = some (Utf8.encode new) ∧
      Text.pieces '\n' new = Edit.amended key (key ++ '=' :: t)
        (Text.pieces '\n' (Text.unifyNewlines old)) := by
  obtain ⟨t, hw, hc'⟩ := save_eq_ok hc hd h
  exact ⟨t, _, hw, hc', Edit.pieces_overwrite_written hk hw _⟩

/-- Two lines of the file assign to the key, one of them for export; a comment and longer names
stay. -/
theorem save_amends_lines_twice :
    let old := "# B=0\r\n export\tB =1\nAB=x\r\tB= y\nB2".toList
    let line := "B=\"a#\"".toList
    Text.isAssignable "B".toList ∧ (holding old).content? envPath = some (Utf8.encode old) ∧
    Utf8.decode (Utf8.encode old) = .ok old ∧
    ∃ after notices new,
      (holding old).save envPath "B".toList (.text " a#".toList) = (.ok (), after, notices) ∧
      after.content? envPath = some (Utf8.encode new) ∧
      Text.pieces '\n' new = ["# B=0".toList, line, "AB=x".toList, line, "B2".toList] := by
  intro old line
  have hm : Utf8.unmarked old = old := rfl
  have hd : Utf8.decode (Utf8.encode old) = .ok old := by
    rw [Utf8.decode_encode, hm]
  have hw : (Value.text " a#".toList).written = .ok "\"a#\"".toList := rfl
  have hs := save_holding "B".toList hm hw
  obtain ⟨t, new, ht, hc, hnew⟩ := save_amends_lines (by decide) rfl hd hs
  rw [hw] at ht
  cases ht
  refine ⟨by decide, rfl, hd, _, _, new, hs, hc, hnew.trans ?_⟩
  decide +kernel

end FileTree

end EnvFile
