import EnvFile.Proofs.FreshLoads
import EnvFile.Proofs.ReadingBack
import EnvFile.Proofs.SparedKeys

namespace EnvFile

namespace FileTree

variable {f : FileTree} {p : Path}

theorem textAt_of_isAbsent (h : f.isAbsent p) : f.textAt p = [] := by
  have hnone : f.content? p = none := by
    cases hc : f.content? p with
    | none => rfl
    | some content => simp [isAbsent, isPresent_of_content? hc] at h
  simp [textAt, hnone]

theorem not_mem_of_isReadable (h : f.isReadable p) :
    f.normalise p ∉ f.unreadable ∧ f.normalise p ∉ f.withheld := by
  unfold isReadable at h
  simp only [Bool.and_eq_true, Bool.not_eq_true', List.contains_eq_mem, decide_eq_false_iff_not] at h
  exact ⟨h.1.2, h.2⟩

end FileTree

namespace Registry

variable {root : Text} {publishing keepsLines : Bool} {f f' : FileTree}

theorem segments_envPath (root : Text) :
    (envPath root).segments = (Path.ofText root).segments ++ [baseName] := by
  have hlead : (Path.ofText baseName).lead.isEmpty := by decide
  have hsegments : (Path.ofText baseName).segments = [baseName] := by decide
  rw [envPath, Path.join, if_pos hlead, hsegments]

/-- The base file under a root can be loaded as it is, or else there is none yet. -/
def Ready (root : Text) (f : FileTree) : Prop :=
  (∃ publishing keepsLines r notices,
    (blank root publishing keepsLines).load f [] false false = (.ok (), r, notices)) ∨
  (f.isAbsent (envPath root) ∧ f.normalise (envPath root) ∉ f.unreadable ∧
    f.normalise (envPath root) ∉ f.withheld)

/-- Then its text has entries, and nothing forbids reading it. -/
theorem entries_of_ready (h : Ready root f) :
    (f.normalise (envPath root) ∉ f.unreadable ∧ f.normalise (envPath root) ∉ f.withheld) ∧
      ∃ old, (Listing.entries ∅ ∅ ⟨.all, false, (envPath root).toText⟩
        (Text.lines (f.textAt (envPath root)))).1 = .ok old := by
  rcases h with ⟨_, _, r, notices, hload⟩ | ⟨habsent, hreadable⟩
  · obtain ⟨content, lines, values, hc, hr, hl, he⟩ := exists_of_load_blank hload
    refine ⟨FileTree.not_mem_of_isReadable hr, values, ?_⟩
    unfold Reader.current at hl
    cases hd : Utf8.decode content with
    | error u => simp [hd, Except.map] at hl
    | ok t =>
      rw [hd] at hl
      cases hl
      rwa [FileTree.textAt_of_decode hc hd]
  · refine ⟨hreadable, ∅, ?_⟩
    rw [FileTree.textAt_of_isAbsent habsent]
    rfl

/-- An assigned text that a line can hold is read back by a blank registry: the key has there the
value that it has after the assignment. Only if some line mentions the key can that registry fail to
load the file, at the expansion of a value. -/
theorem assign_reads_back {r r' : Registry} {key t : Text} {notices : List Notice}
    (hroots : r.roots = [root]) (hready : Ready root f) (hkey : Text.isKey (Text.trim key))
    (ht : Value.Restorable t) (hclean : Listing.Clean (Text.trim key) (f.textAt (envPath root)))
    (h : r.assign f true key (.text t) = (.ok (), r', f', notices)) :
    (∃ b told v, (blank root publishing keepsLines).load f' [] false false = (.ok (), b, told) ∧
      b.value? (Text.trim key) = .ok (some v) ∧ r'.value? (Text.trim key) = .ok (some v)) ∨
    ∃ fault b told,
      (blank root publishing keepsLines).load f' [] false false = (.error fault, b, told) ∧
      (∃ e ∈ Listing.declaredIn (f'.textAt (envPath root)),
        Text.trim key ∈ Template.names (Template.ofText e.2)) ∧
      ∃ e ∈ Listing.declaredIn (f'.textAt (envPath root)), ∃ s,
        Listing.value s e.1 e.2 = .error fault := by
  obtain ⟨hobjection, v, hv, hcache, hsave⟩ := assign_eq_ok h
  obtain ⟨hk, _, _, hcarried⟩ := objection?_text_eq_none.mp hobjection
  rw [basePath_of_roots hroots] at hsave
  obtain ⟨⟨hreadable, hheld⟩, old, hold⟩ := entries_of_ready hready
  have hn : '\n' ∉ Text.trim key := Text.not_mem_assignable hk (by decide)
  obtain ⟨w, hw, hcontent⟩ := FileTree.content?_of_save hn (segments_envPath root) (by decide)
    (by decide +kernel) hsave
  have hline : '\r' ∉ Text.trim key ++ '=' :: w := by
    have hr : '\r' ∉ Text.trim key := Text.not_mem_assignable hk (by decide)
    simp [hr, (Value.not_mem_written hw).2]
  have hnew := Edit.not_mem_overwrite hn hline (f.not_mem_textAt (envPath root))
  have hunmarked := Edit.unmarked_overwrite hn (Edit.head_line hk w)
    (Listing.head_ne_mark (Listing.not_broken_of_entriesFrom rfl hold))
  have hlines := Reader.current_encode_of_unmarked hnew hunmarked
  have hread := FileTree.isReadable_of_save hsave hreadable hheld hcontent
  have htext := FileTree.textAt_of_encode hcontent hnew hunmarked
  rcases Listing.entries_overwrite hk hkey ht hw hv hcarried hold hclean with
    ⟨new, hentries, hget⟩ | ⟨fault, hentries, hmention, hfails⟩
  · obtain ⟨b, told, hload, hsame⟩ :=
      load_blank_of_entries hcontent hread hlines hentries (Listing.splice_of_entries hentries)
    refine Or.inl ⟨b, told, v, hload, ?_, ?_⟩
    · simp [value?, hsame, hget]
    · simp [value?, hcache]
  · obtain ⟨b, told, hload⟩ := load_blank_of_fault hcontent hread hlines hentries
    refine Or.inr ⟨fault, b, told, hload, ?_⟩
    rw [htext]
    exact ⟨hmention, hfails⟩

/-- A registry over the root of a tree. -/
def rooted : Registry := blank "/".toList false true

theorem envPath_slash : envPath "/".toList = FileTree.envPath := by decide

theorem assign_holding {k t u w : Text} {v : Value} (hk : Text.trim k = k)
    (hm : Utf8.unmarked t = t) (ho : objection? k (.text u) = none)
    (hv : Value.ofText u = .ok v) (hw : (Value.text u).written = .ok w) :
    rooted.assign (FileTree.holding t) true k (.text u) =
      (.ok (), { rooted with cache := (∅ : Table Text Value).insert k v },
        FileTree.holding (Edit.overwrite k (k ++ '=' :: w) (Text.unifyNewlines t)),
        [.persisted k FileTree.envPath.toText]) := by
  have hpublish (r : Registry) (hr : r.publishing = false) : r.publish k v = .ok r := by
    simp [publish, hr]
  have hpath (r : Registry) (hr : r.roots = ["/".toList]) :
      r.basePath (FileTree.holding t) = FileTree.envPath := by
    rw [basePath_of_roots hr, envPath_slash]
  unfold assign
  simp only [hk, ho, Value.settle_text, hv]
  rw [hpublish _ rfl]
  simp only [↓reduceIte]
  rw [hpath _ rfl, FileTree.save_holding k hm hw]
  rfl

theorem load_holding {t : Text} {values : Table Text Value} (hr : '\r' ∉ t)
    (hm : Utf8.unmarked t = t)
    (he : (Listing.entries ∅ ∅ ⟨.all, false, FileTree.envPath.toText⟩ (Text.lines t)).1 = .ok values) :
    ∃ b told, rooted.load (FileTree.holding t) [] false false = (.ok (), b, told) ∧
      ∀ key, b.cache.get? key = values.get? key := by
  rw [← envPath_slash] at he
  exact load_blank_of_entries rfl rfl (Reader.current_encode_of_unmarked hr hm) he
    (Listing.splice_of_entries he)

theorem load_holding_of_fault {t : Text} {fault : Fault} {tolerant : Bool} (hr : '\r' ∉ t)
    (hm : Utf8.unmarked t = t)
    (he : (Listing.entries ∅ ∅ ⟨.all, tolerant, FileTree.envPath.toText⟩ (Text.lines t)).1 =
      .error fault) :
    ∃ b told, rooted.load (FileTree.holding t) [] false tolerant = (.error fault, b, told) := by
  rw [← envPath_slash] at he
  exact load_blank_of_fault rfl rfl (Reader.current_encode_of_unmarked hr hm) he

theorem ready_holding {t : Text} {values : Table Text Value} (hr : '\r' ∉ t)
    (hm : Utf8.unmarked t = t)
    (he : (Listing.entries ∅ ∅ ⟨.all, false, FileTree.envPath.toText⟩ (Text.lines t)).1 = .ok values) :
    Ready "/".toList (FileTree.holding t) := by
  obtain ⟨b, told, hload, _⟩ := load_holding hr hm he
  exact Or.inl ⟨_, _, b, told, hload⟩

theorem assign_reads_back_hash :
    rooted.roots = ["/".toList] ∧ Ready "/".toList (FileTree.holding "A=1\nB=${C-2}\n".toList) ∧
    Text.isKey (Text.trim "A".toList) ∧ Value.Restorable "x#".toList ∧
    Listing.Clean (Text.trim "A".toList)
      ((FileTree.holding "A=1\nB=${C-2}\n".toList).textAt (envPath "/".toList)) ∧
    ∃ r f told,
      rooted.assign (FileTree.holding "A=1\nB=${C-2}\n".toList) true "A".toList
        (.text "x#".toList) = (.ok (), r, f, told) ∧
      ∃ b seen v, rooted.load f [] false false = (.ok (), b, seen) ∧
        b.value? (Text.trim "A".toList) = .ok (some v) ∧
        r.value? (Text.trim "A".toList) = .ok (some v) := by
  have hm : Utf8.unmarked "A=1\nB=${C-2}\n".toList = "A=1\nB=${C-2}\n".toList := rfl
  have hbefore : (Listing.entries ∅ ∅ ⟨.all, false, FileTree.envPath.toText⟩
      (Text.lines "A=1\nB=${C-2}\n".toList)).1 =
        .ok (((∅ : Table Text Value).insert "A".toList (.int 1)).insert "B".toList (.int 2)) := by
    decide +kernel
  have hready := ready_holding (by decide) hm hbefore
  have hone : (Text.trim "x#".toList).all (!Text.endsLine ·) := rfl
  have ht : Value.Restorable "x#".toList :=
    { oneLine := by simpa using hone
      plain := Template.plain_of_not_mem (by decide)
      bare := by decide
      marked := by decide
      settled := Or.inl (by decide) }
  have htext : (FileTree.holding "A=1\nB=${C-2}\n".toList).textAt (envPath "/".toList) =
      "A=1\nB=${C-2}\n".toList :=
    FileTree.textAt_of_encode rfl (by decide) hm
  have hall : (Text.pieces '\n' "A=1\nB=${C-2}\n".toList).all (·.all (!Text.endsLine ·)) := by
    decide +kernel
  have hclean : Listing.Clean "A".toList "A=1\nB=${C-2}\n".toList :=
    ⟨fun p hp _ => by simpa using List.all_eq_true.mp hall p hp, by decide +kernel⟩
  have hassign := assign_holding (k := "A".toList) (u := "x#".toList) rfl hm rfl rfl rfl
  refine ⟨rfl, hready, by decide, ht, htext ▸ hclean, _, _, _, hassign, ?_⟩
  rcases assign_reads_back rfl hready (by decide) ht (htext ▸ hclean) hassign with
    hloads | ⟨_, _, _, _, ⟨e, he, hmention⟩, _⟩
  · exact hloads
  · have hedited : (FileTree.holding (Edit.overwrite "A".toList "A=\"x#\"".toList
        (Text.unifyNewlines "A=1\nB=${C-2}\n".toList))).textAt (envPath "/".toList) =
          Edit.overwrite "A".toList "A=\"x#\"".toList
            (Text.unifyNewlines "A=1\nB=${C-2}\n".toList) :=
      FileTree.textAt_of_encode rfl (by decide +kernel) (by decide +kernel)
    have hnone : ∀ e ∈ Listing.declaredIn (Edit.overwrite "A".toList "A=\"x#\"".toList
        (Text.unifyNewlines "A=1\nB=${C-2}\n".toList)),
        "A".toList ∉ Template.names (Template.ofText e.2) := by decide +kernel
    exact absurd hmention (hnone e (hedited ▸ he))

/-- Blanks around a text are not saved, and a value that becomes empty may be one that another line
requires. -/
theorem assign_reads_back_otherwise :
    (∃ r f told b seen, Ready "/".toList (FileTree.holding "A=1\n".toList) ∧
      rooted.assign (FileTree.holding "A=1\n".toList) true "A".toList (.text " x ".toList) =
        (.ok (), r, f, told) ∧
      rooted.load f [] false false = (.ok (), b, seen) ∧
      r.value? "A".toList = .ok (some (.text " x ".toList)) ∧
      b.value? "A".toList = .ok (some (.text "x".toList))) ∧
    ∃ r f told fault b seen, Ready "/".toList (FileTree.holding "A=1\nB=${A?needed}\n".toList) ∧
      rooted.assign (FileTree.holding "A=1\nB=${A?needed}\n".toList) true "A".toList (.text []) =
        (.ok (), r, f, told) ∧
      rooted.load f [] false false = (.error fault, b, seen) := by
  constructor
  · have hm : Utf8.unmarked "A=1\n".toList = "A=1\n".toList := rfl
    have hbefore : (Listing.entries ∅ ∅ ⟨.all, false, FileTree.envPath.toText⟩
        (Text.lines "A=1\n".toList)).1 =
          .ok ((∅ : Table Text Value).insert "A".toList (.int 1)) := by
      decide +kernel
    have hassign := assign_holding (k := "A".toList) (u := " x ".toList) rfl hm rfl rfl rfl
    have hafter : (Listing.entries ∅ ∅ ⟨.all, false, FileTree.envPath.toText⟩
        (Text.lines (Edit.overwrite "A".toList "A=\"x\"".toList
          (Text.unifyNewlines "A=1\n".toList)))).1 =
          .ok ((∅ : Table Text Value).insert "A".toList (.text "x".toList)) := by
      decide +kernel
    obtain ⟨b, seen, hload, hcache⟩ := load_holding (by decide +kernel) (by decide +kernel) hafter
    refine ⟨_, _, _, b, seen, ready_holding (by decide) hm hbefore, hassign, hload, rfl, ?_⟩
    simp [value?, hcache]
  · have hm : Utf8.unmarked "A=1\nB=${A?needed}\n".toList = "A=1\nB=${A?needed}\n".toList := rfl
    have hbefore : (Listing.entries ∅ ∅ ⟨.all, false, FileTree.envPath.toText⟩
        (Text.lines "A=1\nB=${A?needed}\n".toList)).1 =
          .ok (((∅ : Table Text Value).insert "A".toList (.int 1)).insert "B".toList (.int 1)) := by
      decide +kernel
    have hassign := assign_holding (k := "A".toList) (u := []) rfl hm rfl rfl rfl
    have hafter : (Listing.entries ∅ ∅ ⟨.all, false, FileTree.envPath.toText⟩
        (Text.lines (Edit.overwrite "A".toList "A=".toList
          (Text.unifyNewlines "A=1\nB=${A?needed}\n".toList)))).1 =
          .error (.required "A".toList "needed".toList) := by
      decide +kernel
    obtain ⟨b, seen, hload⟩ := load_holding_of_fault (by decide +kernel) (by decide +kernel) hafter
    exact ⟨_, _, _, _, b, seen, ready_holding (by decide) hm hbefore, hassign, hload⟩

end Registry

end EnvFile
