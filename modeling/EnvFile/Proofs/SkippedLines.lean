import EnvFile.Proofs.Declarations
import EnvFile.Proofs.FreshLoads
import EnvFile.Proofs.SparedKeys

namespace EnvFile

/-- What is wrong with a line that is neither silent nor a declaration. -/
def Line.problem? : Line → Option LineProblem
  | broken problem => some problem
  | _ => none

namespace Listing

/-- The lines that are not broken. -/
def sound (lines : List Text) : List Text :=
  lines.filter fun line => (Line.ofText line).problem?.isNone

/-- A notice for each broken line, with its place among lines that count from `number`. -/
def skipped (path : Text) (number : Nat) (lines : List Text) : List Notice :=
  (lines.zipIdx number).filterMap fun (line, n) =>
    (Line.ofText line).problem?.map fun problem =>
      .skippedLine ⟨problem.reason, some line, some n, some path⟩

/-- The scope of a line of a file, once `staged` has been read from the lines before it. -/
def scopeAfter (cache ambient : Table Text Value) (lines : List Text) (staged : Table Text Value) :
    Scope :=
  ⟨staged, cache, ambient, drafts lines, Scope.defaultLimit⟩

/-- Why reading stops at a line: it is broken and may not be skipped, or its key is wanted and its
draft has no value. -/
inductive Stops (s : Scope) (m : Manner) (number : Nat) (line : Text) : Fault → Prop
  | broken {problem} : m.tolerant = false → Line.ofText line = .broken problem →
      Stops s m number line (.malformed ⟨problem.reason, some line, some number, some m.path⟩)
  | faulty {key draft fault} : Line.ofText line = .declaration key draft → m.filter.admits key →
      value s key draft = .error fault → Stops s m number line fault

variable {s : Scope} {m : Manner} {number : Nat} {line : Text} {lines : List Text}
  {staged : Table Text Value}

theorem skipped_cons (path : Text) (number : Nat) (line : Text) (lines : List Text) :
    skipped path number (line :: lines) =
      skipped path number [line] ++ skipped path (number + 1) lines := by
  simp only [skipped, List.zipIdx_cons, List.zipIdx_nil, List.filterMap_cons, List.filterMap_nil]
  split <;> rfl

theorem skipped_of_not_broken (path : Text) (number : Nat)
    (h : (Line.ofText line).problem? = none) : skipped path number [line] = [] := by
  simp [skipped, h]

theorem declared_sound (lines : List Text) : declared (sound lines) = declared lines := by
  unfold declared sound
  rw [List.filterMap_filter]
  refine List.filterMap_congr fun line _ => ?_
  cases Line.ofText line <;> rfl

theorem not_broken_of_mem_sound (h : line ∈ sound lines) (problem : LineProblem) :
    Line.ofText line ≠ .broken problem := by
  intro hl
  have hsound := (List.mem_filter.mp h).2
  simp [hl, Line.problem?] at hsound

/-- A file reads with broken lines skipped as it reads strictly without them. -/
theorem entries_sound (cache ambient : Table Text Value) (filter : KeyFilter) (path path' : Text)
    (lines : List Text) :
    (entries cache ambient ⟨filter, true, path⟩ lines).1 =
      (entries cache ambient ⟨filter, false, path'⟩ (sound lines)).1 := by
  have hdrafts : drafts (sound lines) = drafts lines := by
    rw [drafts_eq_foldl, drafts_eq_foldl, declared_sound]
  unfold entries
  rw [entriesFrom_eq_foldlM (Or.inl rfl),
    entriesFrom_eq_foldlM (Or.inr fun _ => not_broken_of_mem_sound), declared_sound, hdrafts]

/-- The course that reading takes: through all the lines, or up to one that stops it. It tells of
the broken lines that it has come past. -/
def Course (s : Scope) (m : Manner) (number : Nat) (lines : List Text) (staged : Table Text Value) :
    Prop :=
  (∃ values, entriesFrom s m number lines staged = (.ok values, skipped m.path number lines)) ∨
    ∃ before line after mid fault, lines = before ++ line :: after ∧
      entriesFrom s m number before staged = (.ok mid, skipped m.path number before) ∧
      Stops { s with overlay := mid } m (number + before.length) line fault ∧
      entriesFrom s m number lines staged = (.error fault, skipped m.path number before)

/-- A line that reading comes past is at the head of every course. -/
theorem Course.cons {next : Table Text Value}
    (hline : ∀ rest, entriesFrom s m number (line :: rest) staged =
      ((entriesFrom s m (number + 1) rest next).1,
        skipped m.path number [line] ++ (entriesFrom s m (number + 1) rest next).2))
    (h : Course s m (number + 1) lines next) : Course s m number (line :: lines) staged := by
  rcases h with ⟨values, h⟩ | ⟨before, stop, after, mid, fault, rfl, hbefore, hstop, h⟩
  · exact Or.inl ⟨values, by rw [hline, h, skipped_cons m.path number line lines]⟩
  · refine Or.inr ⟨line :: before, stop, after, mid, fault, rfl, ?_, ?_, ?_⟩
    · rw [hline, hbefore, skipped_cons m.path number line before]
    · rwa [List.length_cons, Nat.add_comm before.length 1, ← Nat.add_assoc]
    · rw [hline, h, skipped_cons m.path number line before]

theorem course_of_stops {fault : Fault} (hstop : Stops { s with overlay := staged } m number line fault)
    (h : ∀ rest, entriesFrom s m number (line :: rest) staged = (.error fault, [])) :
    Course s m number (line :: lines) staged :=
  Or.inr ⟨[], line, lines, staged, fault, rfl, rfl, hstop, h lines⟩

theorem course (s : Scope) (m : Manner) (number : Nat) (lines : List Text)
    (staged : Table Text Value) : Course s m number lines staged := by
  induction lines generalizing number staged with
  | nil => exact Or.inl ⟨staged, rfl⟩
  | cons line lines ih =>
    cases hl : Line.ofText line with
    | silent =>
      have hpast := skipped_of_not_broken m.path number (by rw [hl]; rfl)
      exact (ih (number + 1) staged).cons fun rest => by
        rw [entriesFrom, hl, hpast]
        rfl
    | broken problem =>
      cases ht : m.tolerant with
      | true =>
        exact (ih (number + 1) staged).cons fun rest => by
          rw [entriesFrom, hl]
          simp [ht, skipped, hl, Line.problem?]
      | false =>
        refine course_of_stops (.broken ht hl) fun rest => ?_
        rw [entriesFrom, hl]
        simp [ht]
    | declaration key draft =>
      have hpast := skipped_of_not_broken m.path number (by rw [hl]; rfl)
      by_cases hk : m.filter.admits key
      · cases hv : value { s with overlay := staged } key draft with
        | error fault =>
          refine course_of_stops (.faulty hl hk hv) fun rest => ?_
          rw [entriesFrom, hl]
          simp [hk, hv]
        | ok v =>
          exact (ih (number + 1) (staged.insert key v)).cons fun rest => by
            rw [entriesFrom, hl, hpast]
            simp [hk, hv]
      · exact (ih (number + 1) staged).cons fun rest => by
          rw [entriesFrom, hl, hpast]
          simp [hk]

end Listing

namespace Registry

open Listing

/-- Broken lines that are skipped count for nothing: what is read, or goes wrong, is what a strict
reading of the other lines gives. Each broken line that is reached is told of with its number. -/
theorem entriesAt_tolerant {r : Registry} {files files' : FileTree} {path path' : Text}
    {useKept useKept' : Bool} {lines : List Text} (filter : KeyFilter)
    (hlines : (r.linesAt files (Path.ofText path) useKept).1 = .ok lines)
    (hsound : (r.linesAt files' (Path.ofText path') useKept').1 = .ok (sound lines)) :
    (r.entriesAt files ⟨filter, true, useKept⟩ path).1 =
        (r.entriesAt files' ⟨filter, false, useKept'⟩ path').1 ∧
      ((∃ values, (r.entriesAt files ⟨filter, true, useKept⟩ path).1 = .ok values ∧
          (r.entriesAt files ⟨filter, true, useKept⟩ path).2.2 = skipped path 1 lines) ∨
        ∃ before line after staged fault, lines = before ++ line :: after ∧
          entriesFrom (scopeAfter r.cache r.ambient.table lines ∅) ⟨filter, true, path⟩ 1 before ∅ =
            (.ok staged, skipped path 1 before) ∧
          Stops (scopeAfter r.cache r.ambient.table lines staged) ⟨filter, true, path⟩
            (before.length + 1) line fault ∧
          (r.entriesAt files ⟨filter, true, useKept⟩ path).1 = .error fault ∧
          (r.entriesAt files ⟨filter, true, useKept⟩ path).2.2 = skipped path 1 before) := by
  obtain ⟨hresult, hnotices⟩ := entriesAt_of_lines (m := ⟨filter, true, useKept⟩) hlines
  obtain ⟨hstrict, _⟩ := entriesAt_of_lines (m := ⟨filter, false, useKept'⟩) hsound
  rw [hresult, hnotices, hstrict]
  refine ⟨entries_sound r.cache r.ambient.table filter path path' lines, ?_⟩
  rcases course (scopeAfter r.cache r.ambient.table lines ∅) ⟨filter, true, path⟩ 1 lines ∅ with
    ⟨values, h⟩ | ⟨before, line, after, staged, fault, hsplit, hbefore, hstop, h⟩
  · exact Or.inl ⟨values, congrArg Prod.fst h, congrArg Prod.snd h⟩
  · rw [Nat.add_comm] at hstop
    exact Or.inr ⟨before, line, after, staged, fault, hsplit, hbefore, hstop, congrArg Prod.fst h,
      congrArg Prod.snd h⟩

/-- Two broken lines come before the one that goes wrong, and a third one is never reached. -/
theorem entriesAt_tolerant_stopped :
    let r := { blank "/".toList false true with cache := .ofList [("B".toList, .text "hp:".toList)] }
    let files := FileTree.holding "A=1\noops\nE=\n=x\nC=p${B}//${A}\nD\n".toList
    let files' := FileTree.holding "A=1\nE=\nC=p${B}//${A}\n".toList
    let path := "/.env".toList
    let lines := ["A=1", "oops", "E=", "=x", "C=p${B}//${A}", "D"].map String.toList
    let scope := scopeAfter r.cache r.ambient.table lines
    let m : Manner := ⟨.containing ["A".toList, "C".toList], true, path⟩
    let read := r.entriesAt files ⟨m.filter, true, true⟩ path
    (r.linesAt files (Path.ofText path) true).1 = .ok lines ∧
    (r.linesAt files' (Path.ofText path) false).1 = .ok (sound lines) ∧
    read.1 = .error (.dangerous (some "C".toList)) ∧
    read.2.2 = [.skippedLine ⟨"missing '=' in declaration".toList, some "oops".toList, some 2, some path⟩,
      .skippedLine ⟨"invalid key ''".toList, some "=x".toList, some 4, some path⟩] ∧
    read.1 = (r.entriesAt files' ⟨m.filter, false, false⟩ path).1 ∧
    ((∃ values, read.1 = .ok values ∧ read.2.2 = skipped path 1 lines) ∨
      ∃ before line after staged fault, lines = before ++ line :: after ∧
        entriesFrom (scope ∅) m 1 before ∅ = (.ok staged, skipped path 1 before) ∧
        Stops (scope staged) m (before.length + 1) line fault ∧ read.1 = .error fault ∧
        read.2.2 = skipped path 1 before) := by
  intro r files files' path lines scope m read
  have hlines : (r.linesAt files (Path.ofText path) true).1 = .ok lines := by decide +kernel
  have hsound : (r.linesAt files' (Path.ofText path) false).1 = .ok (sound lines) := by
    decide +kernel
  have hread : read.1 = .error (.dangerous (some "C".toList)) := by decide +kernel
  have htold : read.2.2 = [.skippedLine ⟨"missing '=' in declaration".toList, some "oops".toList,
      some 2, some path⟩, .skippedLine ⟨"invalid key ''".toList, some "=x".toList, some 4,
      some path⟩] := by decide +kernel
  exact ⟨hlines, hsound, hread, htold, entriesAt_tolerant m.filter hlines hsound⟩

end Registry

end EnvFile
