import EnvFile.Proofs.Gathering
import EnvFile.Proofs.LoadingSteps

namespace EnvFile

namespace Reader

variable {reader next : Reader} {files : FileTree} {p : Path} {place : Place} {content : ByteArray}
  {useKept : Bool} {lines : List Text}

/-- The lines kept of a place, if any are, are those of a given content. -/
def FaithfulAt (reader : Reader) (place : Place) (content : ByteArray) : Prop :=
  reader.keeps = true → ∀ lines, reader.kept.get? place = some lines → current content = .ok lines

theorem faithfulAt_of_forgetAll (reader : Reader) (place : Place) (content : ByteArray) :
    reader.forgetAll.FaithfulAt place content :=
  fun _ _ h => nomatch h

/-- Reading keeps the lines of a file only as they are at that time. -/
theorem FaithfulAt.read (h : reader.FaithfulAt place content)
    (hfile : files.node? place = some (.file content)) (p : Path) (useKept : Bool) :
    (reader.read files p useKept).2.FaithfulAt place content := by
  rcases hread : reader.read files p useKept with ⟨result, next⟩
  rcases read_cases hread with ⟨_, _, _, _, rfl⟩ | ⟨_, _, _, rfl⟩ | ⟨lines, _, hl, rfl⟩
  · exact h
  · exact h
  · obtain ⟨found, hc, _, hcurrent⟩ := FileTree.linesOf_eq_ok_iff.mp hl
    intro hkeeps other hother
    rw [keeps_keep] at hkeeps
    rw [keep_of_keeps hkeeps] at hother
    simp only [Table.get?_insert] at hother
    split at hother
    next he =>
      have hfound := FileTree.node?_normalise hc
      rw [he, hfile] at hfound
      cases hfound
      cases hother
      exact hcurrent
    next => exact h hkeeps other hother

/-- What is read of a file is its content, where the lines that are kept of it are. -/
theorem FaithfulAt.current_of_read (h : reader.FaithfulAt (files.normalise p) content)
    (hc : files.content? p = some content)
    (hread : reader.read files p useKept = (.ok lines, next)) : current content = .ok lines := by
  rcases read_cases hread with ⟨_, he, _, hs, _⟩ | ⟨_, he, _⟩ | ⟨_, he, hl, _⟩
  · cases he
    obtain ⟨hkeeps, _, hkept⟩ := served?_eq_some_iff.mp hs
    exact h hkeeps lines hkept
  · cases he
  · cases he
    obtain ⟨found, hfound, _, hcurrent⟩ := FileTree.linesOf_eq_ok_iff.mp hl
    rw [hc] at hfound
    cases hfound
    exact hcurrent

end Reader

/-- Whether an operation makes the reader forget all the lines that it has kept until then. -/
def Operation.forgetsLines : Operation → Bool
  | load _ force _ => force
  | reload | clearAll => true
  | _ => false

namespace Registry

variable {r : Registry} {files : FileTree} {place : Place} {content : ByteArray}

theorem faithfulAt_rests (h : files.node? place = some (.file content)) :
    RestsOnSources (fun r => r.reader.FaithfulAt place content) files where
  same hr _ _ hreader := hreader ▸ hr
  rename hr hs := by
    obtain ⟨_, _, rfl⟩ := Results.map_eq_ok.mp hs
    exact hr
  linesAt p useKept hr := hr.read h p useKept
  forgetLines _ := Reader.faithfulAt_of_forgetAll _ _ _

theorem faithfulAt_of_forgetsLines (h : files.node? place = some (.file content)) {o : Operation}
    (ho : o.forgetsLines) (r : Registry) (writesAllowed : Bool) :
    (o.perform r files writesAllowed).2.1.reader.FaithfulAt place content := by
  have hloads := (faithfulAt_rests h).outlasts
  have hforced (r : Registry) (keys : List Text) (tolerant : Bool) :
      (r.load files keys true tolerant).2.1.reader.FaithfulAt place content := by
    rw [← load_forgetLines]
    exact hloads.load keys true tolerant (Reader.faithfulAt_of_forgetAll r.reader place content)
  cases o with
  | load keys force tolerant =>
    obtain rfl : force = true := ho
    exact hforced r keys tolerant
  | reload => exact hforced r.unload [] false
  | clearAll => exact Reader.faithfulAt_of_forgetAll r.reader place content
  | loadSome | unload | clear | assign | valueOr | put | value | values | rename
  | setPublishing => simp [Operation.forgetsLines] at ho

end Registry

namespace Scene

variable {s : Scene} {place : Place} {content : ByteArray} {happenings : List Happening}

/-- What is at a place stays as it is, whatever else happens. -/
def LeavesAlone (s : Scene) (place : Place) (happenings : List Happening) : Prop :=
  ∀ n, (s.run (happenings.take n)).files.node? place = s.files.node? place

theorem leavesAlone_nil : s.LeavesAlone place [] := by
  intro n
  rw [List.take_nil]
  rfl

theorem leavesAlone_cons {happening : Happening} : s.LeavesAlone place (happening :: happenings) ↔
    (s.after happening).files.node? place = s.files.node? place ∧
      (s.after happening).LeavesAlone place happenings := by
  constructor
  · intro h
    have hfirst : (s.after happening).files.node? place = s.files.node? place := h 1
    refine ⟨hfirst, fun n => ?_⟩
    have hnext := h (n + 1)
    exact hnext.trans hfirst.symm
  · rintro ⟨hfirst, hrest⟩ n
    cases n with
    | zero => rfl
    | succ n => exact (hrest n).trans hfirst

theorem LeavesAlone.run (h : s.LeavesAlone place happenings) :
    (s.run happenings).files.node? place = s.files.node? place := by
  have hall := h happenings.length
  rwa [List.take_length] at hall

theorem faithfulAt_after (h : s.files.node? place = some (.file content))
    (hs : s.registry.reader.FaithfulAt place content) (happening : Happening) :
    (s.after happening).registry.reader.FaithfulAt place content := by
  cases happening with
  | operation o => exact (Registry.faithfulAt_rests h).perform o s.writesAllowed hs
  | outside files writesAllowed => exact hs

/-- While nothing changes a file, lines kept of it that are its own stay so. -/
theorem faithfulAt_run (halone : s.LeavesAlone place happenings)
    (h : s.files.node? place = some (.file content))
    (hs : s.registry.reader.FaithfulAt place content) :
    (s.run happenings).registry.reader.FaithfulAt place content := by
  induction happenings generalizing s with
  | nil => exact hs
  | cons happening happenings ih =>
    obtain ⟨hfirst, halone⟩ := leavesAlone_cons.mp halone
    exact ih halone (hfirst.trans h) (faithfulAt_after h hs happening)

/-- And once they are forgotten, those that are kept anew are its own. -/
theorem faithfulAt_run_of_forgetsLines (halone : s.LeavesAlone place happenings)
    (h : s.files.node? place = some (.file content)) {o : Operation}
    (ho : .operation o ∈ happenings) (hforgets : o.forgetsLines) :
    (s.run happenings).registry.reader.FaithfulAt place content := by
  induction happenings generalizing s with
  | nil => exact absurd ho List.not_mem_nil
  | cons happening happenings ih =>
    obtain ⟨hfirst, halone⟩ := leavesAlone_cons.mp halone
    rcases List.mem_cons.mp ho with rfl | ho
    · have hafter : (s.after (.operation o)).registry.reader.FaithfulAt place content :=
        Registry.faithfulAt_of_forgetsLines h hforgets s.registry s.writesAllowed
      have hrun := faithfulAt_run halone (hfirst.trans h) hafter
      exact hrun
    · exact ih halone (hfirst.trans h) ho

end Scene

end EnvFile
