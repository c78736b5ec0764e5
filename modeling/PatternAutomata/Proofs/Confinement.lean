import PatternAutomata.Proofs.Storing

namespace PatternAutomata

namespace Composes

open Batch

variable {m : Type → Type} [Monad m] {P : (α : Type) → m α → Prop} {w : Workspace m} {α β : Type}

theorem run_bind (h : Composes P) {act : ExceptT Failure m α} {next : α → ExceptT Failure m β}
    (hact : P _ act.run) (hnext : ∀ a, P _ (next a).run) : P _ (act >>= next).run := by
  rw [ExceptT.run_bind]
  apply h.bind hact
  rintro (e | a)
  · exact h.pure _
  · exact hnext a

theorem attempt (h : Composes P) (wrap : FileError → Failure) {act : m (Except FileError α)} (hact : P _ act) :
    P _ (attempt wrap act).run := h.bind hact fun _ => h.pure _

theorem writeTable (h : Composes P) (hw : w.Performs P) (dir : Path) (name : String) (t : Table) :
    P _ (writeTable w dir name t).run :=
  h.run_bind (h.attempt _ (hw.write _ _)) fun _ => h.attempt _ (hw.write _ _)

variable [LawfulMonad m]

theorem lift (h : Composes P) {act : m α} (hact : P _ act) : P _ (liftM act : ExceptT Failure m α).run := by
  show P _ (Except.ok <$> act)
  rw [map_eq_pure_bind]
  exact h.bind hact fun _ => h.pure _

theorem checkAgainst (h : Composes P) (hw : w.Performs P) (dir : Path) (label name : String) (t : Table)
    (pattern : String) : P _ (checkAgainst w dir label name t pattern).run := by
  apply h.run_bind (h.lift (hw.isPresent _))
  intro there
  cases there with
  | false => exact h.pure _
  | true =>
    apply h.run_bind (h.attempt _ (hw.read _))
    intro text
    dsimp only
    split
    · exact h.pure _
    · exact h.run_bind (h.lift (hw.print _)) fun _ => h.pure _

/-- What holds of every operation of the workspace holds of processing a pattern with it. -/
theorem process (h : Composes P) (hw : w.Performs P) (c : Config) (pattern : String) :
    P _ (process w c pattern).run := by
  rw [← processBy_oracle, processBy]
  cases compile pattern with
  | error e => exact h.pure _
  | ok stages =>
    dsimp only
    refine h.run_bind ?store fun _ => h.run_bind ?compare fun _ => h.run_bind ?check fun _ => h.pure _
    case store =>
      apply h.run_bind (h.attempt _ (h.createDirs hw.createDir hw.isDirectory _))
      intro _
      apply h.run_bind (h.writeTable hw _ _ _)
      intro _
      exact h.run_bind (h.writeTable hw _ _ _) fun _ => h.writeTable hw _ _ _
    case compare =>
      unfold compareTables
      split
      · exact h.pure _
      · exact h.run_bind (h.checkAgainst hw _ _ _ _ _) fun _ =>
          h.run_bind (h.checkAgainst hw _ _ _ _ _) fun _ => h.pure _
    case check =>
      unfold crossCheck
      split
      · split
        · exact h.pure _
        · exact h.run_bind (h.lift (hw.print _)) fun _ => h.pure _
      · exact h.pure _

end Composes

namespace Workspace

variable {m : Type → Type} [Monad m] {w w' : Workspace m} {dirs files : Path → Prop}

/-- The workspaces make the same of some directories and of some files, and agree in all but making and writing. -/
structure Agrees (w w' : Workspace m) (dirs files : Path → Prop) : Prop where
  createDir : ∀ p, dirs p → w.createDir p = w'.createDir p
  isDirectory : ∀ p, w.isDirectory p = w'.isDirectory p
  write : ∀ p content, files p → w.write p content = w'.write p content
  read : ∀ p, w.read p = w'.read p
  isPresent : ∀ p, w.isPresent p = w'.isPresent p
  print : ∀ text, w.print text = w'.print text

namespace Agrees

open Batch

theorem settle (h : Agrees w w' dirs files) (p : Path) (e : FileError) : w.settle p e = w'.settle p e := by
  rw [Workspace.settle, Workspace.settle, h.isDirectory]

theorem createFrom (h : Agrees w w' dirs files) {p : Path} {above : List Path} (hdirs : ∀ q ∈ p :: above, dirs q) :
    w.createFrom p above = w'.createFrom p above := by
  induction above generalizing p with
  | nil =>
    simp only [Workspace.createFrom, h.createDir p (hdirs p List.mem_cons_self), h.settle]
  | cons q above ih =>
    obtain ⟨hp, habove⟩ := List.forall_mem_cons.mp hdirs
    simp only [Workspace.createFrom, h.createDir p hp, h.settle, ih habove]

theorem writeTable (h : Agrees w w' dirs files) {dir : Path} {name : String} {t : Table}
    (hfiles : ∀ file ∈ tableFiles dir name t, files file.1) : writeTable w dir name t = writeTable w' dir name t := by
  have hjson := hfiles _ List.mem_cons_self
  have hdot := hfiles _ (List.mem_cons_of_mem _ (List.mem_singleton_self _))
  simp only [Batch.writeTable, h.write _ _ hjson, h.write _ _ hdot]

theorem checkAgainst (h : Agrees w w' dirs files) (dir : Path) (label name : String) (t : Table) (pattern : String) :
    checkAgainst w dir label name t pattern = checkAgainst w' dir label name t pattern := by
  simp only [Batch.checkAgainst, h.isPresent, h.read, h.print]

/-- Processing a pattern makes no other directories than its folder and those above, and writes no other files than
those of the pattern. -/
theorem process [LawfulMonad m] (h : Agrees w w' dirs files) {c : Config} {pattern : String}
    (hdirs : ∀ q ∈ folderIn c.out pattern :: (folderIn c.out pattern).ancestors, dirs q)
    (hfiles : ∀ stages, ∀ file ∈ stagesFiles (folderIn c.out pattern) stages, files file.1) :
    process w c pattern = process w' c pattern := by
  rw [← processBy_oracle, ← processBy_oracle, processBy, processBy]
  cases compile pattern with
  | error e => rfl
  | ok stages =>
    dsimp only
    obtain ⟨hnfa, hdfa, hminimal⟩ : _ ∧ _ ∧ _ := by
      simpa only [stagesFiles, List.forall_mem_append] using hfiles stages
    have hstore : store w (folderIn c.out pattern) stages = store w' (folderIn c.out pattern) stages := by
      simp only [store, createDirs, h.createFrom hdirs, h.writeTable hnfa, h.writeTable hdfa, h.writeTable hminimal]
    have hcompare : compareTables w c.expected pattern stages = compareTables w' c.expected pattern stages := by
      unfold compareTables
      simp only [h.checkAgainst]
    have hcheck : crossCheck Regex.oracle w c.verify pattern stages.minimal.dfa =
        crossCheck Regex.oracle w' c.verify pattern stages.minimal.dfa := by
      simp only [crossCheck, h.print]
    rw [hcompare, hcheck]
    exact congrArg (· >>= _) hstore

end Agrees

end Workspace

namespace Session

open Batch

/-- Where directories may be made and where files may be written, from where relative paths begin. -/
structure Fence where
  directories : Location → Location → Bool
  files : Location → Location → Bool

namespace Fence

variable {f : Fence}

def guard (f : Fence) : Workspace (StateM Session) where
  createDir p := do
    let s ← get
    if f.directories s.tree.current (p.target s.tree.current) then workspace.createDir p
    else pure (.error (.other "not within the fence"))
  write p content := do
    let s ← get
    if f.files s.tree.current (p.target s.tree.current) then workspace.write p content
    else pure (.error (.other "not within the fence"))
  isDirectory := workspace.isDirectory
  read := workspace.read
  isPresent := workspace.isPresent
  print := workspace.print

/-- Whatever the action answers, it changes the tree only within the fence. -/
def Holds (f : Fence) {α : Type} (act : StateM Session α) : Prop :=
  ∀ s : Session, s.tree.Changes (fun l => f.directories s.tree.current l = true)
    (fun l => f.files s.tree.current l = true) (act s).2.tree

theorem composes_holds (f : Fence) : Composes (m := StateM Session) fun _ act => f.Holds act where
  pure _ := fun s => .refl s.tree
  bind := by
    intro _ _ act next h hnext s
    have hfirst := h s
    have hlater := hnext (act s).1 (act s).2
    rw [hfirst.current_eq] at hlater
    exact hfirst.trans hlater

theorem run_guard_createDir (f : Fence) (p : Path) (s : Session) : f.guard.createDir p s =
    if f.directories s.tree.current (p.target s.tree.current) then workspace.createDir p s
    else (.error (.other "not within the fence"), s) := by
  unfold guard
  simp only [bind, StateT.bind, get, getThe, MonadStateOf.get, StateT.get, pure]
  split <;> rfl

theorem run_guard_write (f : Fence) (p : Path) (content : String) (s : Session) : f.guard.write p content s =
    if f.files s.tree.current (p.target s.tree.current) then workspace.write p content s
    else (.error (.other "not within the fence"), s) := by
  unfold guard
  simp only [bind, StateT.bind, get, getThe, MonadStateOf.get, StateT.get, pure]
  split <;> rfl

theorem performs_guard (f : Fence) : f.guard.Performs fun _ act => f.Holds act where
  createDir p s := by
    rw [run_guard_createDir]
    split
    · next hallowed =>
      rw [run_createDir]
      cases hcreate : s.tree.createDir p with
      | error e => exact .refl s.tree
      | ok u =>
        refine (FileTree.changes_of_createDir hcreate).mono ?_ fun _ => id
        rintro _ rfl
        exact hallowed
    · exact .refl s.tree
  write p content s := by
    rw [run_guard_write]
    split
    · next hallowed =>
      rw [run_write]
      cases hwrite : s.tree.write p content with
      | error e => exact .refl s.tree
      | ok u =>
        refine (FileTree.changes_of_write hwrite).mono (fun _ => id) ?_
        rintro _ rfl
        exact hallowed
    · exact .refl s.tree
  isDirectory _ := fun s => .refl s.tree
  read _ := fun s => .refl s.tree
  isPresent _ := fun s => .refl s.tree
  print _ := fun s => .refl s.tree

theorem agrees_guard (f : Fence) : f.guard.Agrees workspace
    (fun p => ∀ current, f.directories current (p.target current) = true)
    (fun p => ∀ current, f.files current (p.target current) = true) where
  createDir p hp := by
    funext s
    rw [run_guard_createDir, if_pos (hp s.tree.current)]
  write p content hp := by
    funext s
    rw [run_guard_write, if_pos (hp s.tree.current)]
  isDirectory _ := rfl
  read _ := rfl
  isPresent _ := rfl
  print _ := rfl

/-- A fence that allows the way to the folder of a pattern and the files in it is not met when the pattern is
processed. -/
theorem process_guard {c : Config} {pattern : String}
    (hdirs : ∀ current, ∀ l ∈ (folderIn c.out pattern).way current, f.directories current l = true)
    (hfiles : ∀ current name, f.files current (placeIn current c.out pattern ++ [name]) = true) :
    process f.guard c pattern = process workspace c pattern := by
  apply f.agrees_guard.process
  · intro q hq current
    apply hdirs current
    rcases List.mem_cons.mp hq with rfl | hq
    · exact Path.target_mem_way ..
    · exact Path.target_mem_way_of_mem_ancestors current hq
  · intro stages file hfile current
    obtain ⟨name, hname, -⟩ := exists_target_eq hfile current
    rw [hname]
    exact hfiles current name

/-- The fence around a directory: directories below it or on the way to it, and files below it. -/
def around (out : Path) : Fence where
  directories current l := (out.target current).isPrefixOf l || (out.way current).contains l
  files current l := (out.target current).isPrefixOf l && l != out.target current

theorem directories_around_iff {out : Path} {current l : Location} :
    (around out).directories current l = true ↔ out.target current <+: l ∨ l ∈ out.way current := by
  simp [around]

theorem files_around_iff {out : Path} {current l : Location} :
    (around out).files current l = true ↔ out.target current <+: l ∧ l ≠ out.target current := by
  simp [around]

end Fence

/-- Processing a pattern writes files only below the output directory, and makes directories only there and on the way
there: it is the same where all else is refused. -/
structure Confined (c : Config) (pattern : String) : Prop where
  guard : process (Fence.around c.out).guard c pattern = process workspace c pattern
  changes : ∀ s : Session, s.tree.Changes
    (fun l => c.out.target s.tree.current <+: l ∨ l ∈ c.out.way s.tree.current)
    (fun l => c.out.target s.tree.current <+: l ∧ l ≠ c.out.target s.tree.current)
    ((process workspace c pattern).run s).2.tree

/-- A pattern is confined if its folder is named by a relative path that stays below where it begins. -/
theorem process_confined {c : Config} {pattern : String}
    (hrelative : (Path.ofString (folderName pattern)).isAbsolute = false)
    (hbelow : Path.StaysBelow (Path.ofString (folderName pattern)).names) : Confined c pattern := by
  have hguard : process (Fence.around c.out).guard c pattern = process workspace c pattern := by
    apply Fence.process_guard
    · intro current l hl
      rw [Fence.directories_around_iff]
      rcases (Path.mem_way_join hrelative).mp hl with hway | ⟨names, hnames, rfl⟩
      · exact .inr hway
      · exact .inl (hbelow.prefix_resolve hnames _)
    · intro current name
      have hfolder := hbelow.prefix_resolve List.prefix_rfl (c.out.target current)
      rw [Fence.files_around_iff, placeIn, folderIn, Path.target_join current hrelative]
      refine ⟨hfolder.trans (List.prefix_append ..), ?_⟩
      intro heq
      have hlength := congrArg List.length heq
      rw [List.length_append, List.length_singleton] at hlength
      have := hfolder.length_le
      omega
  refine ⟨hguard, ?_⟩
  intro s
  have hholds := (Fence.composes_holds _).process (Fence.around c.out).performs_guard c pattern s
  rw [hguard] at hholds
  exact hholds.mono (fun _ => Fence.directories_around_iff.mp) (fun _ => Fence.files_around_iff.mp)

theorem process_confined_of_turning_folder : (Path.ofString (folderName "a*/../b")).isAbsolute = false ∧
    Path.StaysBelow (Path.ofString (folderName "a*/../b")).names ∧
    Confined ⟨.ofString "R/S", none, false, []⟩ "a*/../b" := by
  have hrelative : (Path.ofString (folderName "a*/../b")).isAbsolute = false := by decide +kernel
  have hbelow : Path.StaysBelow (Path.ofString (folderName "a*/../b")).names := by decide +kernel
  exact ⟨hrelative, hbelow, process_confined hrelative hbelow⟩

/-- Processing a pattern makes something at a place that is not below the output directory. -/
def Escapes (c : Config) (pattern : String) (s : Session) (l : Location) : Prop :=
  s.tree.entry? l = none ∧ (((process workspace c pattern).run s).2.tree.entry? l).isSome = true ∧
    ¬ c.out.target s.tree.current <+: l

/-- Names that go up or begin at the root lead out of the output directory, and what is missing on the way to that
directory is made too. -/
theorem process_escapes : (∀ p ∈ ["../x", "/x", "a"], ∃ stages, compile p = .ok stages) ∧
    Escapes ⟨.ofString "R", none, false, []⟩ "../x" blank [['x'], "nfa.json".toList] ∧
    Escapes ⟨.ofString "R", none, false, []⟩ "/x" blank [['x'], "nfa.json".toList] ∧
    Escapes ⟨.ofString "R/S", none, false, []⟩ "a" blank [['R']] := by
  refine ⟨?_, ?_, ?_, ?_⟩
  · have hisOk : ∀ p ∈ ["../x", "/x", "a"], (Nfa.ofPattern? p).isOk = true := by decide +kernel
    intro p hp
    obtain ⟨n, -, hcompile⟩ := exists_compile_of_isOk p (hisOk p hp)
    exact ⟨_, hcompile⟩
  all_goals
    unfold Escapes
    decide +kernel

end Session

end PatternAutomata
