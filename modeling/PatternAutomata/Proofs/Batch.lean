import PatternAutomata.Batch
import PatternAutomata.Proofs.FileTree
import PatternAutomata.Proofs.Table.Record

namespace PatternAutomata

def Failure.isFileError : Failure → Bool
  | creating _ _ | writing _ _ | reading _ _ => true
  | rejected _ | badRecord _ _ | refused _ _ _ => false

section Actions

variable {m : Type → Type} [Monad m] {P : (α : Type) → m α → Prop} {w : Workspace m}

/-- The property holds of actions without effect, and sequences inherit it from their parts. -/
structure Composes (P : (α : Type) → m α → Prop) : Prop where
  pure : ∀ {α : Type} (a : α), P α (Pure.pure a)
  bind : ∀ {α β : Type} {act : m α} {next : α → m β}, P α act → (∀ a, P β (next a)) → P β (act >>= next)

/-- The property holds of every operation of the workspace. -/
structure Workspace.Performs (w : Workspace m) (P : (α : Type) → m α → Prop) : Prop where
  createDir : ∀ p, P _ (w.createDir p)
  isDirectory : ∀ p, P _ (w.isDirectory p)
  write : ∀ p content, P _ (w.write p content)
  read : ∀ p, P _ (w.read p)
  isPresent : ∀ p, P _ (w.isPresent p)
  print : ∀ text, P _ (w.print text)

namespace Composes

theorem settle (h : Composes P) (hthere : ∀ p, P _ (w.isDirectory p)) (p : Path) (e : FileError) :
    P _ (w.settle p e) := by
  apply h.bind (hthere p)
  intro there
  cases there <;> exact h.pure _

theorem createFrom (h : Composes P) (hcreate : ∀ p, P _ (w.createDir p)) (hthere : ∀ p, P _ (w.isDirectory p))
    (p : Path) (above : List Path) : P _ (w.createFrom p above) := by
  induction above generalizing p with
  | nil =>
    apply h.bind (hcreate p)
    rintro (e | _)
    · exact h.settle hthere p e
    · exact h.pure _
  | cons q above ih =>
    apply h.bind (hcreate p)
    rintro (e | _)
    -- Only what is missing is made after its parent; every other error is settled at once.
    · cases e with
      | notFound =>
        have habove : P _ (if q.chars.isEmpty then Pure.pure (.ok ()) else w.createFrom q above) := by
          split
          · exact h.pure _
          · exact ih q
        apply h.bind habove
        rintro (e | _)
        · exact h.pure _
        · apply h.bind (hcreate p)
          rintro (e | _)
          · exact h.settle hthere p e
          · exact h.pure _
      | _ => exact h.settle hthere p _
    · exact h.pure _

theorem createDirs (h : Composes P) (hcreate : ∀ p, P _ (w.createDir p)) (hthere : ∀ p, P _ (w.isDirectory p))
    (p : Path) : P _ (w.createDirs p) := by
  rw [Workspace.createDirs]
  split
  · exact h.pure _
  · exact h.createFrom hcreate hthere p _

end Composes

end Actions

namespace Session

def blank : Session := ⟨.bare [], ""⟩

/-- Whatever it answers, the action prints nothing, does not depend on what was printed, and only adds directories to
the tree. -/
def OnlyAdds {α : Type} (act : StateM Session α) : Prop :=
  ∀ t : FileTree, ∃ (a : α) (u : FileTree), t.Changes (fun _ => True) (fun _ => False) u ∧
    ∀ printed, act ⟨t, printed⟩ = (a, ⟨u, printed⟩)

theorem composes_onlyAdds : Composes (m := StateM Session) fun _ act => OnlyAdds act where
  pure a t := ⟨a, t, .refl t, fun _ => rfl⟩
  bind := by
    intro _ _ act next h hnext t
    obtain ⟨a, u, hchanges, hrun⟩ := h t
    obtain ⟨b, v, hchanges', hrun'⟩ := hnext a u
    refine ⟨b, v, hchanges.trans hchanges', ?_⟩
    intro printed
    show next (act ⟨t, printed⟩).1 (act ⟨t, printed⟩).2 = _
    rw [hrun]
    exact hrun' printed

theorem run_createDir (p : Path) (s : Session) : workspace.createDir p s =
    match s.tree.createDir p with
    | .error e => (.error e, s)
    | .ok tree => (.ok (), { s with tree }) := by
  unfold workspace
  simp only [bind, StateT.bind, get, getThe, MonadStateOf.get, StateT.get, pure]
  cases s.tree.createDir p <;> rfl

theorem onlyAdds_createDir (p : Path) : OnlyAdds (workspace.createDir p) := by
  intro t
  cases hcreate : t.createDir p with
  | error e =>
    refine ⟨.error e, t, .refl t, ?_⟩
    intro printed
    rw [run_createDir, hcreate]
  | ok u =>
    refine ⟨.ok (), u, (FileTree.changes_of_createDir hcreate).mono (fun _ _ => trivial) (fun _ => id), ?_⟩
    intro printed
    rw [run_createDir, hcreate]

theorem onlyAdds_createDirs (p : Path) : OnlyAdds (workspace.createDirs p) :=
  composes_onlyAdds.createDirs onlyAdds_createDir (fun p t => ⟨t.isDirectory p, t, .refl t, fun _ => rfl⟩) p

theorem run_write (p : Path) (content : String) (s : Session) : workspace.write p content s =
    match s.tree.write p content with
    | .error e => (.error e, s)
    | .ok tree => (.ok (), { s with tree }) := by
  unfold workspace
  simp only [bind, StateT.bind, get, getThe, MonadStateOf.get, StateT.get, pure]
  cases s.tree.write p content <;> rfl

end Session

namespace Batch

open Session

section Actions

variable {α β : Type} {act : ExceptT Failure (StateM Session) α} {next : α → ExceptT Failure (StateM Session) β}
  {s s' : Session}

theorem run_bind_ok {a : α} (h : act.run s = (.ok a, s')) : (act >>= next).run s = (next a).run s' := by
  rw [ExceptT.run_bind]
  simp only [bind, StateT.bind, h]

theorem run_bind_error {f : Failure} (h : act.run s = (.error f, s')) : (act >>= next).run s = (.error f, s') := by
  rw [ExceptT.run_bind]
  simp only [bind, StateT.bind, h]
  rfl

/-- A sequence that ends well is well in both parts. -/
theorem exists_of_run_bind {b : β} {s'' : Session} (h : (act >>= next).run s = (.ok b, s'')) :
    ∃ a s', act.run s = (.ok a, s') ∧ (next a).run s' = (.ok b, s'') := by
  cases hrun : act.run s with
  | mk answer s' =>
    cases answer with
    | error f =>
      rw [run_bind_error hrun] at h
      cases h
    | ok a =>
      rw [run_bind_ok hrun] at h
      exact ⟨a, s', rfl, h⟩

theorem run_attempt (wrap : FileError → Failure) (act : StateM Session (Except FileError α)) (s : Session) :
    (attempt wrap act).run s = ((act s).1.mapError wrap, (act s).2) := rfl

/-- The action stops at an error of the file system. -/
def Breaks (act : ExceptT Failure (StateM Session) α) (s : Session) : Prop :=
  ∃ f s', act.run s = (.error f, s') ∧ f.isFileError = true

theorem Breaks.bind (h : Breaks act s) : Breaks (act >>= next) s := by
  obtain ⟨f, s', hrun, hf⟩ := h
  exact ⟨f, s', run_bind_error hrun, hf⟩

theorem Breaks.bind_ok {a : α} (hrun : act.run s = (.ok a, s')) (h : Breaks (next a) s') : Breaks (act >>= next) s := by
  obtain ⟨f, s'', hnext, hf⟩ := h
  exact ⟨f, s'', (run_bind_ok hrun).trans hnext, hf⟩

end Actions

/-- The action writes the files in order, and stops where one cannot be written. -/
def Writes (act : ExceptT Failure (StateM Session) Unit) (files : List (Path × String)) : Prop :=
  ∀ s : Session, (∃ u, s.tree.writeAll files = .ok u ∧ act.run s = (.ok (), { s with tree := u })) ∨
    (∃ e, s.tree.writeAll files = .error e) ∧ Breaks act s

theorem writes_one (p : Path) (content : String) :
    Writes (attempt (.writing p) (workspace.write p content)) [(p, content)] := by
  intro s
  cases hwrite : s.tree.write p content with
  | ok u =>
    refine .inl ⟨u, FileTree.writeAll_cons_eq_ok.mpr ⟨u, hwrite, rfl⟩, ?_⟩
    rw [run_attempt, run_write, hwrite]
    rfl
  | error e =>
    refine .inr ⟨⟨e, ?_⟩, .writing p e, s, ?_, rfl⟩
    · rw [FileTree.writeAll, List.foldlM_cons, hwrite]
      rfl
    · rw [run_attempt, run_write, hwrite]
      rfl

theorem Writes.seq {act act' : ExceptT Failure (StateM Session) Unit} {files files' : List (Path × String)}
    (h : Writes act files) (h' : Writes act' files') : Writes (do act; act') (files ++ files') := by
  intro s
  have happend : s.tree.writeAll (files ++ files') = s.tree.writeAll files >>= fun u => u.writeAll files' :=
    List.foldlM_append
  rcases h s with ⟨u, hfiles, hrun⟩ | ⟨⟨e, hfiles⟩, hbreaks⟩
  · rw [happend, hfiles]
    rcases h' { s with tree := u } with ⟨v, hfiles', hrun'⟩ | ⟨⟨e, hfiles'⟩, hbreaks'⟩
    · exact .inl ⟨v, hfiles', (run_bind_ok hrun).trans hrun'⟩
    · exact .inr ⟨⟨e, hfiles'⟩, .bind_ok hrun hbreaks'⟩
  · rw [happend, hfiles]
    exact .inr ⟨⟨e, rfl⟩, hbreaks.bind⟩

def tableFiles (dir : Path) (name : String) (t : Table) : List (Path × String) :=
  [(dir.join (.ofString (name ++ ".json")), t.toJson), (dir.join (.ofString (name ++ ".dot")), t.toDot)]

theorem writes_writeTable (dir : Path) (name : String) (t : Table) :
    Writes (writeTable workspace dir name t) (tableFiles dir name t) :=
  (writes_one _ _).seq (writes_one _ _)

def stagesFiles (dir : Path) (stages : Stages) : List (Path × String) :=
  tableFiles dir "nfa" stages.nfa.table ++
    (tableFiles dir "dfa" stages.dfa.table ++ tableFiles dir "minimized_dfa" stages.minimal.dfa.table)

section Programs

variable {m : Type → Type} [Monad m]

def store (w : Workspace m) (dir : Path) (stages : Stages) : ExceptT Failure m Unit := do
  attempt (.creating dir) (w.createDirs dir)
  writeTable w dir "nfa" stages.nfa.table
  writeTable w dir "dfa" stages.dfa.table
  writeTable w dir "minimized_dfa" stages.minimal.dfa.table

def compareTables (w : Workspace m) (expected : Option Path) (pattern : String) (stages : Stages) :
    ExceptT Failure m Bool :=
  match expected with
  | none => pure true
  | some expected => do
    let dir := expected.join (.ofString (folderName pattern))
    let first ← checkAgainst w dir "NFA" "nfa" stages.nfa.table pattern
    let second ← checkAgainst w dir "DFA" "minimized_dfa" stages.minimal.dfa.table pattern
    pure (first && second)

def report (pattern : String) (stages : Stages) (passed : Bool) : Report :=
  ⟨pattern, stages.nfa.table.size, stages.dfa.table.size, stages.minimal.dfa.table.size, passed⟩

def crossCheck (oracle : Oracle) (w : Workspace m) (verify : Bool) (pattern : String) (d : Dfa) :
    ExceptT Failure m Bool :=
  if verify then
    match disagreementsBy oracle pattern d with
    | .error e => throw (.ofCheck e)
    | .ok words => do
      w.print (verdict "ORACLE" words.isEmpty pattern)
      pure words.isEmpty
  else pure true

def processBy (oracle : Oracle) (w : Workspace m) (c : Config) (pattern : String) : ExceptT Failure m Report :=
  match compile pattern with
  | .error e => throw (.rejected e)
  | .ok stages => do
    store w (c.out.join (.ofString (folderName pattern))) stages
    let passed ← compareTables w c.expected pattern stages
    let agrees ← crossCheck oracle w c.verify pattern stages.minimal.dfa
    pure (report pattern stages (passed && agrees))

theorem processBy_oracle [LawfulMonad m] (w : Workspace m) (c : Config) (pattern : String) :
    processBy Regex.oracle w c pattern = process w c pattern := by
  unfold processBy process store compareTables crossCheck report disagreements
  cases compile pattern with
  | error e => rfl
  | ok stages =>
    dsimp only
    cases disagreementsBy Regex.oracle pattern stages.minimal.dfa <;> cases c.expected <;> cases c.verify <;>
      simp only [pure_bind, bind_assoc, Bool.false_eq_true, if_false, if_true]

theorem process_eq [LawfulMonad m] (w : Workspace m) {c : Config} (hverify : c.verify = false) {pattern : String}
    {stages : Stages} (h : compile pattern = .ok stages) : process w c pattern = (do
      store w (c.out.join (.ofString (folderName pattern))) stages
      let passed ← compareTables w c.expected pattern stages
      pure (report pattern stages passed)) := by
  rw [← processBy_oracle, processBy, h, hverify]
  simp only [crossCheck, Bool.false_eq_true, if_false, pure_bind, Bool.and_true]

end Programs

/-- A check reads the tree and leaves it as it is. -/
theorem run_checkAgainst (dir : Path) (label name : String) (t : Table) (pattern : String) (s : Session) :
    (checkAgainst workspace dir label name t pattern).run s =
      let file := dir.join (.ofString (name ++ ".json"))
      if s.tree.isPresent file then
        match s.tree.read file with
        | .error e => (.error (.reading file e), s)
        | .ok text =>
          match Table.ofJson? text with
          | .error e => (.error (.badRecord file e), s)
          | .ok reference =>
            (.ok (t.equivalent reference),
              { s with printed := s.printed ++ verdict label (t.equivalent reference) pattern })
      else (.ok true, s) := by
  let file := dir.join (.ofString (name ++ ".json"))
  have hlook : (liftM (workspace.isPresent file) : ExceptT Failure (StateM Session) Bool).run s =
      (.ok (s.tree.isPresent file), s) := rfl
  have hanswer : (attempt (.reading file) (workspace.read file)).run s =
      ((s.tree.read file).mapError (.reading file), s) := rfl
  unfold checkAgainst
  rw [run_bind_ok hlook]
  dsimp only
  cases s.tree.isPresent file with
  | false => rfl
  | true =>
    rw [if_pos rfl, if_pos rfl]
    cases hread : s.tree.read file with
    | error e =>
      rw [hread] at hanswer
      exact run_bind_error hanswer
    | ok text =>
      rw [hread] at hanswer
      rw [run_bind_ok hanswer]
      dsimp only
      cases Table.ofJson? text <;> rfl

/-- A check against a stored table is made, and says whether the two are equivalent. -/
theorem run_checkAgainst_stored {dir : Path} {name : String} {reference : Table} {l : Location} {s : Session}
    (hlocate : s.tree.locate (dir.join (.ofString (name ++ ".json"))) = .ok l)
    (hentry : s.tree.entry? l = some (.file reference.toJson)) (hstorable : reference.Storable) (label : String)
    (t : Table) (pattern : String) :
    (checkAgainst workspace dir label name t pattern).run s =
      (.ok (t.equivalent reference),
        { s with printed := s.printed ++ verdict label (t.equivalent reference) pattern }) := by
  obtain ⟨hpresent, hread⟩ := FileTree.read_of_locate hlocate hentry
  rw [run_checkAgainst]
  simp only [hpresent, if_true, hread, hstorable.ofJson?_toJson]

section Programs

variable {m : Type → Type} [Monad m]

def results (w : Workspace m) (c : Config) : List String → m (List (Except Failure Report))
  | [] => pure []
  | pattern :: rest => do
    let r ← (process w c pattern).run
    let later ← results w c rest
    pure (r :: later)

theorem processAll_eq [LawfulMonad m] (w : Workspace m) (c : Config) (patterns : List String) :
    processAll w c patterns = List.map Except.toOption <$> results w c patterns := by
  induction patterns with
  | nil => rw [processAll, results, map_pure, List.map_nil]
  | cons pattern rest ih =>
    rw [processAll, results, ih]
    simp only [map_eq_pure_bind, bind_assoc, pure_bind, List.map_cons]

/-- The loop of a run: what each pattern gives, failures included. -/
def resultsOf (act : String → ExceptT Failure m Report) : List String → m (List (Except Failure Report))
  | [] => pure []
  | pattern :: rest => do
    let r ← (act pattern).run
    let later ← resultsOf act rest
    pure (r :: later)

def reports (results : List (Except Failure Report)) : List Report := results.filterMap Except.toOption

def failures (results : List (Except Failure Report)) : Nat :=
  results.countP (fun r => !r.isOk) + (reports results).countP (fun r => !r.passed)

def runConfigBy (oracle : Oracle) (w : Workspace m) (c : Config) : m Outcome := do
  match ← w.createDirs c.out with
  | .error e => pure (.failure s!"failed to create output directory '{c.out.text}'" (some e))
  | .ok () =>
    let results ← resultsOf (processBy oracle w c) c.patterns
    w.print Report.header
    w.print (String.join ((reports results).map Report.line))
    if failures results = 0 then pure .success
    else pure (.failure s!"{failures results} of {c.patterns.length} patterns failed" none)

theorem resultsOf_oracle [LawfulMonad m] (w : Workspace m) (c : Config) (patterns : List String) :
    resultsOf (processBy Regex.oracle w c) patterns = results w c patterns := by
  induction patterns with
  | nil => rfl
  | cons pattern rest ih => rw [resultsOf, results, processBy_oracle, ih]

@[simp] theorem reports_error (f : Failure) (results : List (Except Failure Report)) :
    reports (.error f :: results) = reports results := rfl

@[simp] theorem reports_ok (r : Report) (results : List (Except Failure Report)) :
    reports (.ok r :: results) = r :: reports results := rfl

@[simp] theorem failures_error (f : Failure) (results : List (Except Failure Report)) :
    failures (.error f :: results) = failures results + 1 := by
  unfold failures
  rw [reports_error, List.countP_cons_of_pos rfl]
  omega

@[simp] theorem failures_ok (r : Report) (results : List (Except Failure Report)) :
    failures (.ok r :: results) = failures results + if !r.passed then 1 else 0 := by
  unfold failures
  rw [reports_ok, List.countP_cons_of_neg Bool.false_ne_true, List.countP_cons, Nat.add_assoc]

theorem failures_eq_zero_iff {results : List (Except Failure Report)} :
    failures results = 0 ↔ ∀ r ∈ results, ∃ report, r = .ok report ∧ report.passed = true := by
  induction results with
  | nil => simp [failures, reports]
  | cons r rest ih =>
    rw [List.forall_mem_cons, ← ih]
    cases r with
    | error f => simp
    | ok report => simp [and_comm]

/-- The number that a run complains about is that of its failures. -/
theorem countP_toOption (results : List (Except Failure Report)) :
    (results.map Except.toOption).countP (fun r => !r.any (·.passed)) = failures results := by
  induction results with
  | nil => rfl
  | cons r rest ih =>
    rw [List.map_cons, List.countP_cons, ih]
    cases r with
    | error f => rw [failures_error]; rfl
    | ok report => rw [failures_ok]; rfl

@[simp] theorem reports_map_ok (rs : List Report) : reports (rs.map .ok) = rs := by
  induction rs with
  | nil => rfl
  | cons r rest ih => rw [List.map_cons, reports_ok, ih]

theorem runConfigBy_oracle [LawfulMonad m] (w : Workspace m) (c : Config) :
    runConfigBy Regex.oracle w c = runConfig w c := by
  unfold runConfigBy runConfig
  congr 1
  funext created
  cases created with
  | error e => rfl
  | ok _ =>
    simp only [processAll_eq, resultsOf_oracle, map_eq_pure_bind, bind_assoc, pure_bind, countP_toOption]
    simp only [List.filterMap_map, Function.id_comp]
    rfl

end Programs

def Quiet (results : List (Except Failure Report)) : Prop :=
  ∀ r ∈ results, ∀ f, r = .error f → f.isFileError = false

instance (results : List (Except Failure Report)) : Decidable (Quiet results) :=
  decidable_of_iff (∀ r ∈ results, (match r with | .ok _ => false | .error f => f.isFileError) = false) <| by
    refine forall₂_congr fun r _ => ?_
    cases r <;> simp

/-- The output directory can be made, and no pattern meets an error of the file system. -/
structure Undisturbed (c : Config) (s : Session) : Prop where
  created : (workspace.createDirs c.out s).1.isOk = true
  processed : Quiet (results workspace c c.patterns (workspace.createDirs c.out s).2).1

instance (c : Config) (s : Session) : Decidable (Undisturbed c s) :=
  decidable_of_iff ((workspace.createDirs c.out s).1.isOk = true ∧
    Quiet (results workspace c c.patterns (workspace.createDirs c.out s).2).1)
    ⟨fun h => ⟨h.1, h.2⟩, fun h => ⟨h.created, h.processed⟩⟩

section Runs

variable {c : Config} {I : List String → FileTree → Prop} {text : String → String}

theorem results_cons (pattern : String) (rest : List String) (s : Session) :
    results workspace c (pattern :: rest) s =
      (((process workspace c pattern).run s).1 ::
          (results workspace c rest ((process workspace c pattern).run s).2).1,
        (results workspace c rest ((process workspace c pattern).run s).2).2) := rfl

theorem not_quiet_of_breaks {pattern : String} {s : Session} (h : Breaks (process workspace c pattern) s)
    (rest : List String) : ¬ Quiet (results workspace c (pattern :: rest) s).1 := by
  intro hquiet
  obtain ⟨f, s', hprocess, hf⟩ := h
  rw [results_cons, hprocess] at hquiet
  have hfine := hquiet (.error f) List.mem_cons_self f rfl
  rw [hf] at hfine
  cases hfine

/-- Once its directory is made, a run reports what its loop gives. -/
theorem run_runConfigBy {oracle : Oracle} {s t u : Session} {results : List (Except Failure Report)}
    (hcreated : workspace.createDirs c.out s = (.ok (), t))
    (hresults : resultsOf (processBy oracle workspace c) c.patterns t = (results, u)) :
    runConfigBy oracle workspace c s =
      (if failures results = 0 then .success
        else .failure s!"{failures results} of {c.patterns.length} patterns failed" none,
        { u with printed := u.printed ++ Report.header ++ String.join ((reports results).map Report.line) }) := by
  unfold runConfigBy
  by_cases hfailed : failures results = 0
  · simp only [bind, StateT.bind, hcreated, hresults, if_pos hfailed]
    rfl
  · simp only [bind, StateT.bind, hcreated, hresults, if_neg hfailed]
    rfl

theorem run_runConfig {s t u : Session} {rs : List (Except Failure Report)}
    (hcreated : workspace.createDirs c.out s = (.ok (), t)) (hresults : results workspace c c.patterns t = (rs, u)) :
    runConfig workspace c s =
      (if failures rs = 0 then .success
        else .failure s!"{failures rs} of {c.patterns.length} patterns failed" none,
        { u with printed := u.printed ++ Report.header ++ String.join ((reports rs).map Report.line) }) := by
  rw [← runConfigBy_oracle]
  apply run_runConfigBy hcreated
  rw [resultsOf_oracle, hresults]

/-- The directory is made in the same way whatever was printed. -/
theorem Undisturbed.createDirs_eq {s : Session} (h : Undisturbed c s) : ∃ t, s.tree.Keeps t ∧
    ∀ printed, workspace.createDirs c.out ⟨s.tree, printed⟩ = (.ok (), ⟨t, printed⟩) := by
  obtain ⟨r, t, hchanges, hrun⟩ := onlyAdds_createDirs c.out s.tree
  have hcreated := h.created
  rw [show workspace.createDirs c.out s = (r, ⟨t, s.printed⟩) from hrun s.printed] at hcreated
  cases r with
  | error e => cases hcreated
  | ok _ => exact ⟨t, hchanges.keeps, hrun⟩

/-- The pattern is processed well: it prints `text`, and `I` holds of the tree with the pattern among those done. -/
def Passes (c : Config) (I : List String → FileTree → Prop) (text : String → String) (before : List String)
    (pattern : String) (s : Session) : Prop :=
  ∃ r u, (process workspace c pattern).run s = (.ok r, ⟨u, s.printed ++ text pattern⟩) ∧ r.pattern = pattern ∧
    r.passed = true ∧ I (before ++ [pattern]) u

/-- If every pattern passes unless an error of the file system stops it, all patterns of an undisturbed run pass. -/
theorem results_of_passes {patterns : List String} (hstep : ∀ before, ∀ pattern ∈ patterns, ∀ s : Session,
    I before s.tree → Breaks (process workspace c pattern) s ∨ Passes c I text before pattern s)
    {before : List String} {s : Session} (hs : I before s.tree) (hquiet : Quiet (results workspace c patterns s).1) :
    ∃ (reports : List Report) (u : FileTree), results workspace c patterns s =
        (reports.map .ok, ⟨u, s.printed ++ String.join (patterns.map text)⟩) ∧
      reports.map (·.pattern) = patterns ∧ (∀ r ∈ reports, r.passed = true) ∧ I (before ++ patterns) u := by
  induction patterns generalizing before s with
  | nil =>
    refine ⟨[], s.tree, ?_, rfl, by simp, ?_⟩
    · show (([], s) : List (Except Failure Report) × Session) = _
      simp
    · rw [List.append_nil]
      exact hs
  | cons pattern rest ih =>
    obtain ⟨hpattern, hrest⟩ := List.forall_mem_cons.mp fun p hp before => hstep before p hp
    -- An error of the file system would show among the results, and the run is quiet.
    rcases hpattern before s hs with hbreaks | ⟨r, u, hpasses, hname, hpassed, hI⟩
    · exact absurd hquiet (not_quiet_of_breaks hbreaks rest)
    · rw [results_cons, hpasses] at hquiet ⊢
      obtain ⟨reports, v, hresults, hnames, hall, hlast⟩ := ih (fun before p hp => hrest p hp before) hI
        fun r hr => hquiet r (List.mem_cons_of_mem _ hr)
      refine ⟨r :: reports, v, ?_, ?_, ?_, ?_⟩
      · rw [hresults]
        simp [String.append_assoc]
      · rw [List.map_cons, hname, hnames]
      · exact List.forall_mem_cons.mpr ⟨hpassed, hall⟩
      · rw [List.append_cons]
        exact hlast

/-- Then the run ends well, and the tree is left as the last pattern left it. -/
theorem runConfig_of_passes (hstep : ∀ before, ∀ pattern ∈ c.patterns, ∀ s : Session,
    I before s.tree → Breaks (process workspace c pattern) s ∨ Passes c I text before pattern s) {s : Session}
    (hs : ∀ t, s.tree.Keeps t → I [] t) (hquiet : Undisturbed c s) :
    ∃ (reports : List Report) (u : FileTree), runConfig workspace c s =
        (.success, ⟨u, s.printed ++ String.join (c.patterns.map text) ++ Report.header ++
          String.join (reports.map Report.line)⟩) ∧
      reports.map (·.pattern) = c.patterns ∧ (∀ r ∈ reports, r.passed = true) ∧ I c.patterns u := by
  obtain ⟨t, hkeeps, hrun⟩ := hquiet.createDirs_eq
  have hcreated : workspace.createDirs c.out s = (.ok (), ⟨t, s.printed⟩) := hrun s.printed
  have hresults := hquiet.processed
  rw [hcreated] at hresults
  obtain ⟨reports, u, hresults, hnames, hall, hI⟩ := results_of_passes hstep (hs t hkeeps) hresults
  refine ⟨reports, u, ?_, hnames, hall, hI⟩
  have hfailed : failures (reports.map .ok) = 0 := by
    rw [failures_eq_zero_iff]
    intro r hr
    obtain ⟨report, hreport, rfl⟩ := List.mem_map.mp hr
    exact ⟨report, rfl, hall report hreport⟩
  rw [run_runConfig hcreated hresults, if_pos hfailed, reports_map_ok]

/-- A run ends well only if every pattern passed. -/
theorem passed_of_success {s : Session} (h : (runConfig workspace c s).1 = .success) :
    ∀ r ∈ (results workspace c c.patterns (workspace.createDirs c.out s).2).1,
      ∃ report, r = .ok report ∧ report.passed = true := by
  rw [← failures_eq_zero_iff]
  cases hcreate : workspace.createDirs c.out s with
  | mk answer s' =>
    cases answer with
    | error e =>
      unfold runConfig at h
      simp only [bind, StateT.bind, hcreate] at h
      cases h
    | ok _ =>
      rw [run_runConfig hcreate rfl] at h
      by_contra hfailed
      rw [if_neg hfailed] at h
      cases h

end Runs

end Batch

end PatternAutomata
