import PatternAutomata.Proofs.Storing
import PatternAutomata.Proofs.Table.Levels

namespace PatternAutomata

namespace Batch

open Session

variable {stages : Stages} {current : Location} {t u : FileTree}

/-- Each of the checked tables of one pattern is equivalent to that of the other. -/
def Interchangeable (p q : String) : Prop :=
  ∀ stages stages', compile p = .ok stages → compile q = .ok stages' →
    ∀ k : Check, (k.table stages).equivalent (k.table stages') = true

theorem Interchangeable.refl (p : String) : Interchangeable p p := by
  intro stages stages' h h' k
  obtain rfl := Except.ok.inj (h.symm.trans h')
  exact Table.equivalent_iff.mpr rfl

def Holds (t : FileTree) (l : Location) (P : Stages → Prop) : Prop :=
  ∀ k : Check, ∃ stages, P stages ∧ t.entry? (l ++ [k.fileName]) = some (.file (k.table stages).toJson)

theorem Holds.mono {l : Location} {P Q : Stages → Prop} (h : Holds t l P) (hPQ : ∀ stages, P stages → Q stages) :
    Holds t l Q := by
  intro k
  obtain ⟨stages, hstages, hentry⟩ := h k
  exact ⟨stages, hPQ stages hstages, hentry⟩

namespace Stored

variable {dir : Path} {l : Location} {P : Stages → Prop}

theorem holds (h : Stored dir stages t u) (hP : P stages) : Holds u (dir.target t.current) P :=
  fun k => ⟨stages, hP, h.stored k⟩

/-- Elsewhere the records are those of before. -/
theorem holds_of_holds (h : Stored dir stages t u) (hold : Holds t l P) (hP : l = dir.target t.current → P stages) :
    Holds u l P := by
  by_cases hl : l = dir.target t.current
  · rw [hl]
    exact h.holds (hP hl)
  · intro k
    obtain ⟨stages', hstages', hentry⟩ := hold k
    exact ⟨stages', hstages', h.others k l _ hl hentry⟩

end Stored

section Runs

variable {patterns : List String} {reference out : Path}

/-- The patterns whose folder lies at a place below the reference directory. -/
def FiledAt (patterns : List String) (current : Location) (reference : Path) (l : Location) (stages : Stages) : Prop :=
  ∃ q ∈ patterns, compile q = .ok stages ∧ placeIn current reference q = l

def Located (current : Location) (reference : Path) (pattern : String) (t : FileTree) : Prop :=
  ∀ k : Check, t.locate (k.file (folderIn reference pattern)) = .ok (placeIn current reference pattern ++ [k.fileName])

theorem Located.refers {p : String} (h : Located current reference p t) (hcurrent : t.current = current)
    (found : Check → Stages) (hfound : ∀ k : Check, (∃ q, compile q = .ok (found k)) ∧
      t.entry? (placeIn current reference p ++ [k.fileName]) = some (.file (k.table (found k)).toJson)) :
    Refers t (folderIn reference p) fun k => k.table (found k) := by
  intro k
  obtain ⟨⟨q, hcompile⟩, hentry⟩ := hfound k
  rw [hcurrent]
  exact ⟨k.storable_table hcompile, h k, hentry⟩

/-- After the first run: the folders of the patterns that are done hold tables of patterns filed there. -/
structure Filed (patterns : List String) (current : Location) (reference : Path) (before : List String)
    (t : FileTree) : Prop where
  current_eq : t.current = current
  located : ∀ p ∈ before, Located current reference p t
  holds : ∀ p ∈ before, Holds t (placeIn current reference p)
    (FiledAt patterns current reference (placeIn current reference p))

theorem filed_nil (hcurrent : t.current = current) : Filed patterns current reference [] t :=
  ⟨hcurrent, by simp, by simp⟩

theorem Filed.step {before : List String} {q : String} (h : Filed patterns current reference before t)
    (hq : q ∈ patterns) (hcompile : compile q = .ok stages) (hstored : Stored (folderIn reference q) stages t u) :
    Filed patterns current reference (before ++ [q]) u := by
  have hplace : (folderIn reference q).target t.current = placeIn current reference q := by
    rw [h.current_eq]
    rfl
  refine ⟨hstored.grows.current_eq.trans h.current_eq, ?_, ?_⟩
  · intro p hp k
    rcases List.mem_append.mp hp with hp | hp
    · exact hstored.grows.locate (h.located p hp k)
    · obtain rfl := List.mem_singleton.mp hp
      rw [← hplace]
      exact hstored.located k
  · intro p hp
    rcases List.mem_append.mp hp with hp | hp
    · apply hstored.holds_of_holds (h.holds p hp)
      intro heq
      exact ⟨q, hq, hcompile, hplace.symm.trans heq.symm⟩
    · obtain rfl := List.mem_singleton.mp hp
      have hself := hstored.holds (P := FiledAt patterns current reference (placeIn current reference p))
        ⟨p, hq, hcompile, rfl⟩
      rwa [hplace] at hself

structure Latest (current : Location) (reference : Path) (before : List String) (t : FileTree) : Prop where
  current_eq : t.current = current
  holds : ∀ q ∈ before.getLast?, ∀ stages, compile q = .ok stages →
    Holds t (placeIn current reference q) fun stages' => stages' = stages

theorem Latest.step {before : List String} {q : String} (h : Latest current reference before t)
    (hcompile : compile q = .ok stages) (hstored : Stored (folderIn reference q) stages t u) :
    Latest current reference (before ++ [q]) u := by
  refine ⟨hstored.grows.current_eq.trans h.current_eq, ?_⟩
  intro p hp stages' hcompile'
  obtain rfl : q = p := by simpa using hp
  obtain rfl := Except.ok.inj (hcompile.symm.trans hcompile')
  rw [placeIn, ← h.current_eq]
  exact hstored.holds rfl

/-- In the second run: all references can be found, and those that it cannot overwrite first are as the first run
left them. -/
structure Referenced (patterns : List String) (current : Location) (reference out : Path) (t : FileTree) : Prop where
  current_eq : t.current = current
  located : ∀ p ∈ patterns, Located current reference p t
  holds : ∀ p ∈ patterns, placeIn current reference p ≠ placeIn current out p →
    Holds t (placeIn current reference p) (FiledAt patterns current reference (placeIn current reference p))

theorem Filed.referenced (h : Filed patterns current reference patterns t) (hkeeps : t.Keeps u) :
    Referenced patterns current reference out u := by
  refine ⟨hkeeps.current_eq.trans h.current_eq, ?_, ?_⟩
  · intro p hp k
    exact hkeeps.grows.locate (h.located p hp k)
  · intro p hp _ k
    obtain ⟨stages, hstages, hentry⟩ := h.holds p hp k
    exact ⟨stages, hstages, hkeeps.kept _ _ hentry⟩

/-- The run that writes a reference. -/
def referenceRun (reference : Path) (patterns : List String) : Config := ⟨reference, none, false, patterns⟩

/-- What storing a pattern preserves holds after the run. -/
theorem invariant_of_undisturbed {I : List String → FileTree → Prop}
    (hcompile : ∀ p ∈ patterns, ∃ stages, compile p = .ok stages)
    (hstep : ∀ before, ∀ q ∈ patterns, ∀ stages t u, compile q = .ok stages →
      Stored (folderIn reference q) stages t u → I before t → I (before ++ [q]) u) {s : Session}
    (hs : ∀ t, s.tree.Keeps t → I [] t) (h : Undisturbed (referenceRun reference patterns) s) :
    I patterns (runConfig workspace (referenceRun reference patterns) s).2.tree := by
  have hpasses : ∀ before, ∀ q ∈ patterns, ∀ s : Session, I before s.tree →
      Breaks (process workspace (referenceRun reference patterns) q) s ∨
        Passes (referenceRun reference patterns) I (fun _ => "") before q s := by
    intro before q hq s hbefore
    obtain ⟨stages, hstages⟩ := hcompile q hq
    rcases run_store (folderIn reference q) stages s.tree with hbreaks | ⟨u, hstored, hrun⟩
    · exact .inl (breaks_process none patterns hstages (hbreaks s.printed))
    · refine .inr ⟨report q stages true, u, ?_, rfl, rfl, hstep before q hq stages s.tree u hstages hstored hbefore⟩
      rw [referenceRun, process_of_store patterns hstages (hrun s.printed), String.append_empty]
  obtain ⟨reports, u, hrun, -, -, hlast⟩ :=
    runConfig_of_passes (c := referenceRun reference patterns) hpasses hs h
  rw [hrun]
  exact hlast

theorem filed_of_undisturbed {s : Session} (hcompile : ∀ p ∈ patterns, ∃ stages, compile p = .ok stages)
    (h : Undisturbed (referenceRun reference patterns) s) : Filed patterns s.tree.current reference patterns
      (runConfig workspace (referenceRun reference patterns) s).2.tree :=
  invariant_of_undisturbed hcompile (fun _ _ hq _ _ _ hstages hstored hbefore => hbefore.step hq hstages hstored)
    (fun _ hkeeps => filed_nil hkeeps.current_eq) h

/-- The pattern that is done last leaves its tables to all that share its folder. -/
theorem refers_of_undisturbed (before : List String) {p q : String} {s : Session}
    (hcompile : ∀ p ∈ before ++ [q], ∃ stages, compile p = .ok stages) (hp : p ∈ before ++ [q])
    (hq : compile q = .ok stages)
    (hshared : placeIn s.tree.current reference p = placeIn s.tree.current reference q)
    (h : Undisturbed (referenceRun reference (before ++ [q])) s) :
    Refers (runConfig workspace (referenceRun reference (before ++ [q])) s).2.tree (folderIn reference p)
      fun k => k.table stages := by
  have hfiled := filed_of_undisturbed hcompile h
  have hlatest : Latest s.tree.current reference (before ++ [q])
      (runConfig workspace (referenceRun reference (before ++ [q])) s).2.tree :=
    invariant_of_undisturbed hcompile (fun _ _ _ _ _ _ hstages hstored hbefore => hbefore.step hstages hstored)
      (fun _ hkeeps => ⟨hkeeps.current_eq, by simp⟩) h
  apply (hfiled.located p hp).refers hfiled.current_eq fun _ => stages
  intro k
  obtain ⟨_, rfl, hentry⟩ := hlatest.holds q (by simp) stages hq k
  rw [hshared]
  exact ⟨⟨q, hq⟩, hentry⟩

/-- The run over the same patterns that is compared with a reference. -/
def comparedRun (reference out : Path) (patterns : List String) : Config := ⟨out, some reference, false, patterns⟩

/-- The lines for a pattern that passes both checks. -/
def passLines (pattern : String) : String := verdict "NFA" true pattern ++ verdict "DFA" true pattern

/-- If the first pattern of a list finds tables in its reference that are not equivalent to its own, the run fails. -/
theorem ne_success_of_refers {pattern : String} {rest : List String} {references : Check → Table} {s : Session}
    (hcompile : compile pattern = .ok stages) (hrefers : Refers s.tree (folderIn reference pattern) references)
    (hapart : placeIn s.tree.current reference pattern ≠ placeIn s.tree.current out pattern) {k : Check}
    (hdiffer : (k.table stages).equivalent (references k) = false) :
    (runConfig workspace (comparedRun reference out (pattern :: rest)) s).1 ≠ .success := by
  intro hsuccess
  obtain ⟨r, t, hadds, hcreate⟩ := onlyAdds_createDirs out s.tree
  have hpassed := passed_of_success hsuccess
  rw [show workspace.createDirs (comparedRun reference out (pattern :: rest)).out s = (r, ⟨t, s.printed⟩) from
    hcreate s.printed] at hpassed
  obtain ⟨report', hreport, hpassed⟩ := hpassed _ List.mem_cons_self
  rcases run_store (folderIn out pattern) stages t with hbreaks | ⟨u, hstored, hrun⟩
  · obtain ⟨f, s', hprocess, -⟩ := breaks_process (some reference) (pattern :: rest) hcompile (hbreaks s.printed)
    cases (congrArg Prod.fst hprocess).symm.trans hreport
  · rw [placeIn, placeIn, ← hadds.current_eq] at hapart
    have hprocess := process_of_refers (pattern :: rest) hcompile (hrun s.printed)
      ((hrefers.of_keeps hadds.keeps).of_stored hstored hapart)
    obtain rfl := Except.ok.inj ((congrArg Prod.fst hprocess).symm.trans hreport)
    have hequivalent := agrees_iff.mp hpassed k
    rw [hdiffer] at hequivalent
    cases hequivalent

section Neighbours

variable {l : Location} {a b : Name} (hreference : reference.target current = l ++ [a])
  (hout : out.target current = l ++ [b]) (hne : a ≠ b)
include hreference hout hne

theorem Referenced.step {q : String} (h : Referenced patterns current reference out t) (hq : q ∈ patterns)
    (hcompile : compile q = .ok stages) (hstored : Stored (folderIn out q) stages t u) :
    Referenced patterns current reference out u := by
  refine ⟨hstored.grows.current_eq.trans h.current_eq, ?_, ?_⟩
  · intro p hp k
    exact hstored.grows.locate (h.located p hp k)
  · intro p hp hdiffer
    apply hstored.holds_of_holds (h.holds p hp hdiffer)
    rw [h.current_eq]
    intro hplace
    refine ⟨q, hq, hcompile, ?_⟩
    -- Names lead out of both directories or of none, so what is written there now was written there before.
    rcases Path.target_join_neighbours hreference hout (.ofString (folderName q)) with hsame | ⟨below, -, hbelow⟩
    · exact hsame.trans hplace.symm
    · rcases Path.target_join_neighbours hreference hout (.ofString (folderName p)) with hsame | ⟨below', hbelow', -⟩
      · exact absurd hsame hdiffer
      · have hcross : l ++ a :: below' = l ++ b :: below := (hbelow'.symm.trans hplace).trans hbelow
        exact absurd (List.cons.inj (List.append_cancel_left hcross)).1 hne

/-- Right after a pattern was stored in the second run, its reference holds its own tables, or those of a pattern that
shares its folder. -/
theorem Referenced.exists_refers {q : String} (h : Referenced patterns current reference out t) (hq : q ∈ patterns)
    (hcompile : compile q = .ok stages) (hstored : Stored (folderIn out q) stages t u) :
    ∃ found : Check → Stages, Refers u (folderIn reference q) (fun k => k.table (found k)) ∧
      ∀ k, found k = stages ∨ placeIn current reference q ≠ placeIn current out q ∧
        FiledAt patterns current reference (placeIn current reference q) (found k) := by
  have hnext := h.step hreference hout hne hq hcompile hstored
  have hholds : Holds u (placeIn current reference q) fun stages' =>
      stages' = stages ∨ placeIn current reference q ≠ placeIn current out q ∧
        FiledAt patterns current reference (placeIn current reference q) stages' := by
    by_cases hsame : placeIn current reference q = placeIn current out q
    · have hself := hstored.holds (P := fun stages' => stages' = stages) rfl
      rw [h.current_eq] at hself
      rw [hsame]
      exact hself.mono fun _ => .inl
    · exact (hnext.holds q hq hsame).mono fun _ hfiled => .inr ⟨hsame, hfiled⟩
  choose found hfound using hholds
  refine ⟨found, (hnext.located q hq).refers hnext.current_eq found ?_, fun k => (hfound k).1⟩
  intro k
  obtain ⟨hfrom, hentry⟩ := hfound k
  refine ⟨?_, hentry⟩
  rcases hfrom with hself | ⟨-, p, -, hcompile', -⟩
  · exact ⟨q, hself ▸ hcompile⟩
  · exact ⟨p, hcompile'⟩

variable (hcompile : ∀ p ∈ patterns, ∃ stages, compile p = .ok stages)
include hcompile

/-- Comparing meets no error of the file system where storing meets none. -/
theorem quiet_of_stores {rest : List String} (hrest : ∀ p ∈ rest, p ∈ patterns) {x y : String}
    (h : Referenced patterns current reference out t)
    (hquiet : Quiet (results workspace (referenceRun out patterns) rest ⟨t, x⟩).1) :
    Quiet (results workspace (comparedRun reference out patterns) rest ⟨t, y⟩).1 := by
  induction rest generalizing t x y with
  | nil => exact fun r hr => absurd hr List.not_mem_nil
  | cons q rest ih =>
    obtain ⟨hq, hrest⟩ := List.forall_mem_cons.mp hrest
    obtain ⟨stages, hstages⟩ := hcompile q hq
    rcases run_store (folderIn out q) stages t with hbreaks | ⟨u, hstored, hrun⟩
    · exact absurd hquiet (not_quiet_of_breaks (breaks_process none patterns hstages (hbreaks x)) rest)
    · obtain ⟨found, hrefers, -⟩ := h.exists_refers hreference hout hne hq hstages hstored
      rw [results_cons, referenceRun, process_of_store patterns hstages (hrun x)] at hquiet
      rw [results_cons, comparedRun, process_of_refers patterns hstages (hrun y) hrefers]
      have hnext := h.step hreference hout hne hq hstages hstored
      refine List.forall_mem_cons.mpr ⟨by simp, ?_⟩
      exact ih hrest hnext fun r hr => hquiet r (List.mem_cons_of_mem _ hr)

theorem undisturbed_comparedRun {s : Session} (h : Filed patterns current reference patterns s.tree)
    (hstores : Undisturbed (referenceRun out patterns) s) : Undisturbed (comparedRun reference out patterns) s := by
  obtain ⟨t, hkeeps, hcreate⟩ := hstores.createDirs_eq
  have hcreated : workspace.createDirs out s = (.ok (), ⟨t, s.printed⟩) := hcreate s.printed
  refine ⟨hstores.created, ?_⟩
  have hprocessed := hstores.processed
  show Quiet (results workspace (comparedRun reference out patterns) patterns (workspace.createDirs out s).2).1
  rw [hcreated]
  rw [show workspace.createDirs (referenceRun out patterns).out s = _ from hcreated] at hprocessed
  exact quiet_of_stores hreference hout hne hcompile (fun _ => id) (h.referenced hkeeps) hprocessed

variable (hfolders : ∀ p ∈ patterns, ∀ q ∈ patterns, placeIn current reference p = placeIn current reference q →
  placeIn current reference p ≠ placeIn current out p → Interchangeable p q)
include hfolders

theorem passes_comparedRun (before : List String) (q : String) (hq : q ∈ patterns) (s : Session)
    (h : Referenced patterns current reference out s.tree) :
    Breaks (process workspace (comparedRun reference out patterns) q) s ∨
      Passes (comparedRun reference out patterns) (fun _ => Referenced patterns current reference out) passLines
        before q s := by
  obtain ⟨stages, hstages⟩ := hcompile q hq
  rcases run_store (folderIn out q) stages s.tree with hbreaks | ⟨u, hstored, hrun⟩
  · exact .inl (breaks_process (some reference) patterns hstages (hbreaks s.printed))
  · obtain ⟨found, hrefers, hfound⟩ := h.exists_refers hreference hout hne hq hstages hstored
    have hequivalent : ∀ k : Check, (k.table stages).equivalent (k.table (found k)) = true := by
      intro k
      rcases hfound k with hself | ⟨hdiffer, p, hp, hcompile', hplace⟩
      · rw [hself]
        exact Table.equivalent_iff.mpr rfl
      · exact hfolders q hq p hp hplace.symm hdiffer stages (found k) hstages hcompile' k
    have hprocess := process_of_refers patterns hstages (hrun s.printed) hrefers
    have hnfa : stages.nfa.table.equivalent (found .nfa).nfa.table = true := hequivalent .nfa
    have hminimal : stages.minimal.dfa.table.equivalent (found .minimal).minimal.dfa.table = true :=
      hequivalent .minimal
    refine .inr ⟨report q stages (agrees stages fun k => k.table (found k)), u, ?_, rfl, agrees_iff.mpr hequivalent,
      h.step hreference hout hne hq hstages hstored⟩
    rw [comparedRun, hprocess, verdicts, passLines]
    simp only [Check.table, hnfa, hminimal]

end Neighbours

end Runs

/-- A run that is compared with the output of an earlier one over the same patterns makes both checks for each of
them, passes and ends well. -/
def PassesAgain (patterns : List String) (reference out : Path) (s : Session) : Prop :=
  ∃ (reports : List Report) (u : FileTree),
    runConfig workspace (comparedRun reference out patterns)
        (runConfig workspace (referenceRun reference patterns) s).2 =
      (.success, ⟨u, (runConfig workspace (referenceRun reference patterns) s).2.printed ++
        String.join (patterns.map passLines) ++ Report.header ++ String.join (reports.map Report.line)⟩) ∧
    reports.map (·.pattern) = patterns ∧ ∀ r ∈ reports, r.passed = true

/-- A run passes again if the two output directories are neighbours and patterns that share a folder of the reference, one
that the second run cannot write itself, have equivalent tables. -/
theorem rerun_passes {patterns : List String} {reference out : Path} {l : Location} {a b : Name} {s : Session}
    (hcompile : ∀ p ∈ patterns, ∃ stages, compile p = .ok stages)
    (hreference : reference.target s.tree.current = l ++ [a]) (hout : out.target s.tree.current = l ++ [b])
    (hne : a ≠ b)
    (hfolders : ∀ p ∈ patterns, ∀ q ∈ patterns,
      placeIn s.tree.current reference p = placeIn s.tree.current reference q →
        placeIn s.tree.current reference p ≠ placeIn s.tree.current out p → Interchangeable p q)
    (hfirst : Undisturbed (referenceRun reference patterns) s)
    (hsecond : Undisturbed (comparedRun reference out patterns)
      (runConfig workspace (referenceRun reference patterns) s).2) :
    PassesAgain patterns reference out s := by
  have hfiled := filed_of_undisturbed hcompile hfirst
  obtain ⟨reports, u, hrun, hnames, hall, -⟩ :=
    runConfig_of_passes (c := comparedRun reference out patterns)
      (I := fun _ => Referenced patterns s.tree.current reference out)
      (passes_comparedRun hreference hout hne hcompile hfolders) (fun _ hkeeps => hfiled.referenced hkeeps) hsecond
  exact ⟨reports, u, hrun, hnames, hall⟩

/-- Two patterns with folders of their own: both pass. -/
theorem rerun_passes_of_own_folders : PassesAgain ["a*", "b"] (.ofString "R") (.ofString "S") .blank := by
  have hcompile : ∀ p ∈ ["a*", "b"], ∃ stages, compile p = .ok stages := by
    have hisOk : ∀ p ∈ ["a*", "b"], (Nfa.ofPattern? p).isOk = true := by decide +kernel
    intro p hp
    obtain ⟨n, -, hcompile⟩ := exists_compile_of_isOk p (hisOk p hp)
    exact ⟨_, hcompile⟩
  have hfolders : ∀ p ∈ ["a*", "b"], ∀ q ∈ ["a*", "b"],
      placeIn [] (.ofString "R") p = placeIn [] (.ofString "R") q → p = q := by decide +kernel
  have hfirst : Undisturbed (referenceRun (.ofString "R") ["a*", "b"]) .blank := by decide +kernel
  have hstores : Undisturbed (referenceRun (.ofString "S") ["a*", "b"])
      (runConfig workspace (referenceRun (.ofString "R") ["a*", "b"]) .blank).2 := by decide +kernel
  have hsecond := undisturbed_comparedRun (l := []) (a := ['R']) (b := ['S']) rfl rfl (by decide) hcompile
    (filed_of_undisturbed hcompile hfirst) hstores
  apply rerun_passes (l := []) (a := ['R']) (b := ['S']) hcompile rfl rfl (by decide) ?_ hfirst hsecond
  intro p hp q hq hplace _
  obtain rfl := hfolders p hp q hq hplace
  exact .refl p

/-- Two patterns that share a folder: the first is compared with the tables of the second. -/
theorem rerun_fails_of_shared_folder :
    (∀ p ∈ ["a*", "a?"], ∃ stages, compile p = .ok stages) ∧
    (Path.ofString "R").target [] = [['R']] ∧ (Path.ofString "S").target [] = [['S']] ∧
    Undisturbed (referenceRun (.ofString "R") ["a*", "a?"]) .blank ∧
    Undisturbed (comparedRun (.ofString "R") (.ofString "S") ["a*", "a?"])
      (runConfig workspace (referenceRun (.ofString "R") ["a*", "a?"]) .blank).2 ∧
    (runConfig workspace (comparedRun (.ofString "R") (.ofString "S") ["a*", "a?"])
      (runConfig workspace (referenceRun (.ofString "R") ["a*", "a?"]) .blank).2).1 ≠ .success := by
  obtain ⟨n, hn, hp⟩ := exists_compile_of_isOk "a*" (by decide +kernel)
  obtain ⟨n', hn', hq⟩ := exists_compile_of_isOk "a?" (by decide +kernel)
  have hcompile : ∀ p ∈ ["a*", "a?"], ∃ stages, compile p = .ok stages :=
    List.forall_mem_cons.mpr ⟨⟨_, hp⟩, List.forall_mem_singleton.mpr ⟨_, hq⟩⟩
  have hdiffer : n.table.equivalent n'.table = false := by
    have hpair : (do
        let n ← Nfa.ofPattern? "a*"
        let n' ← Nfa.ofPattern? "a?"
        pure (n.table.equivalent n'.table)).toOption = some false := by decide +kernel
    rw [hn, hn'] at hpair
    exact Option.some.inj hpair
  have hfirst : Undisturbed (referenceRun (.ofString "R") ["a*", "a?"]) .blank := by decide +kernel
  have hstores : Undisturbed (referenceRun (.ofString "S") ["a*", "a?"])
      (runConfig workspace (referenceRun (.ofString "R") ["a*", "a?"]) .blank).2 := by decide +kernel
  have hsecond := undisturbed_comparedRun (l := []) (a := ['R']) (b := ['S']) rfl rfl (by decide) hcompile
    (filed_of_undisturbed hcompile hfirst) hstores
  have hrefers := refers_of_undisturbed ["a*"] hcompile List.mem_cons_self hq (by decide +kernel) hfirst
  refine ⟨hcompile, rfl, rfl, hfirst, hsecond, ?_⟩
  exact ne_success_of_refers hp hrefers (by decide +kernel) (k := .nfa) hdiffer

end Batch

end PatternAutomata
