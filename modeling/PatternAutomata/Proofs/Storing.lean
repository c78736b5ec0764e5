import PatternAutomata.Proofs.Batch
import PatternAutomata.Proofs.Table.Stored

namespace PatternAutomata

namespace Batch

open Session

inductive Check
  | nfa
  | minimal

namespace Check

def name : Check → String
  | nfa => "nfa"
  | minimal => "minimized_dfa"

def table (stages : Stages) : Check → Table
  | nfa => stages.nfa.table
  | minimal => stages.minimal.dfa.table

def fileName (k : Check) : Name := (k.name ++ ".json").toList

def file (k : Check) (dir : Path) : Path := dir.join (.ofString (k.name ++ ".json"))

theorem storable_table {pattern : String} {stages : Stages} (h : compile pattern = .ok stages) (k : Check) :
    (k.table stages).Storable := by
  cases k with
  | nfa => exact stages.nfa.storable_table
  | minimal => exact Stages.storable_minimal h

end Check

/-- A plain name leads to the entry of that name. -/
theorem target_join_plain {name : String} (current : Location) (dir : Path)
    (hname : (Path.ofString name).isAbsolute = false ∧ (Path.ofString name).names = [name.toList] ∧
      name.toList ≠ Path.here ∧ name.toList ≠ Path.up) :
    (dir.join (.ofString name)).target current = dir.target current ++ [name.toList] := by
  obtain ⟨hrelative, hnames, hhere, hup⟩ := hname
  rw [Path.target_join current hrelative, hnames]
  show Path.advance (dir.target current) name.toList = _
  rw [Path.advance, if_neg hhere, if_neg hup]

variable {dir : Path} {stages : Stages} {current : Location} {t u : FileTree}

theorem target_file (k : Check) (dir : Path) (current : Location) :
    (k.file dir).target current = dir.target current ++ [k.fileName] := by
  cases k <;> exact target_join_plain current dir (by decide)

theorem mem_stagesFiles (k : Check) (dir : Path) (stages : Stages) :
    (k.file dir, (k.table stages).toJson) ∈ stagesFiles dir stages := by
  cases k <;> simp [Check.file, Check.table, Check.name, stagesFiles, tableFiles]

/-- Of the files of a pattern, only the record of a checked table has its name. -/
theorem exists_target_eq {f : Path × String} (hf : f ∈ stagesFiles dir stages) (current : Location) :
    ∃ name, f.1.target current = dir.target current ++ [name] ∧
      ∀ k : Check, name = k.fileName → f.2 = (k.table stages).toJson := by
  simp only [stagesFiles, tableFiles, List.mem_append, List.mem_cons, List.not_mem_nil, or_false] at hf
  rcases hf with (rfl | rfl) | (rfl | rfl) | rfl | rfl <;>
    refine ⟨_, target_join_plain current dir (by decide), fun k hk => ?_⟩ <;> cases k <;>
    first
      | exact absurd hk (by decide)
      | rfl

/-- `u` is `t` after the tables of a pattern were stored in a directory. -/
structure Stored (dir : Path) (stages : Stages) (t u : FileTree) : Prop where
  changes : t.Changes (fun _ => True) (fun l => ∃ name, l = dir.target t.current ++ [name]) u
  located : ∀ k : Check, u.locate (k.file dir) = .ok (dir.target t.current ++ [k.fileName])
  stored : ∀ k : Check, u.entry? (dir.target t.current ++ [k.fileName]) = some (.file (k.table stages).toJson)

theorem stored_of_writeAll {t' : FileTree} (hadds : t.Changes (fun _ => True) (fun _ => False) t')
    (h : t'.writeAll (stagesFiles dir stages) = .ok u) : Stored dir stages t u := by
  refine ⟨(hadds.mono (fun _ => id) (by simp)).trans ((FileTree.changes_of_writeAll h).mono (fun _ => id) ?_), ?_, ?_⟩
  · rintro _ ⟨f, hf, rfl⟩
    obtain ⟨name, hname, -⟩ := exists_target_eq hf t'.current
    rw [hname, hadds.current_eq]
    exact ⟨name, rfl⟩
  · intro k
    rw [← hadds.current_eq, ← target_file]
    exact FileTree.locate_of_writeAll h (mem_stagesFiles k dir stages)
  · intro k
    rw [← hadds.current_eq]
    rcases FileTree.entry?_of_writeAll h (dir.target t'.current ++ [k.fileName]) with
      ⟨f, hf, htarget, hu⟩ | ⟨hnone, -⟩
    · obtain ⟨name, hname, hrecord⟩ := exists_target_eq hf t'.current
      rw [hname] at htarget
      have hfile : name = k.fileName := List.head_eq_of_cons_eq (List.append_cancel_left htarget)
      rw [hu, hrecord k hfile]
    · exact absurd (target_file k dir _) (hnone _ (mem_stagesFiles k dir stages))

namespace Stored

theorem grows (h : Stored dir stages t u) : t.Grows u := h.changes.grows

/-- No file is written in another directory. -/
theorem not_written {l : Location} (hl : l ≠ dir.target t.current) (name : Name) :
    ¬ ∃ name', l ++ [name] = dir.target t.current ++ [name'] := by
  rintro ⟨name', hname⟩
  exact hl (List.append_inj' hname rfl).1

theorem others (h : Stored dir stages t u) (k : Check) (l : Location) (content : String)
    (hl : l ≠ dir.target t.current) (hold : t.entry? (l ++ [k.fileName]) = some (.file content)) :
    u.entry? (l ++ [k.fileName]) = some (.file content) := h.changes.kept (not_written hl _) hold

end Stored

theorem writes_tables (dir : Path) (stages : Stages) : Writes (do
    writeTable workspace dir "nfa" stages.nfa.table
    writeTable workspace dir "dfa" stages.dfa.table
    writeTable workspace dir "minimized_dfa" stages.minimal.dfa.table) (stagesFiles dir stages) :=
  (writes_writeTable dir "nfa" stages.nfa.table).seq
    ((writes_writeTable dir "dfa" stages.dfa.table).seq
      (writes_writeTable dir "minimized_dfa" stages.minimal.dfa.table))

/-- Whether the tables of a pattern can be stored depends on the tree alone. -/
theorem run_store (dir : Path) (stages : Stages) (t : FileTree) :
    (∀ printed, Breaks (store workspace dir stages) ⟨t, printed⟩) ∨ ∃ u, Stored dir stages t u ∧
      ∀ printed, (store workspace dir stages).run ⟨t, printed⟩ = (.ok (), ⟨u, printed⟩) := by
  obtain ⟨r, t', hadds, hcreate⟩ := onlyAdds_createDirs dir t
  have hattempt : ∀ printed, (attempt (.creating dir) (workspace.createDirs dir)).run ⟨t, printed⟩ =
      (r.mapError (.creating dir), ⟨t', printed⟩) := by
    intro printed
    rw [run_attempt, hcreate]
  cases r with
  | error e => exact .inl fun printed => Breaks.bind ⟨.creating dir e, ⟨t', printed⟩, hattempt printed, rfl⟩
  | ok _ =>
    -- Once the directory is there, the files are written in order or one of them stops the rest.
    cases hfiles : t'.writeAll (stagesFiles dir stages) with
    | error e =>
      refine .inl fun printed => .bind_ok (hattempt printed) ?_
      rcases writes_tables dir stages ⟨t', printed⟩ with ⟨u, hu, -⟩ | ⟨-, hbreaks⟩
      · cases hfiles.symm.trans hu
      · exact hbreaks
    | ok u =>
      refine .inr ⟨u, stored_of_writeAll hadds hfiles, ?_⟩
      intro printed
      rw [store, run_bind_ok (hattempt printed)]
      rcases writes_tables dir stages ⟨t', printed⟩ with ⟨v, hv, hrun⟩ | ⟨⟨e, he⟩, -⟩
      · obtain rfl := Except.ok.inj (hfiles.symm.trans hv)
        exact hrun
      · cases hfiles.symm.trans he

def Refers (t : FileTree) (dir : Path) (references : Check → Table) : Prop :=
  ∀ k : Check, (references k).Storable ∧ t.locate (k.file dir) = .ok (dir.target t.current ++ [k.fileName]) ∧
    t.entry? (dir.target t.current ++ [k.fileName]) = some (.file (references k).toJson)

namespace Refers

variable {references : Check → Table} {dir' : Path}

theorem of_keeps (h : Refers t dir' references) (hkeeps : t.Keeps u) : Refers u dir' references := by
  intro k
  obtain ⟨hstorable, hlocate, hentry⟩ := h k
  rw [hkeeps.current_eq]
  exact ⟨hstorable, hkeeps.grows.locate hlocate, hkeeps.kept _ _ hentry⟩

/-- Storing elsewhere does not change them. -/
theorem of_stored (h : Refers t dir' references) (hstored : Stored dir stages t u)
    (hapart : dir'.target t.current ≠ dir.target t.current) : Refers u dir' references := by
  intro k
  obtain ⟨hstorable, hlocate, hentry⟩ := h k
  rw [hstored.grows.current_eq]
  exact ⟨hstorable, hstored.grows.locate hlocate, hstored.others k _ _ hapart hentry⟩

end Refers

def verdicts (pattern : String) (stages : Stages) (references : Check → Table) : String :=
  verdict "NFA" (stages.nfa.table.equivalent (references .nfa)) pattern ++
    verdict "DFA" (stages.minimal.dfa.table.equivalent (references .minimal)) pattern

def agrees (stages : Stages) (references : Check → Table) : Bool :=
  stages.nfa.table.equivalent (references .nfa) && stages.minimal.dfa.table.equivalent (references .minimal)

theorem agrees_iff {references : Check → Table} :
    agrees stages references = true ↔ ∀ k : Check, (k.table stages).equivalent (references k) = true := by
  rw [agrees, Bool.and_eq_true]
  constructor
  · rintro ⟨hnfa, hminimal⟩ (_ | _)
    · exact hnfa
    · exact hminimal
  · exact fun h => ⟨h .nfa, h .minimal⟩

theorem run_compareTables {expected : Path} {pattern : String} {references : Check → Table} {s : Session}
    (h : Refers s.tree (expected.join (.ofString (folderName pattern))) references) (stages : Stages) :
    (compareTables workspace (some expected) pattern stages).run s =
      (.ok (agrees stages references), ⟨s.tree, s.printed ++ verdicts pattern stages references⟩) := by
  obtain ⟨hstorable, hlocate, hentry⟩ := h .nfa
  obtain ⟨hstorable', hlocate', hentry'⟩ := h .minimal
  have hfirst := run_checkAgainst_stored hlocate hentry hstorable "NFA" stages.nfa.table pattern
  let s' : Session := ⟨s.tree, s.printed ++ verdict "NFA" (stages.nfa.table.equivalent (references .nfa)) pattern⟩
  have hsecond := run_checkAgainst_stored (s := s') hlocate' hentry' hstorable' "DFA" stages.minimal.dfa.table pattern
  refine (run_bind_ok hfirst).trans ((run_bind_ok hsecond).trans ?_)
  exact congrArg (fun printed => (_, (⟨s.tree, printed⟩ : Session))) (String.append_assoc ..)

def folderIn (out : Path) (pattern : String) : Path := out.join (.ofString (folderName pattern))

/-- Where the folder of a pattern lies. -/
def placeIn (current : Location) (out : Path) (pattern : String) : Location := (folderIn out pattern).target current

section Process

variable {out : Path} {pattern : String} {s : Session}

theorem breaks_process (expected : Option Path) (patterns : List String) (hcompile : compile pattern = .ok stages)
    (hstore : Breaks (store workspace (folderIn out pattern) stages) s) :
    Breaks (process workspace ⟨out, expected, false, patterns⟩ pattern) s := by
  rw [process_eq workspace rfl hcompile]
  exact hstore.bind

theorem process_of_store (patterns : List String) (hcompile : compile pattern = .ok stages)
    (hstore : (store workspace (folderIn out pattern) stages).run s = (.ok (), ⟨u, s.printed⟩)) :
    (process workspace ⟨out, none, false, patterns⟩ pattern).run s =
      (.ok (report pattern stages true), ⟨u, s.printed⟩) := by
  rw [process_eq workspace rfl hcompile]
  exact run_bind_ok hstore

theorem process_of_refers {expected : Path} {references : Check → Table} (patterns : List String)
    (hcompile : compile pattern = .ok stages)
    (hstore : (store workspace (folderIn out pattern) stages).run s = (.ok (), ⟨u, s.printed⟩))
    (hrefers : Refers u (folderIn expected pattern) references) :
    (process workspace ⟨out, some expected, false, patterns⟩ pattern).run s =
      (.ok (report pattern stages (agrees stages references)),
        ⟨u, s.printed ++ verdicts pattern stages references⟩) := by
  rw [process_eq workspace rfl hcompile]
  exact (run_bind_ok hstore).trans (run_bind_ok (run_compareTables (s := ⟨u, s.printed⟩) hrefers stages))

end Process

end Batch

end PatternAutomata
