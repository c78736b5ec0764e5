import PatternAutomata.Proofs.Rerun

namespace PatternAutomata

namespace Batch

open Session

variable {t u : FileTree} {file : Path} {table : Table} {b : Bool}

/-- The file is missing, or holds the record of an equivalent table. -/
def Meets (t : FileTree) (file : Path) (table : Table) : Prop :=
  t.isPresent file = false ∨ ∃ text reference, t.read file = .ok text ∧ Table.ofJson? text = .ok reference ∧
    table.equivalent reference = true

inductive Checked (t : FileTree) (file : Path) (table : Table) : Bool → Prop
  | missing (hmissing : t.isPresent file = false) : Checked t file table true
  | compared {text : String} {reference : Table} (hread : t.read file = .ok text)
      (hrecord : Table.ofJson? text = .ok reference) : Checked t file table (table.equivalent reference)

theorem meets_iff_of_read {text : String} {reference : Table} (hread : t.read file = .ok text)
    (hrecord : Table.ofJson? text = .ok reference) : Meets t file table ↔ table.equivalent reference = true := by
  constructor
  · rintro (hmissing | ⟨text', reference', hread', hrecord', hequivalent⟩)
    · cases hmissing.symm.trans (FileTree.read_eq_ok_iff.mp hread).1
    · obtain rfl := Except.ok.inj (hread.symm.trans hread')
      obtain rfl := Except.ok.inj (hrecord.symm.trans hrecord')
      exact hequivalent
  · exact fun hequivalent => .inr ⟨text, reference, hread, hrecord, hequivalent⟩

theorem Checked.iff_meets (h : Checked t file table b) : b = true ↔ Meets t file table := by
  cases h with
  | missing hmissing => exact iff_of_true rfl (.inl hmissing)
  | compared hread hrecord => exact (meets_iff_of_read hread hrecord).symm

theorem checked_of_checkAgainst {dir : Path} {label name pattern : String} {s s' : Session}
    (h : (checkAgainst workspace dir label name table pattern).run s = (.ok b, s')) :
    s'.tree = s.tree ∧ Checked s.tree (dir.join (.ofString (name ++ ".json"))) table b := by
  rw [run_checkAgainst] at h
  dsimp only at h
  split at h
  · split at h
    · cases h
    · next text hread =>
      split at h
      · cases h
      · next reference hrecord =>
        cases h
        exact ⟨rfl, .compared hread hrecord⟩
  · next hmissing =>
    cases h
    exact ⟨rfl, .missing (by simpa using hmissing)⟩

variable {pattern : String} {stages : Stages} {s s' : Session}

/-- Comparing leaves the tree as it is, makes every check, and comes to whether the tables meet their references. -/
theorem checked_of_compareTables {expected : Path}
    (h : (compareTables workspace (some expected) pattern stages).run s = (.ok b, s')) : s'.tree = s.tree ∧
      (b = true ↔ ∀ k : Check, Meets s.tree (k.file (folderIn expected pattern)) (k.table stages)) ∧
      ∀ k : Check, ∃ found, Checked s.tree (k.file (folderIn expected pattern)) (k.table stages) found := by
  obtain ⟨first, s₁, hfirst, h⟩ := exists_of_run_bind h
  obtain ⟨second, s₂, hsecond, h⟩ := exists_of_run_bind h
  obtain ⟨htree, hnfa⟩ := checked_of_checkAgainst hfirst
  obtain ⟨htree', hminimal⟩ := checked_of_checkAgainst hsecond
  rw [htree] at htree' hminimal
  cases h
  refine ⟨htree', ?_, ?_⟩
  · rw [Bool.and_eq_true, hnfa.iff_meets, hminimal.iff_meets]
    constructor
    · rintro ⟨hfirst, hsecond⟩ (_ | _)
      · exact hfirst
      · exact hsecond
    · exact fun hall => ⟨hall .nfa, hall .minimal⟩
  · rintro (_ | _)
    · exact ⟨first, hnfa⟩
    · exact ⟨second, hminimal⟩

section Apart

variable {dir dir' : Path} {k : Check}

/-- Every reference that stands at its place can be found there. -/
def Reachable (t : FileTree) (dir : Path) : Prop :=
  ∀ (k : Check) (content : String), t.entry? (dir.target t.current ++ [k.fileName]) = some (.file content) →
    t.isPresent (k.file dir) = true

/-- Where tables were stored elsewhere, a check comes to what it would have come to before. -/
theorem Stored.meets_iff (h : Stored dir stages t u) (hapart : dir'.target t.current ≠ dir.target t.current)
    (hreachable : Reachable t dir') (hchecked : Checked u (k.file dir') table b) :
    Meets u (k.file dir') table ↔ Meets t (k.file dir') table := by
  have htarget : (k.file dir').target t.current = dir'.target t.current ++ [k.fileName] := target_file k dir' _
  have htarget' : (k.file dir').target u.current = dir'.target t.current ++ [k.fileName] := by
    rw [h.grows.current_eq, htarget]
  cases hchecked with
  | missing hmissing =>
    have hmissing' : t.isPresent (k.file dir') = false := by
      rw [← Bool.not_eq_true]
      intro hpresent
      cases hmissing.symm.trans (h.grows.isPresent hpresent)
    exact iff_of_true (.inl hmissing) (.inl hmissing')
  | @compared text reference hread hrecord =>
    obtain ⟨hpresent, hentry⟩ := FileTree.read_eq_ok_iff.mp hread
    rw [htarget'] at hentry
    -- What is a file now was one before, and has not been written since.
    have hentry' : t.entry? (dir'.target t.current ++ [k.fileName]) = some (.file text) := by
      rcases h.changes.entry (dir'.target t.current ++ [k.fileName]) with hsame | ⟨-, -, hdirectory⟩ | ⟨hwritten, -⟩
      · rw [← hsame, hentry]
      · cases hentry.symm.trans hdirectory
      · exact absurd hwritten (Stored.not_written hapart _)
    have hread' : t.read (k.file dir') = .ok text :=
      FileTree.read_eq_ok_iff.mpr ⟨hreachable k text hentry', htarget ▸ hentry'⟩
    rw [meets_iff_of_read hread hrecord, meets_iff_of_read hread' hrecord]

/-- Where tables were stored in that directory, they meet themselves. -/
theorem Stored.meets (h : Stored dir stages t u) (hsame : dir'.target t.current = dir.target t.current)
    (hcompile : compile pattern = .ok stages) (k : Check) : Meets u (k.file dir') (k.table stages) := by
  cases hpresent : u.isPresent (k.file dir') with
  | false => exact .inl hpresent
  | true =>
    have hentry : u.entry? ((k.file dir').target u.current) = some (.file (k.table stages).toJson) := by
      rw [target_file, h.grows.current_eq, hsame]
      exact h.stored k
    refine .inr ⟨_, _, FileTree.read_eq_ok_iff.mpr ⟨hpresent, hentry⟩, (k.storable_table hcompile).ofJson?_toJson, ?_⟩
    exact Table.equivalent_iff.mpr rfl

end Apart

/-- A pattern that is reported was stored, and then compared with the references. -/
theorem exists_stored_of_process {c : Config} {r : Report} (hverify : c.verify = false)
    (hcompile : compile pattern = .ok stages) (h : (process workspace c pattern).run s = (.ok r, s')) :
    ∃ u passed, Stored (folderIn c.out pattern) stages s.tree u ∧
      (compareTables workspace c.expected pattern stages).run ⟨u, s.printed⟩ = (.ok passed, s') ∧
      r = report pattern stages passed := by
  rw [process_eq workspace hverify hcompile] at h
  obtain ⟨_, s₁, hstore, h⟩ := exists_of_run_bind h
  obtain ⟨passed, s₂, hcompare, h⟩ := exists_of_run_bind h
  cases h
  rcases run_store (folderIn c.out pattern) stages s.tree with hbreaks | ⟨u, hstored, hrun⟩
  · obtain ⟨f, s', hfails, -⟩ := hbreaks s.printed
    cases hfails.symm.trans hstore
  · cases (hrun s.printed).symm.trans hstore
    exact ⟨u, passed, hstored, hcompare, rfl⟩

variable {c : Config} {expected : Path} {r : Report}

theorem checked_of_process (hexpected : c.expected = some expected) (hverify : c.verify = false)
    (hcompile : compile pattern = .ok stages) (h : (process workspace c pattern).run s = (.ok r, s')) :
    Stored (folderIn c.out pattern) stages s.tree s'.tree ∧
      (r.passed = true ↔ ∀ k : Check, Meets s'.tree (k.file (folderIn expected pattern)) (k.table stages)) ∧
      ∀ k : Check, ∃ found, Checked s'.tree (k.file (folderIn expected pattern)) (k.table stages) found := by
  obtain ⟨u, passed, hstored, hcompare, rfl⟩ := exists_stored_of_process hverify hcompile h
  rw [hexpected] at hcompare
  obtain ⟨htree, hpassed, hchecked⟩ := checked_of_compareTables hcompare
  rw [htree]
  exact ⟨hstored, hpassed, hchecked⟩

/-- A reported pattern passes if its tables meet the references as they are after the tables were stored. If the
references are where the tables are stored, it passes whatever was there; if they are elsewhere and can be found there,
it passes if the tables meet the references that were there before. -/
structure Judges (out expected : Path) (pattern : String) (stages : Stages) (t u : FileTree) (r : Report) : Prop where
  passed_iff : r.passed = true ↔ ∀ k : Check, Meets u (k.file (folderIn expected pattern)) (k.table stages)
  passed_of_own : placeIn t.current expected pattern = placeIn t.current out pattern → r.passed = true
  passed_iff_before : placeIn t.current expected pattern ≠ placeIn t.current out pattern →
    Reachable t (folderIn expected pattern) →
      (r.passed = true ↔ ∀ k : Check, Meets t (k.file (folderIn expected pattern)) (k.table stages))

theorem passed_iff_meets (hexpected : c.expected = some expected) (hverify : c.verify = false)
    (hcompile : compile pattern = .ok stages) (h : (process workspace c pattern).run s = (.ok r, s')) :
    Judges c.out expected pattern stages s.tree s'.tree r := by
  obtain ⟨hstored, hpassed, hchecked⟩ := checked_of_process hexpected hverify hcompile h
  refine ⟨hpassed, ?_, ?_⟩
  · exact fun hsame => hpassed.mpr fun k => hstored.meets hsame hcompile k
  · intro hapart hreachable
    rw [hpassed]
    apply forall_congr'
    intro k
    obtain ⟨found, hk⟩ := hchecked k
    exact hstored.meets_iff hapart hreachable hk

/-- Storing in a directory makes its references those of the pattern. -/
theorem Stored.refers {dir : Path} (h : Stored dir stages t u) (hcompile : compile pattern = .ok stages) :
    Refers u dir fun k => k.table stages := by
  intro k
  rw [h.grows.current_eq]
  exact ⟨k.storable_table hcompile, h.located k, h.stored k⟩

/-- If the tables can be stored at all, they are also stored where they are compared with something afterwards. -/
theorem exists_stored_of_isOk {out : Path} (hcompile : compile pattern = .ok stages)
    (h : ((process workspace (referenceRun out []) pattern).run s).1.isOk = true) :
    ∃ u, Stored (folderIn out pattern) stages s.tree u ∧
      (store workspace (folderIn out pattern) stages).run s = (.ok (), ⟨u, s.printed⟩) := by
  rcases run_store (folderIn out pattern) stages s.tree with hbreaks | ⟨u, hstored, hrun⟩
  · obtain ⟨f, s', hfails, -⟩ := breaks_process none [] hcompile (hbreaks s.printed)
    rw [referenceRun, hfails] at h
    cases h
  · exact ⟨u, hstored, hrun s.printed⟩

def storedPair (out : String) : Session := (runConfig workspace (referenceRun (.ofString out) ["a*", "a?"]) .blank).2

/-- The folder of both holds the tables of the second one. -/
theorem refers_storedPair (out : String) {n n' : Nfa} (hp : compile "a*" = .ok (.ofNfa n))
    (hq : compile "a?" = .ok (.ofNfa n'))
    (h : Undisturbed (referenceRun (.ofString out) ["a*", "a?"]) .blank) :
    Refers (storedPair out).tree (folderIn (.ofString out) "a*") fun k => k.table (.ofNfa n') := by
  have hcompile : ∀ p ∈ ["a*", "a?"], ∃ stages, compile p = .ok stages :=
    List.forall_mem_cons.mpr ⟨⟨_, hp⟩, List.forall_mem_singleton.mpr ⟨_, hq⟩⟩
  have hfolder : folderName "a*" = folderName "a?" := by decide +kernel
  have hshared : placeIn blank.tree.current (.ofString out) "a*" = placeIn blank.tree.current (.ofString out) "a?" := by
    rw [placeIn, placeIn, folderIn, folderIn, hfolder]
  exact refers_of_undisturbed ["a*"] hcompile List.mem_cons_self hq hshared h

theorem passed_iff_meets_of_neighbours : ∃ stages r s', compile "a*" = .ok stages ∧
    (process workspace (comparedRun (.ofString "R") (.ofString "S") []) "a*").run (storedPair "R") = (.ok r, s') ∧
    Judges (.ofString "S") (.ofString "R") "a*" stages (storedPair "R").tree s'.tree r := by
  obtain ⟨n, -, hp⟩ := exists_compile_of_isOk "a*" (by decide +kernel)
  obtain ⟨n', -, hq⟩ := exists_compile_of_isOk "a?" (by decide +kernel)
  have hisOk : ((process workspace (referenceRun (.ofString "S") []) "a*").run (storedPair "R")).1.isOk = true := by
    decide +kernel
  obtain ⟨u, hstored, hstore⟩ := exists_stored_of_isOk hp hisOk
  have hapart : placeIn (storedPair "R").tree.current (.ofString "R") "a*" ≠
      placeIn (storedPair "R").tree.current (.ofString "S") "a*" := by decide +kernel
  have hrun := process_of_refers [] hp hstore ((refers_storedPair "R" hp hq (by decide +kernel)).of_stored hstored hapart)
  exact ⟨_, _, _, hp, hrun, passed_iff_meets rfl rfl hp hrun⟩

/-- Where references and output are one directory, a pattern passes over the references of another one: it has
overwritten them before they are read. -/
theorem passes_over_own_tables : ∃ stages r s', compile "a*" = .ok stages ∧
    (process workspace (comparedRun (.ofString "output") (.ofString "output") []) "a*").run (storedPair "output") =
      (.ok r, s') ∧ r.passed = true ∧
    ¬ Meets (storedPair "output").tree (Check.nfa.file (folderIn (.ofString "output") "a*")) stages.nfa.table := by
  obtain ⟨n, hn, hp⟩ := exists_compile_of_isOk "a*" (by decide +kernel)
  obtain ⟨n', hn', hq⟩ := exists_compile_of_isOk "a?" (by decide +kernel)
  have hdiffer : n.table.equivalent n'.table = false := by
    have hpair : (do
        let n ← Nfa.ofPattern? "a*"
        let n' ← Nfa.ofPattern? "a?"
        pure (n.table.equivalent n'.table)).toOption = some false := by decide +kernel
    rw [hn, hn'] at hpair
    exact Option.some.inj hpair
  have hisOk : ((process workspace (referenceRun (.ofString "output") []) "a*").run (storedPair "output")).1.isOk =
      true := by decide +kernel
  obtain ⟨u, hstored, hstore⟩ := exists_stored_of_isOk hp hisOk
  have hrun := process_of_refers [] hp hstore (hstored.refers hp)
  refine ⟨_, _, _, hp, hrun, agrees_iff.mpr fun k => Table.equivalent_iff.mpr rfl, ?_⟩
  intro hmeets
  obtain ⟨hstorable, hlocate, hentry⟩ := refers_storedPair "output" hp hq (by decide +kernel) .nfa
  have hread := (FileTree.read_of_locate hlocate hentry).2
  cases hdiffer.symm.trans ((meets_iff_of_read hread hstorable.ofJson?_toJson).mp hmeets)

end Batch

end PatternAutomata
