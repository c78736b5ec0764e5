import PatternAutomata.Proofs.Batch

namespace PatternAutomata

namespace Batch

open Session

/-- The results give the same reports as others, and `k` more failures. -/
structure Adds (k : Nat) (results others : List (Except Failure Report)) : Prop where
  reports_eq : reports results = reports others
  failures_eq : failures results = k + failures others

namespace Adds

variable {k : Nat} {results others : List (Except Failure Report)}

theorem nil : Adds 0 [] [] := ⟨rfl, rfl⟩

theorem error (h : Adds k results others) (f : Failure) : Adds (k + 1) (.error f :: results) others := by
  refine ⟨h.reports_eq, ?_⟩
  rw [failures_error, h.failures_eq]
  omega

theorem cons (h : Adds k results others) (r : Except Failure Report) : Adds k (r :: results) (r :: others) := by
  cases r with
  | error f =>
    refine ⟨h.reports_eq, ?_⟩
    rw [failures_error, failures_error, h.failures_eq, Nat.add_assoc]
  | ok report =>
    refine ⟨congrArg (report :: ·) h.reports_eq, ?_⟩
    rw [failures_ok, failures_ok, h.failures_eq, Nat.add_assoc]

end Adds

variable {act : String → ExceptT Failure (StateM Session) Report} {keep : String → Bool}

/-- Patterns that stop at an error before they do anything may be left out: the others give the same results. -/
theorem resultsOf_filter (hact : ∀ pattern, keep pattern = false → ∀ s, ∃ f, (act pattern).run s = (.error f, s))
    (patterns : List String) (s : Session) : ∃ results others s',
      resultsOf act patterns s = (results, s') ∧ resultsOf act (patterns.filter keep) s = (others, s') ∧
        Adds (patterns.countP fun pattern => !keep pattern) results others := by
  induction patterns generalizing s with
  | nil => exact ⟨[], [], s, rfl, rfl, .nil⟩
  | cons pattern rest ih =>
    have hstep (patterns : List String) : resultsOf act (pattern :: patterns) s =
        (((act pattern).run s).1 :: (resultsOf act patterns ((act pattern).run s).2).1,
          (resultsOf act patterns ((act pattern).run s).2).2) := rfl
    cases hkeep : keep pattern with
    | true =>
      obtain ⟨results, others, s', hresults, hothers, hadds⟩ := ih ((act pattern).run s).2
      refine ⟨((act pattern).run s).1 :: results, ((act pattern).run s).1 :: others, s', ?_, ?_, ?_⟩
      · rw [hstep, hresults]
      · rw [List.filter_cons_of_pos hkeep, hstep, hothers]
      · rw [List.countP_cons_of_neg (by simp [hkeep])]
        exact hadds.cons _
    -- The pattern leaves the session as it was, so the rest runs as it would without it.
    | false =>
      obtain ⟨f, hrun⟩ := hact pattern hkeep s
      obtain ⟨results, others, s', hresults, hothers, hadds⟩ := ih s
      refine ⟨.error f :: results, others, s', ?_, ?_, ?_⟩
      · rw [hstep, hrun, hresults]
      · rw [List.filter_cons_of_neg (by simp [hkeep]), hothers]
      · rw [List.countP_cons_of_pos (by simp [hkeep])]
        exact hadds.error f

def compiles (pattern : String) : Bool := (compile pattern).isOk

/-- A rejected pattern makes no folder, writes and prints nothing. -/
theorem run_processBy_of_rejected (oracle : Oracle) (c : Config) {pattern : String} (h : compiles pattern = false)
    (s : Session) : ∃ f, (processBy oracle workspace c pattern).run s = (.error f, s) := by
  rw [processBy]
  cases hcompile : compile pattern with
  | error e => exact ⟨.rejected e, rfl⟩
  | ok stages =>
    rw [compiles, hcompile] at h
    cases h

/-- A run leaves and prints the same as a run over the patterns that are not rejected; the rejected ones only count as
failures. With its own oracle this is the run of the program. -/
theorem runConfigBy_filter_compiles (oracle : Oracle) {c : Config} {s t : Session}
    (hcreated : workspace.createDirs c.out s = (.ok (), t)) :
    let kept := { c with patterns := c.patterns.filter compiles }
    let k := c.patterns.countP fun pattern => !compiles pattern
    let f := failures (resultsOf (processBy oracle workspace kept) kept.patterns t).1
    (runConfigBy oracle workspace c s).2 = (runConfigBy oracle workspace kept s).2 ∧
      (runConfigBy oracle workspace c s).1 = (if k + f = 0 then .success
        else .failure s!"{k + f} of {c.patterns.length} patterns failed" none) ∧
      runConfigBy Regex.oracle workspace c = runConfig workspace c := by
  intro kept k f
  obtain ⟨results, others, u, hresults, hothers, hadds⟩ := resultsOf_filter
    (fun pattern hpattern => run_processBy_of_rejected oracle c hpattern) c.patterns t
  have hkept : resultsOf (processBy oracle workspace kept) kept.patterns t = (others, u) := hothers
  have hf : k + f = failures results := by
    rw [hadds.failures_eq]
    exact congrArg (fun out => k + failures out.1) hkept
  rw [run_runConfigBy hcreated hresults, run_runConfigBy (c := kept) hcreated hkept, hf]
  refine ⟨?_, rfl, runConfigBy_oracle workspace c⟩
  dsimp only
  rw [hadds.reports_eq]

/-- Two of the patterns are rejected, before and between the others. -/
theorem runConfigBy_filter_compiles_of_malformed : ∃ (c : Config) (t : Session),
    c = ⟨.ofString "R/S", none, true, ["a|*b", "ab", ")(", "a*"]⟩ ∧
    workspace.createDirs c.out blank = (.ok (), t) ∧
    let kept := { c with patterns := c.patterns.filter compiles }
    let k := c.patterns.countP fun pattern => !compiles pattern
    let f := failures (resultsOf (processBy Regex.oracle workspace kept) kept.patterns t).1
    (kept.patterns = ["ab", "a*"] ∧ k = 2) ∧
      (runConfigBy Regex.oracle workspace c blank).2 = (runConfigBy Regex.oracle workspace kept blank).2 ∧
      (runConfigBy Regex.oracle workspace c blank).1 = (if k + f = 0 then .success
        else .failure s!"{k + f} of {c.patterns.length} patterns failed" none) ∧
      runConfigBy Regex.oracle workspace c = runConfig workspace c := by
  obtain ⟨t, hcreated⟩ : ∃ t, workspace.createDirs (.ofString "R/S") blank = (.ok (), t) := ⟨_, rfl⟩
  have hkept : ["a|*b", "ab", ")(", "a*"].filter compiles = ["ab", "a*"] := by decide +kernel
  have hcount : ["a|*b", "ab", ")(", "a*"].countP (fun pattern => !compiles pattern) = 2 := by decide +kernel
  exact ⟨_, t, rfl, hcreated, ⟨hkept, hcount⟩,
    runConfigBy_filter_compiles Regex.oracle (c := ⟨.ofString "R/S", none, true, ["a|*b", "ab", ")(", "a*"]⟩) hcreated⟩

end Batch

end PatternAutomata
