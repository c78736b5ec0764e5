import PatternAutomata.Stages
import PatternAutomata.Proofs.Dfa.Canonical
import PatternAutomata.Proofs.Dfa.Subset
import PatternAutomata.Proofs.Matcher
import PatternAutomata.Proofs.Pattern.Reading
import PatternAutomata.Table.Export
import PatternAutomata.Table.Record

namespace PatternAutomata

theorem compile_eq_ok_iff {pattern : String} {stages : Stages} :
    compile pattern = .ok stages ↔ ∃ n, Nfa.ofPattern? pattern = .ok n ∧ .ofNfa n = stages := by
  rw [compile]
  cases Nfa.ofPattern? pattern with
  | error err => simp [Except.map]
  | ok n => simp [Except.map]

theorem exists_compile_of_isOk (pattern : String) (h : (Nfa.ofPattern? pattern).isOk = true) :
    ∃ n, Nfa.ofPattern? pattern = .ok n ∧ compile pattern = .ok (.ofNfa n) := by
  cases hn : Nfa.ofPattern? pattern with
  | error err =>
    rw [hn] at h
    cases h
  | ok n => exact ⟨n, rfl, compile_eq_ok_iff.mpr ⟨n, hn, rfl⟩⟩

namespace Nfa

variable {n : Nfa} {lo : Nat} {L : Language Char}

theorem Faithful.trim_toDfa (h : n.Faithful lo L) : n.toDfa.Trim := by
  apply Nfa.trim_toDfa h.sound
  intro i hlo hhi
  exact h.part.leads i hlo hhi

theorem Faithful.canonical_minimize (h : n.Faithful lo L) : n.toDfa.minimize.dfa.Canonical :=
  Dfa.canonical_minimize n.wellFormed_toDfa h.trim_toDfa ((discovered_toDfa h.sound).accessOrdered rfl)

theorem Faithful.accepts_minimize (h : n.Faithful lo L) (w : List Char) :
    n.toDfa.minimize.dfa.accepts w = n.accepts w := by
  rw [Dfa.accepts_minimize n.wellFormed_toDfa, accepts_toDfa h.sound]

end Nfa

namespace Stages

/-- All stages of a pattern, down to its matcher, accept the word exactly if it is one of the language. -/
structure Agree (stages : Stages) (pattern word : String) : Prop where
  nfa : stages.nfa.accepts word.toList = true ↔ word.toList ∈ Grammar.language pattern
  dfa : stages.dfa.accepts word.toList = stages.nfa.accepts word.toList
  minimal : stages.minimal.dfa.accepts word.toList = stages.nfa.accepts word.toList
  matcher : (Matcher.ofDfa stages.minimal.dfa).test word = .ok (stages.nfa.accepts word.toList)

theorem agree {pattern : String} {stages : Stages} (h : compile pattern = .ok stages) (word : String) :
    stages.Agree pattern word := by
  obtain ⟨n, hn, rfl⟩ := compile_eq_ok_iff.mp h
  have hfaithful := Grammar.faithful_of_ofPattern? hn
  have hminimal := hfaithful.accepts_minimize word.toList
  refine ⟨hfaithful.accepts_iff, Nfa.accepts_toDfa hfaithful.sound _, hminimal, ?_⟩
  have htest := Matcher.test_ofDfa hfaithful.canonical_minimize.wellFormed word
  rw [hminimal] at htest
  exact htest

theorem agree_on_stacked_repetitions : ∃ stages, compile "a?*" = .ok stages ∧ stages.Agree "a?*" "aa" := by
  obtain ⟨n, hn⟩ : ∃ n, Nfa.ofPattern? "a?*" = .ok n := ⟨_, rfl⟩
  have h : compile "a?*" = .ok (.ofNfa n) := compile_eq_ok_iff.mpr ⟨n, hn, rfl⟩
  exact ⟨_, h, agree h "aa"⟩

/-- The minimized automata are the same, state by state, and so are their tables and texts. -/
structure SameMinimal (stages stages' : Stages) : Prop where
  size : stages.minimal.dfa.size = stages'.minimal.dfa.size
  start : stages.minimal.dfa.start = stages'.minimal.dfa.start
  states : ∀ i : Nat, stages.minimal.dfa.states[i]?.map (fun s => (s.name, s.accepting, s.edges)) =
    stages'.minimal.dfa.states[i]?.map fun s => (s.name, s.accepting, s.edges)
  table : stages.minimal.dfa.table = stages'.minimal.dfa.table
  json : stages.minimal.dfa.table.toJson = stages'.minimal.dfa.table.toJson
  dot : stages.minimal.dfa.table.toDot = stages'.minimal.dfa.table.toDot
  matcher : Matcher.ofDfa stages.minimal.dfa = Matcher.ofDfa stages'.minimal.dfa
  source : (Matcher.ofDfa stages.minimal.dfa).source = (Matcher.ofDfa stages'.minimal.dfa).source

/-- Patterns with one language have one minimized automaton. -/
theorem minimal_eq_of_language_eq {p q : String} {stages stages' : Stages} (hp : compile p = .ok stages)
    (hq : compile q = .ok stages') (hlanguage : Grammar.language p = Grammar.language q) :
    SameMinimal stages stages' := by
  obtain ⟨n, hn, rfl⟩ := compile_eq_ok_iff.mp hp
  obtain ⟨m, hm, rfl⟩ := compile_eq_ok_iff.mp hq
  have hn := Grammar.faithful_of_ofPattern? hn
  have hm := Grammar.faithful_of_ofPattern? hm
  have haccepts : ∀ w, n.toDfa.minimize.dfa.accepts w = m.toDfa.minimize.dfa.accepts w := by
    intro w
    rw [hn.accepts_minimize, hm.accepts_minimize, Bool.eq_iff_iff, hn.accepts_iff, hm.accepts_iff, hlanguage]
  -- Tables, texts and matchers leave out the subsets, so they are those of the plain automaton.
  have hplain := hn.canonical_minimize.plain_eq hm.canonical_minimize haccepts
  have hsize : n.toDfa.minimize.dfa.size = m.toDfa.minimize.dfa.size := by
    rw [← Dfa.size_plain, hplain, Dfa.size_plain]
  have hstart : n.toDfa.minimize.dfa.start = m.toDfa.minimize.dfa.start := by
    rw [← Dfa.start_plain, hplain, Dfa.start_plain]
  have hstates (i : Nat) : n.toDfa.minimize.dfa.states[i]?.map (fun s => (s.name, s.accepting, s.edges)) =
      m.toDfa.minimize.dfa.states[i]?.map fun s => (s.name, s.accepting, s.edges) := by
    rw [← Dfa.state_plain, hplain, Dfa.state_plain]
  have htable : n.toDfa.minimize.dfa.table = m.toDfa.minimize.dfa.table := by
    rw [← Dfa.table_plain, hplain, Dfa.table_plain]
  have hmatcher : Matcher.ofDfa n.toDfa.minimize.dfa = Matcher.ofDfa m.toDfa.minimize.dfa := by
    rw [← Dfa.ofDfa_plain, hplain, Dfa.ofDfa_plain]
  exact ⟨hsize, hstart, hstates, htable, congrArg Table.toJson htable, congrArg Table.toDot htable, hmatcher,
    congrArg Matcher.source hmatcher⟩

theorem minimal_eq_of_star_optional : ∃ stages stages', compile "a*" = .ok stages ∧ compile "a*?" = .ok stages' ∧
    Grammar.language "a*" = Grammar.language "a*?" ∧ SameMinimal stages stages' := by
  obtain ⟨n, hn⟩ : ∃ n, Nfa.ofPattern? "a*" = .ok n := ⟨_, rfl⟩
  obtain ⟨m, hm⟩ : ∃ n, Nfa.ofPattern? "a*?" = .ok n := ⟨_, rfl⟩
  have hp : compile "a*" = .ok (.ofNfa n) := compile_eq_ok_iff.mpr ⟨n, hn, rfl⟩
  have hq : compile "a*?" = .ok (.ofNfa m) := compile_eq_ok_iff.mpr ⟨m, hm, rfl⟩
  let letter : Expression := .operand (.char 'a')
  have hletter : Grammar.Derives .factor [.operand (.char 'a')] letter := .atom (.operand (.char 'a'))
  have hstar : Grammar.Derives .alternatives (Grammar.kindsOf "a*") (.repetition .star letter) :=
    .sequence (.factor (.repetition .star hletter))
  have hoptional : Grammar.Derives .alternatives (Grammar.kindsOf "a*?")
      (.repetition .optional (.repetition .star letter)) :=
    .sequence (.factor (.repetition .optional (.repetition .star hletter)))
  have hlanguage : Grammar.language "a*" = Grammar.language "a*?" := by
    rw [Grammar.language_eq hn hstar, Grammar.language_eq hm hoptional]
    exact (Repetition.kstar_add_one letter.language).symm
  exact ⟨_, _, hp, hq, hlanguage, minimal_eq_of_language_eq hp hq hlanguage⟩

/-- No automaton that accepts the words of a pattern has fewer states than the minimized one. -/
theorem size_minimal_le {pattern : String} {stages : Stages} (h : compile pattern = .ok stages) (d : Dfa)
    (haccepts : ∀ word, d.accepts word = true ↔ word ∈ Grammar.language pattern) :
    stages.minimal.dfa.size ≤ d.size := by
  obtain ⟨n, hn, rfl⟩ := compile_eq_ok_iff.mp h
  have hfaithful := Grammar.faithful_of_ofPattern? hn
  apply hfaithful.canonical_minimize.size_le
  intro w
  rw [hfaithful.accepts_minimize, Bool.eq_iff_iff, hfaithful.accepts_iff, haccepts]

theorem size_minimal_le_of_unmerged : ∃ stages, compile "(a|b)*abb" = .ok stages ∧
    (∀ word, stages.dfa.accepts word = true ↔ word ∈ Grammar.language "(a|b)*abb") ∧
    stages.minimal.dfa.size ≤ stages.dfa.size := by
  obtain ⟨n, hn, h⟩ := exists_compile_of_isOk "(a|b)*abb" (by decide +kernel)
  have hfaithful := Grammar.faithful_of_ofPattern? hn
  have haccepts : ∀ word, n.toDfa.accepts word = true ↔ word ∈ Grammar.language "(a|b)*abb" := by
    intro word
    rw [Nfa.accepts_toDfa hfaithful.sound, hfaithful.accepts_iff]
  exact ⟨_, h, haccepts, size_minimal_le h n.toDfa haccepts⟩

end Stages

end PatternAutomata
