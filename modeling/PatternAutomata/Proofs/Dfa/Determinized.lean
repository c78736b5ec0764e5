import PatternAutomata.Proofs.Dfa.Subset
import PatternAutomata.Proofs.Nfa.Thompson

namespace PatternAutomata

/-- `d` goes from set to set of the states of `n`: a word is missing if it leads to no state, else it ends in the
state for the set it leads to; and the sets are those that words lead to, none of them empty and each once. -/
structure Dfa.Follows (d : Dfa) (n : Nfa) : Prop where
  missing : ∀ w, d.walk? d.start w = none ↔ n.reach w = []
  subset : ∀ w i, d.walk? d.start w = some i → d.states[i]?.map (·.subset) = some (n.reach w)
  accepts : ∀ w, d.accepts w = n.accepts w
  nonempty : ∀ (i : Nat) (s : State), d.states[i]? = some s → s.subset ≠ []
  distinct : ∀ (i j : Nat) (s t : State), d.states[i]? = some s → d.states[j]? = some t → s.subset = t.subset → i = j
  reached : ∀ i < d.size, ∃ w, d.walk? d.start w = some i

namespace Arena

variable {a : Arena} {pattern : String} {items : List Postfix} {n : Nfa}

/-- The subset construction follows every automaton that is built, whatever the arena held before. -/
theorem follows_toDfa (h : (a.build pattern items).1 = .ok n) : n.toDfa.Follows n := by
  obtain ⟨e, -, hfaithful⟩ := Nfa.exists_faithful_of_build h
  have hn := hfaithful.sound
  refine ⟨?_, ?_, ?_, ?_, ?_, ?_⟩
  · intro w
    exact Nfa.walk?_toDfa_eq_none_iff hn
  · intro w i hi
    obtain ⟨-, hset⟩ := (Nfa.walk?_toDfa_eq_some_iff hn).mp hi
    rw [hset.state hn]
    rfl
  · exact Nfa.accepts_toDfa hn
  · intro i s hs
    obtain ⟨w, -, hne⟩ := (Nfa.subset_toDfa hs).exists_reach hn
    exact hne
  · intro i j s t hs ht heq
    have hset := Nfa.subset_toDfa hs
    rw [heq] at hset
    exact hset.unique (Nfa.subset_toDfa ht)
  · intro i hi
    exact Nfa.reached_toDfa hn hi

/-- A fragment may be repeated and then joined to its own repetition before anything is built. -/
theorem follows_toDfa_of_reused_fragment : ∃ (a : Arena) (n : Nfa),
    (do let f ← character 'x'
        let g ← repetition .star f
        concat g f : StateM Arena Fragment) (.empty 7) = (⟨9, 8⟩, a) ∧
      (a.build "" [.operand (.char 'b'), .operand (.range 'a' 'c'), .operator (.junction .alternate),
        .operator (.repetition .star)]).1 = .ok n ∧
      n.toDfa.Follows n := by
  let e : Expression := .repetition .star (.junction .alternate (.operand (.char 'b')) (.operand (.range 'a' 'c')))
  have he : e.Forward := by decide
  have hbuild (a : Arena) := congrArg Prod.fst (a.build_postorder "" he)
  exact ⟨_, _, rfl, hbuild _, follows_toDfa (hbuild _)⟩

end Arena

end PatternAutomata
