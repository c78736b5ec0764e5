import PatternAutomata.Proofs.Pipeline

namespace PatternAutomata

variable {c : Char} {w : List Char} {pattern : String}

/-- A route on a word has an edge on each of its characters. -/
theorem Route.exists_edge_of_mem {σ : Type} {edge : σ → Label → σ → Prop} {i k : σ} (h : Route edge i w k)
    (hc : c ∈ w) : ∃ a b, edge a (.char c) b := by
  induction h with
  | nil i => cases hc
  | @step i j _ l _ he _ ih =>
    cases l with
    | empty => exact ih hc
    | char d =>
      rcases List.mem_cons.mp hc with rfl | hrest
      · exact ⟨i, j, he⟩
      · exact ih hrest

namespace Nfa

variable {n : Nfa} {lo i j : Nat} {l : Label} {L : Language Char}

theorem state?_eq_some_iff {s : State} :
    n.state? i = some s ↔ ∃ k, n.states[k]? = some s ∧ i = n.firstId + k := by
  rw [state?]
  constructor
  · intro h
    split at h
    · next hi => exact ⟨i - n.firstId, h, by omega⟩
    · cases h
  · rintro ⟨k, hk, rfl⟩
    rw [if_pos (Nat.le_add_right _ _), Nat.add_sub_cancel_left]
    exact hk

/-- Only states have edges. -/
theorem exists_state_of_edge (he : n.Edge i l j) : ∃ s, n.state? i = some s := by
  cases hs : n.state? i with
  | some s => exact ⟨s, rfl⟩
  | none =>
    rw [Edge, targets, hs] at he
    cases he

theorem mem_range_of_edge (he : n.Edge i l j) : n.firstId ≤ i ∧ i < n.firstId + n.size := by
  obtain ⟨s, hs⟩ := exists_state_of_edge he
  obtain ⟨k, hk, rfl⟩ := state?_eq_some_iff.mp hs
  have hlt : k < n.size := (Array.getElem?_eq_some_iff.mp hk).1
  omega

theorem mem_alphabet_iff (h : n.Sound lo) (hlo : lo ≤ n.firstId) : c ∈ n.alphabet ↔ ∃ i j, n.Edge i (.char c) j := by
  rw [alphabet, mem_ascending, List.mem_flatMap]
  constructor
  · rintro ⟨s, hmem, hc⟩
    obtain ⟨k, hk⟩ := List.getElem?_of_mem hmem
    have hs : n.state? (n.firstId + k) = some s :=
      state?_eq_some_iff.mpr ⟨k, by rw [← Array.getElem?_toList]; exact hk, rfl⟩
    refine ⟨n.firstId + k, (exists_edge_iff h (by omega)).mp ?_⟩
    rw [hs]
    exact hc
  · rintro ⟨i, j, he⟩
    obtain ⟨s, hs⟩ := exists_state_of_edge he
    obtain ⟨k, hk, rfl⟩ := state?_eq_some_iff.mp hs
    have hc := (exists_edge_iff h (by omega)).mpr ⟨j, he⟩
    rw [hs] at hc
    rw [← Array.getElem?_toList] at hk
    exact ⟨s, List.mem_of_getElem? hk, hc⟩

/-- Every edge on a character is part of a way from the start to the terminal. -/
theorem Faithful.exists_mem_of_edge (h : n.Faithful lo L) (hlo : lo ≤ i) (he : n.Edge i (.char c) j) :
    ∃ w ∈ L, c ∈ w := by
  have hi := (mem_range_of_edge he).2
  obtain ⟨hj, hj'⟩ := h.part.closed i _ j hlo hi he
  obtain ⟨u, hu⟩ := h.part.reached i hlo hi
  obtain ⟨v, hv⟩ := h.part.leads j hj hj'
  have hword : u ++ c :: v ∈ L := (h.part.word_iff _).mp (hu.trans (.step he hv))
  exact ⟨_, hword, by simp⟩

/-- The alphabet is made of the characters of the language. -/
theorem Faithful.mem_alphabet_iff (h : n.Faithful lo L) (hlo : lo ≤ n.firstId) : c ∈ n.alphabet ↔ ∃ w ∈ L, c ∈ w := by
  rw [Nfa.mem_alphabet_iff h.sound hlo]
  constructor
  · rintro ⟨i, j, he⟩
    exact h.exists_mem_of_edge (hlo.trans (mem_range_of_edge he).1) he
  · rintro ⟨w, hw, hc⟩
    exact ((h.part.word_iff w).mpr hw).exists_edge_of_mem hc

end Nfa

namespace Dfa

variable {d : Dfa} {s t i j : Nat}

theorem mem_alphabet_iff (hd : d.WellFormed) : c ∈ d.alphabet ↔ ∃ i j, d.transition? i c = some j := by
  rw [alphabet, mem_ascending, List.mem_flatMap]
  constructor
  · rintro ⟨st, hst, hc⟩
    obtain ⟨i, hi⟩ := List.getElem?_of_mem hst
    rw [Array.getElem?_toList] at hi
    obtain ⟨e, he, rfl⟩ := List.mem_map.mp hc
    refine ⟨i, e.2, ?_⟩
    rw [transition?, hi, Option.bind_some, lookup_eq_some_iff (hd.sorted i st hi)]
    exact he
  · rintro ⟨i, j, hj⟩
    obtain ⟨st, hst, hlookup⟩ := transition?_eq_some hj
    have he := (lookup_eq_some_iff (hd.sorted i st hst)).mp hlookup
    rw [← Array.getElem?_toList] at hst
    exact ⟨st, List.mem_of_getElem? hst, List.mem_map_of_mem he⟩

theorem exists_transition?_of_mem (h : d.walk? s w = some t) (hc : c ∈ w) : ∃ i j, d.transition? i c = some j := by
  induction w generalizing s with
  | nil => cases hc
  | cons b w ih =>
    obtain ⟨next, hnext, hwalk⟩ := Option.bind_eq_some_iff.mp h
    rcases List.mem_cons.mp hc with rfl | hrest
    · exact ⟨s, next, hnext⟩
    · exact ih hwalk hrest

/-- In a trim automaton every character with a transition comes up in an accepted word. -/
theorem Trim.exists_accepts (h : d.Trim) (hd : d.WellFormed) (hj : d.transition? i c = some j) :
    ∃ w, c ∈ w ∧ d.accepts w = true := by
  obtain ⟨u, hu⟩ := h.reached i (lt_size_of_transition? hj)
  obtain ⟨v, k, hv, hk⟩ := h.leads j (hd.transition?_lt hj)
  refine ⟨u ++ c :: v, by simp, ?_⟩
  rw [accepts, walk?_append, hu, Option.bind_some, walk?, hj, Option.bind_some, hv]
  exact hk

theorem Trim.mem_alphabet_iff (h : d.Trim) (hd : d.WellFormed) :
    c ∈ d.alphabet ↔ ∃ w, c ∈ w ∧ d.accepts w = true := by
  rw [Dfa.mem_alphabet_iff hd]
  constructor
  · rintro ⟨i, j, hj⟩
    exact h.exists_accepts hd hj
  · rintro ⟨w, hc, hw⟩
    obtain ⟨t, ht, -⟩ := (Option.any_eq_true _ _).mp hw
    exact exists_transition?_of_mem ht hc

end Dfa

/-- Every trim automaton for the words of an automaton has its alphabet. -/
theorem Nfa.Faithful.alphabet_eq {n : Nfa} {lo : Nat} {L : Language Char} {d : Dfa} (h : n.Faithful lo L)
    (hlo : lo ≤ n.firstId) (hd : d.WellFormed) (htrim : d.Trim) (haccepts : ∀ w, d.accepts w = n.accepts w) :
    d.alphabet = n.alphabet := by
  apply ascending_eq_of_mem_iff
  intro c
  have hmem : c ∈ d.alphabet ↔ c ∈ n.alphabet := by
    rw [htrim.mem_alphabet_iff hd, h.mem_alphabet_iff hlo]
    simp only [haccepts, h.accepts_iff, and_comm]
  rwa [Dfa.alphabet, Nfa.alphabet, mem_ascending, mem_ascending] at hmem

def Token.Denotes (tokens : List Token) (c : Char) : Prop :=
  ∃ t ∈ tokens, ∃ v, t.kind = .operand v ∧ v.contains c = true

/-- The words of a pattern are made of the characters of its tokens, and every one of them comes up. -/
theorem Grammar.exists_mem_language_iff {n : Nfa} (h : Nfa.ofPattern? pattern = .ok n) :
    (∃ w ∈ language pattern, c ∈ w) ↔ Token.Denotes (Token.split 0 pattern.toList) c := by
  obtain ⟨husable, e, he⟩ := exists_derives_of_ofPattern? h
  have hforward : e.Forward := fun v hv => (he.usable husable v hv).1
  rw [language_eq h he]
  constructor
  · rintro ⟨w, hw, hc⟩
    obtain ⟨v, hv, hcontains⟩ := Expression.exists_operand_of_mem hw hc
    obtain ⟨t, ht, hkind⟩ := he.mem_operands_iff.mp hv
    exact ⟨t, ht, v, hkind, hcontains⟩
  · rintro ⟨t, ht, v, hkind, hcontains⟩
    exact Expression.exists_mem_of_operand hforward (he.mem_operands_iff.mpr ⟨t, ht, hkind⟩) hcontains

namespace Stages

/-- The smallest automaton of a pattern has edges on just the characters of its tokens. -/
theorem mem_alphabet_minimal_iff {stages : Stages} (h : compile pattern = .ok stages) :
    c ∈ stages.minimal.dfa.alphabet ↔ Token.Denotes (Token.split 0 pattern.toList) c := by
  obtain ⟨n, hn, rfl⟩ := compile_eq_ok_iff.mp h
  have hfaithful := Grammar.faithful_of_ofPattern? hn
  have hlo := n.firstId.zero_le
  have hd := n.wellFormed_toDfa
  have halphabet : n.toDfa.minimize.dfa.alphabet = n.alphabet :=
    hfaithful.alphabet_eq hlo (Dfa.wellFormed_minimize hd) (Dfa.trim_minimize hd hfaithful.trim_toDfa)
      hfaithful.accepts_minimize
  show c ∈ n.toDfa.minimize.dfa.alphabet ↔ _
  rw [halphabet, hfaithful.mem_alphabet_iff hlo]
  exact Grammar.exists_mem_language_iff hn

/-- Nothing in the automata is dead: every state is of use, the alphabets are the characters of the tokens, and each
of these is part of an accepted word. -/
structure Live (stages : Stages) (tokens : List Token) : Prop where
  trim_dfa : stages.dfa.Trim
  trim_minimal : stages.minimal.dfa.Trim
  mem_alphabet_iff : ∀ c, c ∈ stages.nfa.alphabet ↔ Token.Denotes tokens c
  alphabet_dfa : stages.dfa.alphabet = stages.nfa.alphabet
  alphabet_minimal : stages.minimal.dfa.alphabet = stages.nfa.alphabet
  occurs : ∀ c ∈ stages.nfa.alphabet, ∃ w, c ∈ w ∧ stages.nfa.accepts w = true ∧ stages.dfa.accepts w = true ∧
    stages.minimal.dfa.accepts w = true

/-- What a pattern compiles to has no dead state, and no character is lost on the way. -/
theorem live_of_compile {stages : Stages} (h : compile pattern = .ok stages) :
    ∃ tokens, Token.ofPattern? pattern = .ok tokens ∧ stages.Live tokens := by
  obtain ⟨n, hn, rfl⟩ := compile_eq_ok_iff.mp h
  obtain ⟨husable, -⟩ := Grammar.exists_derives_of_ofPattern? hn
  have hfaithful := Grammar.faithful_of_ofPattern? hn
  have hlo := n.firstId.zero_le
  have hd := n.wellFormed_toDfa
  have htrim := hfaithful.trim_toDfa
  have htrim' := Dfa.trim_minimize hd htrim
  have haccepts := Nfa.accepts_toDfa hfaithful.sound
  have haccepts' := hfaithful.accepts_minimize
  refine ⟨Token.split 0 pattern.toList, Token.ofPattern?_eq_ok_iff.mpr ⟨rfl, husable⟩, htrim, htrim', ?_, ?_, ?_, ?_⟩
  · intro c
    exact (hfaithful.mem_alphabet_iff hlo).trans (Grammar.exists_mem_language_iff hn)
  · exact hfaithful.alphabet_eq hlo hd htrim haccepts
  · exact hfaithful.alphabet_eq hlo (Dfa.wellFormed_minimize hd) htrim' haccepts'
  · intro c hc
    obtain ⟨w, hw, hcw⟩ := (hfaithful.mem_alphabet_iff hlo).mp hc
    have hn : n.accepts w = true := hfaithful.accepts_iff.mpr hw
    exact ⟨w, hcw, hn, (haccepts w).trans hn, (haccepts' w).trans hn⟩

/-- The character `b` is not written in the pattern: it is one of a range. -/
theorem live_of_compile_of_class : ∃ stages, compile "([a-cx]y)*z?" = .ok stages ∧
    ∃ tokens, Token.ofPattern? "([a-cx]y)*z?" = .ok tokens ∧ stages.Live tokens := by
  obtain ⟨n, -, h⟩ := exists_compile_of_isOk "([a-cx]y)*z?" (by decide +kernel)
  exact ⟨_, h, live_of_compile h⟩

end Stages

end PatternAutomata
