import PatternAutomata.Matcher
import PatternAutomata.Proofs.Dfa.Constructed
import PatternAutomata.Proofs.Text.CodePoint

namespace PatternAutomata

namespace Matcher

variable {d : Dfa} {s : Nat}

theorem lookup_points (edges : List (Char × Nat)) (c : Char) :
    (edges.map fun e => (e.1.toNat, e.2)).lookup c.toNat = edges.lookup c := by
  induction edges with
  | nil => rfl
  | cons e edges ih =>
    have hiff : c.toNat = e.1.toNat ↔ c = e.1 := by
      constructor
      · intro h
        exact Char.ext (UInt32.toNat_inj.mp h)
      · intro h
        rw [h]
    rw [List.map_cons, Listing.lookup_cons, Listing.lookup_cons, ih]
    simp only [hiff]

/-- The tables are followed as the automaton walks. -/
theorem walk_ofDfa (hd : d.WellFormed) (hs : s < d.size) (w : List Char) :
    (ofDfa d).walk s (w.map Char.toNat) = .ok ((d.walk? s w).any d.isAccepting) := by
  -- A row of the table is the edge list with code points in place of characters, so lookups agree.
  induction w generalizing s with
  | nil =>
    have hstate := Array.getElem?_eq_getElem hs
    have haccepting : (ofDfa d).accepting[s]? = some d.states[s].accepting := by
      rw [ofDfa, Array.getElem?_map, hstate]
      rfl
    rw [List.map_nil, walk, haccepting]
    show Except.ok d.states[s].accepting = .ok (d.states[s]?.any (·.accepting))
    rw [hstate]
    rfl
  | cons c w ih =>
    have hstate := Array.getElem?_eq_getElem hs
    have hrow : (ofDfa d).rows[s]? = some (d.states[s].edges.map fun e => (e.1.toNat, e.2)) := by
      rw [ofDfa, Array.getElem?_map, hstate]
      rfl
    have htransition : d.transition? s c = d.states[s].edges.lookup c := by
      rw [Dfa.transition?, hstate]
      rfl
    rw [List.map_cons, walk, hrow]
    dsimp only
    rw [lookup_points, ← htransition, Dfa.walk?]
    cases hnext : d.transition? s c with
    | none => rfl
    | some next => exact ih (hd.transition?_lt hnext)

/-- Testing a string answers whether the automaton accepts its characters. -/
theorem test_ofDfa (hd : d.WellFormed) (text : String) : (ofDfa d).test text = .ok (d.accepts text.toList) := by
  have hstart : (ofDfa d).start = d.start := rfl
  rw [test, Text.codePoints_eq]
  show (ofDfa d).walk (ofDfa d).start (text.toList.map Char.toNat) = _
  rw [hstart, walk_ofDfa hd hd.start_lt, Dfa.accepts]

/-- The tables fit each other: they have a verdict and a row for each of `size` states, no entry leads out of these, and
no row has two entries for one code point. -/
structure Fits (m : Matcher) (size : Nat) : Prop where
  accepting : m.accepting.size = size
  rows : m.rows.size = size
  start_lt : m.start < size
  target_lt : ∀ row ∈ m.rows, ∀ e ∈ row, e.2 < size
  nodup : ∀ row ∈ m.rows, (row.map Prod.fst).Nodup

theorem exists_state_of_mem_rows {row : List (Nat × Nat)} (h : row ∈ (ofDfa d).rows) :
    ∃ (i : Nat) (st : Dfa.State), d.states[i]? = some st ∧ row = st.edges.map fun e => (e.1.toNat, e.2) := by
  obtain ⟨st, hst, rfl⟩ := Array.mem_map.mp h
  obtain ⟨i, hi⟩ := Array.mem_iff_getElem?.mp hst
  exact ⟨i, st, hi, rfl⟩

theorem fits_ofDfa (hd : d.WellFormed) : (ofDfa d).Fits d.size := by
  refine ⟨Array.size_map, Array.size_map, hd.start_lt, ?_, ?_⟩
  · intro row hrow e he
    obtain ⟨i, st, hst, rfl⟩ := exists_state_of_mem_rows hrow
    obtain ⟨e', he', rfl⟩ := List.mem_map.mp he
    exact hd.target_lt i st hst e' he'
  · intro row hrow
    obtain ⟨i, st, hst, rfl⟩ := exists_state_of_mem_rows hrow
    -- Characters in order have code points in order.
    rw [List.map_map]
    exact List.pairwise_map.mpr ((List.pairwise_map.mp (hd.sorted i st hst)).imp fun hlt => Nat.ne_of_lt hlt)

/-- The matcher of a minimized automaton has at least one state and tables that fit, and tests every string without
failing, by what the automaton from which it was minimized accepts. -/
theorem fits_minimize (h : d.Constructed) :
    0 < d.minimize.dfa.size ∧ (ofDfa d.minimize.dfa).Fits d.minimize.dfa.size ∧
      ∀ text : String, (ofDfa d.minimize.dfa).test text = .ok (d.accepts text.toList) := by
  have hminimal := h.wellFormed_minimal
  refine ⟨Nat.zero_lt_of_lt hminimal.start_lt, fits_ofDfa hminimal, ?_⟩
  intro text
  rw [test_ofDfa hminimal, h.accepts_minimal]

/-- Two edges for one state and character, a state that is never entered and one that leads nowhere. -/
theorem fits_minimize_of_stray_states : ∃ d : Dfa,
    d = .ofEdges "p" ["r"] [⟨"p", '𝄞', "q"⟩, ⟨"p", '𝄞', "r"⟩, ⟨"x", 'é', "r"⟩] ∧ d.Constructed ∧
      0 < d.minimize.dfa.size ∧ (ofDfa d.minimize.dfa).Fits d.minimize.dfa.size ∧
      ∀ text : String, (ofDfa d.minimize.dfa).test text = .ok (d.accepts text.toList) := by
  have h (start : String) (accepting : List String) (edges : List Dfa.NamedEdge) :
      (Dfa.ofEdges start accepting edges).Constructed := .ofEdges start accepting edges
  exact ⟨_, rfl, h .., fits_minimize (h ..)⟩

end Matcher

end PatternAutomata
