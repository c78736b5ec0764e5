import PatternAutomata.Proofs.Alphabet
import PatternAutomata.Proofs.Table.Export

namespace PatternAutomata

/-- What a key of one character stands for in the tables of a pattern. -/
def Label.ofKey (c : Char) : Label := if c = epsilon then .empty else .char c

theorem Label.ofKey_epsilon : ofKey epsilon = .empty := if_pos rfl

theorem Label.ofKey_eq_char {c : Char} (h : c ≠ epsilon) : ofKey c = .char c := if_neg h

/-- The key of a label stands for it, unless the label is the character ε. -/
theorem Label.ofKey_symbol {l : Label} (h : l ≠ .char epsilon) : ofKey l.symbol = l := by
  cases l with
  | empty => exact ofKey_epsilon
  | char c =>
    apply ofKey_eq_char
    rintro rfl
    exact h rfl

namespace Table

/-- The moves of a table by name, where `read` says what a key of one character stands for. -/
def Edge (t : Table) (read : Char → Label) (a : String) (l : Label) (b : String) : Prop :=
  ∃ c, read c = l ∧ b ∈ t.targets a (String.singleton c)

/-- The word leads from the start of the table to an accepting state. -/
def Recognizes (t : Table) (read : Char → Label) (w : List Char) : Prop :=
  ∃ b, Route (t.Edge read) t.start w b ∧ t.isAccepting b = true

/-- A table whose states carry the names of other states recognizes the words that lead between those. -/
theorem recognizes_iff {σ : Type} {edge : σ → Label → σ → Prop} {P : σ → Prop} {t : Table} {read : Char → Label}
    {name : σ → String} {i : σ} (hstart : t.start = name i) (hi : P i) (hkept : ∀ i l j, P i → edge i l j → P j)
    (hedge : ∀ i l b, P i → (t.Edge read (name i) l b ↔ ∃ j, edge i l j ∧ name j = b)) (w : List Char) :
    t.Recognizes read w ↔ ∃ j, Route edge i w j ∧ P j ∧ t.isAccepting (name j) = true := by
  unfold Recognizes
  simp only [hstart, Route.map_iff hkept hedge hi]
  constructor
  · rintro ⟨b, ⟨j, hroute, hj, rfl⟩, haccepting⟩
    exact ⟨j, hroute, hj, haccepting⟩
  · rintro ⟨j, hroute, hj, haccepting⟩
    exact ⟨name j, ⟨j, hroute, hj, rfl⟩, haccepting⟩

end Table

namespace Dfa

variable {d : Dfa} {i j : Nat} {c : Char} {w : List Char} {read : Char → Label}

def Edge (d : Dfa) (i : Nat) (l : Label) (j : Nat) : Prop := ∃ c, l = .char c ∧ d.transition? i c = some j

theorem route_iff : Route d.Edge i w j ↔ d.walk? i w = some j := by
  constructor
  · intro h
    refine h.carry (P := fun i w => d.walk? i w = some j) rfl ?_
    rintro i l k w ⟨c, rfl, hk⟩ hw
    rw [Label.read, walk?, hk]
    exact hw
  · intro h
    induction w generalizing i with
    | nil =>
      obtain rfl := Option.some.inj h
      exact .nil i
    | cons c w ih =>
      obtain ⟨k, hk, hw⟩ := Option.bind_eq_some_iff.mp h
      exact .step ⟨c, rfl, hk⟩ (ih hw)

/-- Characters that some transition is on stand for themselves. -/
def Spells (d : Dfa) (read : Char → Label) : Prop := ∀ i c j, d.transition? i c = some j → read c = .char c

theorem spells_ofEdges (start : String) (accepting : List String) {edges : List NamedEdge}
    (hread : ∀ e ∈ edges, read e.symbol = .char e.symbol) : (ofEdges start accepting edges).Spells read := by
  intro i c j hj
  obtain ⟨st, hst, hlookup⟩ := transition?_eq_some hj
  obtain ⟨name, hname⟩ := edges_ofEdges hst
  have hmem := Listing.mem_of_lookup hlookup
  rw [hname] at hmem
  obtain ⟨e, he, rfl, -⟩ := exists_named_of_mem_edgesFrom hmem
  exact hread e he

theorem spells_empty (read : Char → Label) : Dfa.empty.Spells read := by
  intro i c j hj
  have hlt : i < 0 := lt_size_of_transition? hj
  omega

theorem Constructed.spells_minimize (h : d.Constructed) (hread : d.Spells read) : d.minimize.dfa.Spells read := by
  intro i c j hj
  rcases Nat.eq_zero_or_pos d.size with hsize | hpos
  · rw [minimize_of_size_eq_zero hsize] at hj
    obtain ⟨st, hst, hlookup⟩ := transition?_eq_some hj
    rw [(state_lone hst).2] at hlookup
    cases hlookup
  · have hd := h.wellFormed hpos
    obtain ⟨s, hs, rfl⟩ := exists_classOf hd (lt_size_of_transition? hj)
    rw [transition?_minimize hd hs] at hj
    obtain ⟨t, ht, -⟩ := Option.map_eq_some_iff.mp hj
    exact hread s c t ht

theorem edge_table_iff (h : d.Distinct) (hd : d.WellFormed) (hread : d.Spells read) (hi : i < d.size) (l : Label)
    (b : String) : d.table.Edge read (d.nameOf i) l b ↔ ∃ j, d.Edge i l j ∧ d.nameOf j = b := by
  unfold Table.Edge
  simp only [targets_table h hd hi, Option.mem_toList, Option.map_eq_some_iff]
  constructor
  · rintro ⟨c, rfl, j, hj, rfl⟩
    exact ⟨j, ⟨c, hread i c j hj, hj⟩, rfl⟩
  · rintro ⟨j, ⟨c, rfl, hj⟩, rfl⟩
    exact ⟨c, hread i c j hj, j, hj, rfl⟩

theorem not_recognizes_of_size_eq_zero (hd : d.Constructed) (hsize : d.size = 0) :
    ¬ d.table.Recognizes read w := by
  rintro ⟨b, -, haccepting⟩
  have hstates : d.table.states.entries = [] := by
    rw [entries_table hd.distinct, Array.toList_eq_nil_iff.mpr (Array.eq_empty_of_size_eq_zero hsize)]
    rfl
  rw [Table.isAccepting, Listing.get?, hstates] at haccepting
  cases haccepting

/-- The table of a deterministic automaton recognizes the words that the automaton accepts. -/
theorem Constructed.recognizes_table_iff (h : d.Constructed) (hread : d.Spells read) (w : List Char) :
    d.table.Recognizes read w ↔ d.accepts w = true := by
  rcases Nat.eq_zero_or_pos d.size with hsize | hpos
  · refine iff_of_false (not_recognizes_of_size_eq_zero h hsize) ?_
    rw [accepts_of_size_eq_zero hsize]
    exact Bool.false_ne_true
  · have hd := h.wellFormed hpos
    have hkept (i : Nat) (l : Label) (j : Nat) (_ : i < d.size) (he : d.Edge i l j) : j < d.size := by
      obtain ⟨c, -, hj⟩ := he
      exact hd.transition?_lt hj
    rw [Table.recognizes_iff d.start_table hd.start_lt hkept fun i l b hi => edge_table_iff h.distinct hd hread hi l b,
      accepts, Option.any_eq_true]
    simp only [route_iff]
    constructor
    · rintro ⟨j, hwalk, hj, haccepting⟩
      rw [isAccepting_table h.distinct hj] at haccepting
      exact ⟨j, hwalk, haccepting⟩
    · rintro ⟨j, hwalk, haccepting⟩
      have hj := hd.walk?_lt hd.start_lt hwalk
      rw [← isAccepting_table h.distinct hj] at haccepting
      exact ⟨j, hwalk, hj, haccepting⟩

end Dfa

/-- Some word leads along a route exactly if some labels do. -/
theorem Route.exists_iff {σ : Type} {edge : σ → Label → σ → Prop} {i j : σ} :
    (∃ w, Route edge i w j) ↔ Relation.ReflTransGen (fun i j => ∃ l, edge i l j) i j := by
  constructor
  · rintro ⟨w, h⟩
    induction h with
    | nil i => exact .refl
    | step he _ ih => exact .head ⟨_, he⟩ ih
  · intro h
    induction h using Relation.ReflTransGen.head_induction_on with
    | refl => exact ⟨[], .nil j⟩
    | head he _ ih =>
      obtain ⟨l, he⟩ := he
      obtain ⟨w, hw⟩ := ih
      exact ⟨l.read w, .step he hw⟩

namespace Nfa

variable {n : Nfa} {lo : Nat} {i j : Nat} {l : Label} {w : List Char} {L : Language Char}

def edgesOf (n : Nfa) (i : Nat) : Listing Label (List Nat) := ((n.state? i).map State.edges).getD .empty

theorem edge_iff : n.Edge i l j ↔ ∃ ts, (l, ts) ∈ (n.edgesOf i).entries ∧ j ∈ ts := by
  have htargets : n.targets i l = ((n.edgesOf i).get? l).getD [] := by
    rw [targets, edgesOf]
    cases n.state? i <;> rfl
  simp only [Edge, htargets, ← Listing.get?_eq_some_iff]
  cases (n.edgesOf i).get? l with
  | none => simp
  | some ts => simp

theorem exists_edge_iff_mem_edgesOf : (∃ l, n.Edge i l j) ↔ j ∈ (n.edgesOf i).entries.flatMap Prod.snd := by
  simp only [edge_iff, List.mem_flatMap, Prod.exists]

/-- The search behind the table, with the edges out of an id of no state made explicit. -/
theorem reachable_eq (n : Nfa) : n.reachable = (Expansion.ofRoots (fun i : Nat => i)
    (fun i => ((n.edgesOf i).entries.flatMap Prod.snd).map fun t => ((), t))
    (n.size + 1) [n.start]).found.values.toList := by
  have hnext (i : Nat) : ((n.state? i).map fun s => s.edges.entries.flatMap Prod.snd).getD [] =
      (n.edgesOf i).entries.flatMap Prod.snd := by
    rw [edgesOf]
    cases n.state? i <;> rfl
  rw [reachable]
  simp only [hnext]

/-- The table lists the states that words lead to. -/
theorem mem_reachable (h : n.Sound lo) : i ∈ n.reachable ↔ ∃ w, Route n.Edge n.start w i := by
  let next (i : Nat) : List (Unit × Nat) := ((n.edgesOf i).entries.flatMap Prod.snd).map fun t => ((), t)
  let U := Finset.Ico (max lo n.firstId) (n.firstId + n.size)
  have hmem (i : Nat) : i ∈ U ↔ lo ≤ i ∧ n.firstId ≤ i ∧ i < n.firstId + n.size := by
    rw [Finset.mem_Ico, max_le_iff, and_assoc]
  have hedge (a b : Nat) : (∃ l, (l, b) ∈ next a) ↔ ∃ l, n.Edge a l b := by
    rw [exists_edge_iff_mem_edgesOf]
    simp [next]
  have hnext : ∀ a ∈ U, ∀ edge ∈ next a, edge.2 ∈ U := by
    intro a ha edge hmove
    obtain ⟨l, hl⟩ := (hedge a edge.2).mp ⟨edge.1, hmove⟩
    exact (hmem edge.2).mpr (h.target a l edge.2 ((hmem a).mp ha).1 hl)
  have hroots : ∀ a ∈ [n.start], a ∈ U := List.forall_mem_singleton.mpr ((hmem n.start).mpr h.start_mem)
  have hcard : U.card ≤ n.size + 1 := by
    rw [Nat.card_Ico]
    omega
  have hexplored : Expansion.Explored next [n.start] (.ofRoots (fun i : Nat => i) next (n.size + 1) [n.start]) :=
    Expansion.explored_ofRoots next (n.size + 1) [n.start]
  have hfound := Expansion.mem_found_iff hexplored (Expansion.rows_size_ofRoots hroots hnext hcard)
    Function.injective_id (a := i)
  simp only [List.mem_singleton, exists_eq_left, hedge, ← Route.exists_iff] at hfound
  rw [reachable_eq, ← hfound, Numbering.mem_numbers_iff, Array.mem_toList_iff, Array.mem_iff_getElem?]
  simp only [exists_eq_right, next]

theorem nodup_reachable (n : Nfa) : n.reachable.Nodup := by
  rw [reachable_eq]
  exact Numbering.nodup_values _

def namedMoves (n : Nfa) (i : Nat) : List (String × Targets) :=
  (n.edgesOf i).entries.map fun e => (String.singleton e.1.symbol, .many (e.2.map stateName))

theorem Sound.state?_of_reachable (h : n.Sound lo) (hi : i ∈ n.reachable) :
    ∃ s, n.state? i = some s ∧ n.edgesOf i = s.edges := by
  obtain ⟨w, hw⟩ := (mem_reachable h).mp hi
  obtain ⟨-, hfirst, hlast⟩ := h.mem_of_route h.start_mem hw
  have hlt : i - n.firstId < n.states.size := by
    rw [size] at hlast
    omega
  have hs : n.state? i = some n.states[i - n.firstId] := by
    rw [state?, if_pos hfirst, Array.getElem?_eq_getElem hlt]
  exact ⟨_, hs, by rw [edgesOf, hs]; rfl⟩

/-- Every state that is reached defines an entry of the table. -/
theorem Sound.table_eq (h : n.Sound lo) : n.table = n.reachable.foldl
    (fun t i => t.define (stateName i) (i == n.terminal) (n.namedMoves i)) (.new (stateName n.start)) := by
  apply List.foldl_ext
  intro t i hi
  obtain ⟨s, hs, hedges⟩ := h.state?_of_reachable hi
  rw [hs, namedMoves, hedges]

theorem Sound.start_table (h : n.Sound lo) : n.table.start = stateName n.start := by
  rw [h.table_eq, Table.start_foldl_define stateName (· == n.terminal) n.namedMoves]
  rfl

theorem Sound.entries_table (h : n.Sound lo) : n.table.states.entries =
    n.reachable.map fun i => (stateName i, ⟨i == n.terminal, .ofList (n.namedMoves i)⟩) := by
  have hnames : (([] : List String) ++ n.reachable.map stateName).Nodup :=
    n.nodup_reachable.map stateName_injective
  rw [h.table_eq]
  exact Table.entries_foldl_define stateName (· == n.terminal) n.namedMoves (t := .new (stateName n.start)) hnames

theorem Sound.get?_table (h : n.Sound lo) (hi : i ∈ n.reachable) :
    n.table.states.get? (stateName i) = some ⟨i == n.terminal, .ofList (n.namedMoves i)⟩ := by
  rw [Listing.get?_eq_some_iff, h.entries_table]
  exact List.mem_map_of_mem (f := fun i => (stateName i, _)) hi

theorem Sound.isAccepting_table (h : n.Sound lo) (hi : i ∈ n.reachable) :
    n.table.isAccepting (stateName i) = true ↔ i = n.terminal := by
  rw [Table.isAccepting, h.get?_table hi]
  exact beq_iff_eq

def EpsilonFree (n : Nfa) (lo : Nat) : Prop := ∀ i j, lo ≤ i → ¬ n.Edge i (.char epsilon) j

theorem EpsilonFree.ofKey_symbol (hfree : n.EpsilonFree lo) (h : n.Sound lo) (hlo : lo ≤ i) {e : Label × List Nat}
    (he : e ∈ (n.edgesOf i).entries) : Label.ofKey e.1.symbol = e.1 := by
  apply Label.ofKey_symbol
  intro hlabel
  rw [edgesOf] at he
  cases hs : n.state? i with
  | none =>
    rw [hs] at he
    cases he
  | some s =>
    rw [hs, Option.map_some, Option.getD_some] at he
    -- A label is only listed with a target, so there would be an edge on the character.
    have hne := h.listed i s e.1 e.2 hlo hs (Listing.get?_eq_some_iff.mpr he)
    obtain ⟨j, hj⟩ := List.exists_mem_of_ne_nil _ hne
    refine hfree i j hlo (edge_iff.mpr ⟨e.2, ?_, hj⟩)
    rw [edgesOf, hs, ← hlabel]
    exact he

theorem EpsilonFree.nodup_keys_namedMoves (hfree : n.EpsilonFree lo) (h : n.Sound lo) (hlo : lo ≤ i) :
    ((n.namedMoves i).map Prod.fst).Nodup := by
  have hkeys : (n.namedMoves i).map Prod.fst = (n.edgesOf i).keys.map fun l => String.singleton l.symbol := by
    rw [namedMoves, Listing.keys, List.map_map, List.map_map]
    rfl
  rw [hkeys]
  apply (n.edgesOf i).nodup_keys.map_on
  intro l hl l' hl' hsymbol
  obtain ⟨e, he, rfl⟩ := List.mem_map.mp hl
  obtain ⟨e', he', rfl⟩ := List.mem_map.mp hl'
  rw [← hfree.ofKey_symbol h hlo he, ← hfree.ofKey_symbol h hlo he', singleton_injective hsymbol]

theorem EpsilonFree.mem_targets_table (hfree : n.EpsilonFree lo) (h : n.Sound lo) (hi : i ∈ n.reachable)
    (hlo : lo ≤ i) {c : Char} {b : String} : b ∈ n.table.targets (stateName i) (String.singleton c) ↔
      ∃ e ∈ (n.edgesOf i).entries, e.1.symbol = c ∧ ∃ j ∈ e.2, stateName j = b := by
  have hmove (m : Targets) : (Listing.ofList (n.namedMoves i)).get? (String.singleton c) = some m ↔
      ∃ e ∈ (n.edgesOf i).entries, e.1.symbol = c ∧ .many (e.2.map stateName) = m := by
    rw [Listing.get?_eq_some_iff, Listing.entries_ofList (hfree.nodup_keys_namedMoves h hlo), namedMoves, List.mem_map]
    simp only [Prod.ext_iff, singleton_injective.eq_iff]
  rw [Table.targets, Table.moves, h.get?_table hi, Option.map_some, Option.getD_some]
  constructor
  · intro hb
    cases hget : (Listing.ofList (n.namedMoves i)).get? (String.singleton c) with
    | none =>
      rw [hget] at hb
      cases hb
    | some m =>
      obtain ⟨e, he, hc, rfl⟩ := (hmove m).mp hget
      rw [hget] at hb
      exact ⟨e, he, hc, List.mem_map.mp hb⟩
  · rintro ⟨e, he, hc, hb⟩
    rw [(hmove _).mpr ⟨e, he, hc, rfl⟩]
    exact List.mem_map.mpr hb

theorem EpsilonFree.edge_table_iff (hfree : n.EpsilonFree lo) (h : n.Sound lo) (hi : i ∈ n.reachable) (hlo : lo ≤ i)
    (l : Label) (b : String) :
    n.table.Edge Label.ofKey (stateName i) l b ↔ ∃ j, n.Edge i l j ∧ stateName j = b := by
  simp only [Table.Edge, hfree.mem_targets_table h hi hlo, edge_iff]
  constructor
  · rintro ⟨c, rfl, e, he, rfl, j, hj, rfl⟩
    rw [hfree.ofKey_symbol h hlo he]
    exact ⟨j, ⟨e.2, he, hj⟩, rfl⟩
  · rintro ⟨j, ⟨ts, he, hj⟩, rfl⟩
    exact ⟨l.symbol, hfree.ofKey_symbol h hlo he, (l, ts), he, rfl, j, hj, rfl⟩

/-- The table of a nondeterministic automaton recognizes the words that the automaton accepts. -/
theorem EpsilonFree.recognizes_table_iff (hfree : n.EpsilonFree lo) (h : n.Sound lo) (w : List Char) :
    n.table.Recognizes Label.ofKey w ↔ n.accepts w = true := by
  have hreachable (i : Nat) : i ∈ n.reachable ↔ ∃ w, Route n.Edge n.start w i := mem_reachable h
  have hstart : n.start ∈ n.reachable := (hreachable n.start).mpr ⟨[], .nil _⟩
  have hlo (i : Nat) (hi : i ∈ n.reachable) : lo ≤ i := by
    obtain ⟨w, hw⟩ := (hreachable i).mp hi
    exact h.le_of_route h.start_mem.1 hw
  have hkept (i : Nat) (l : Label) (j : Nat) (hi : i ∈ n.reachable) (he : n.Edge i l j) : j ∈ n.reachable := by
    obtain ⟨w, hw⟩ := (hreachable i).mp hi
    exact (hreachable j).mpr ⟨_, hw.trans (.step he (.nil j))⟩
  rw [Table.recognizes_iff h.start_table hstart hkept fun i l b hi => hfree.edge_table_iff h hi (hlo i hi) l b,
    accepts_iff]
  constructor
  · rintro ⟨j, hroute, hj, haccepting⟩
    rw [h.isAccepting_table hj] at haccepting
    exact haccepting ▸ hroute
  · intro hroute
    have hterminal := (hreachable n.terminal).mpr ⟨w, hroute⟩
    exact ⟨n.terminal, hroute, hterminal, (h.isAccepting_table hterminal).mpr rfl⟩

/-- If no accepted word contains ε, no edge is on it. -/
theorem Faithful.epsilonFree (h : n.Faithful lo L) (hL : ∀ w ∈ L, epsilon ∉ w) : n.EpsilonFree lo := by
  intro i j hlo he
  obtain ⟨w, hw, hepsilon⟩ := h.exists_mem_of_edge hlo he
  exact hL w hw hepsilon

end Nfa

namespace Table

/-- Every exported table, read as an automaton, accepts the words of the automaton it was exported from. In the
tables of a pattern ε is an empty move. An automaton of named edges may be read with any keys that stand for
themselves, so with ε as a character like any other, or as an empty move if no edge is on it. -/
theorem recognizes_exported :
    (∀ pattern stages, compile pattern = .ok stages → ∀ w,
      (stages.nfa.table.Recognizes Label.ofKey w ↔ stages.nfa.accepts w = true) ∧
      (stages.dfa.table.Recognizes Label.ofKey w ↔ stages.dfa.accepts w = true) ∧
      (stages.minimal.dfa.table.Recognizes Label.ofKey w ↔ stages.minimal.dfa.accepts w = true)) ∧
    (∀ start accepting edges read, (∀ e ∈ edges, read e.symbol = .char e.symbol) → ∀ w,
      ((Dfa.ofEdges start accepting edges).table.Recognizes read w ↔
        (Dfa.ofEdges start accepting edges).accepts w = true) ∧
      ((Dfa.ofEdges start accepting edges).minimize.dfa.table.Recognizes read w ↔
        (Dfa.ofEdges start accepting edges).minimize.dfa.accepts w = true)) ∧
    ∀ read w, (Dfa.empty.table.Recognizes read w ↔ Dfa.empty.accepts w = true) ∧
      (Dfa.empty.minimize.dfa.table.Recognizes read w ↔ Dfa.empty.minimize.dfa.accepts w = true) := by
  refine ⟨?_, ?_, ?_⟩
  · intro pattern stages h w
    obtain ⟨n, hn, rfl⟩ := compile_eq_ok_iff.mp h
    have hfaithful := Grammar.faithful_of_ofPattern? hn
    have hfree := hfaithful.epsilonFree fun w hw => Grammar.epsilon_not_mem hn hw
    -- The automaton is trim, so a transition on ε would be part of an accepted word.
    have hspells : n.toDfa.Spells Label.ofKey := by
      intro i c j hj
      obtain ⟨w, hc, hw⟩ := hfaithful.trim_toDfa.exists_accepts n.wellFormed_toDfa hj
      rw [Nfa.accepts_toDfa hfaithful.sound, hfaithful.accepts_iff] at hw
      apply Label.ofKey_eq_char
      rintro rfl
      exact Grammar.epsilon_not_mem hn hw hc
    have hmade : n.toDfa.Constructed := .toDfa n
    exact ⟨hfree.recognizes_table_iff hfaithful.sound w, hmade.recognizes_table_iff hspells w,
      hmade.minimize.recognizes_table_iff (hmade.spells_minimize hspells) w⟩
  · intro start accepting edges read hread w
    have hspells := Dfa.spells_ofEdges start accepting hread
    have hmade : (Dfa.ofEdges start accepting edges).Constructed := .ofEdges start accepting edges
    exact ⟨hmade.recognizes_table_iff hspells w,
      hmade.minimize.recognizes_table_iff (hmade.spells_minimize hspells) w⟩
  · intro read w
    have hspells := Dfa.spells_empty read
    exact ⟨Dfa.Constructed.empty.recognizes_table_iff hspells w,
      Dfa.Constructed.empty.minimize.recognizes_table_iff (Dfa.Constructed.empty.spells_minimize hspells) w⟩

/-- An empty move is followed in the table of a pattern, and ε is read in that of an automaton with an edge on it,
one of whose states is called like the key of a record. -/
theorem recognizes_exported_of_reserved_names : ∃ stages, compile "(a|b)*" = .ok stages ∧
    (stages.nfa.table.Recognizes Label.ofKey ['b'] ↔ stages.nfa.accepts ['b'] = true) ∧
    (stages.dfa.table.Recognizes Label.ofKey ['b'] ↔ stages.dfa.accepts ['b'] = true) ∧
    (stages.minimal.dfa.table.Recognizes Label.ofKey ['b'] ↔ stages.minimal.dfa.accepts ['b'] = true) ∧
    ∃ d : Dfa, d = .ofEdges "startingState" [""] [⟨"startingState", 'ε', ""⟩, ⟨"", 'a', "startingState"⟩] ∧
      (d.table.Recognizes Label.char ['ε'] ↔ d.accepts ['ε'] = true) ∧
      (d.minimize.dfa.table.Recognizes Label.char ['ε'] ↔ d.minimize.dfa.accepts ['ε'] = true) := by
  obtain ⟨n, hn, h⟩ := exists_compile_of_isOk "(a|b)*" (by decide +kernel)
  have htables := recognizes_exported.1 _ _ h ['b']
  exact ⟨_, h, htables.1, htables.2.1, htables.2.2, _, rfl,
    recognizes_exported.2.1 _ _ _ Label.char (fun _ _ => rfl) ['ε']⟩

end Table

end PatternAutomata
