import PatternAutomata.Proofs.Dfa.Constructed

namespace PatternAutomata

namespace Dfa

variable {start name name' : String} {accepting names : List String} {edges : List NamedEdge} {e : NamedEdge} {c : Char}
  {w : List Char} {i : Nat}

def mentions (start : String) (accepting : List String) (edges : List NamedEdge) : List String :=
  start :: edges.flatMap (fun e => [e.source, e.target]) ++ accepting

theorem mentioned_eq : mentioned start accepting edges = (mentions start accepting edges).eraseDups := rfl

/-- The edge is listed, and none after it is for the same name and character. -/
def IsLast (edges : List NamedEdge) (e : NamedEdge) : Prop :=
  ∃ before after, edges = before ++ e :: after ∧ ∀ later ∈ after, later.source = e.source → later.symbol ≠ e.symbol

theorem IsLast.mem (h : IsLast edges e) : e ∈ edges := by
  obtain ⟨before, after, rfl, -⟩ := h
  simp

theorem find?_reverse_eq_some_iff : (edges.filter (·.source == name)).reverse.find? (·.symbol == c) = some e ↔
    IsLast edges e ∧ e.source = name ∧ e.symbol = c := by
  rw [← List.filter_reverse, List.find?_filter, List.find?_eq_some_iff_append]
  simp only [beq_iff_eq, decide_eq_true_eq, Bool.not_eq_eq_eq_not, Bool.not_true, decide_eq_false_iff_not, not_and]
  constructor
  · rintro ⟨⟨rfl, rfl⟩, after, before, hedges, hafter⟩
    refine ⟨⟨before.reverse, after.reverse, ?_, ?_⟩, rfl, rfl⟩
    · rw [← List.reverse_inj, hedges]
      simp
    · intro later hlater
      exact hafter later (List.mem_reverse.mp hlater)
  · rintro ⟨⟨before, after, rfl, hafter⟩, rfl, rfl⟩
    refine ⟨⟨rfl, rfl⟩, after.reverse, before.reverse, by simp, ?_⟩
    intro later hlater
    exact hafter later (List.mem_reverse.mp hlater)

theorem mem_edgesFrom_iff : (c, i) ∈ edgesFrom names edges name ↔
    ∃ e, IsLast edges e ∧ e.source = name ∧ e.symbol = c ∧ names.idxOf e.target = i := by
  simp only [edgesFrom, List.mem_filterMap, Option.map_eq_some_iff, find?_reverse_eq_some_iff, Prod.mk.injEq]
  constructor
  · rintro ⟨_, -, e, ⟨hlast, hsource, rfl⟩, rfl, hi⟩
    exact ⟨e, hlast, hsource, rfl, hi⟩
  · rintro ⟨e, hlast, hsource, hsymbol, hi⟩
    refine ⟨c, ?_, e, ⟨hlast, hsource, hsymbol⟩, rfl, hi⟩
    rw [mem_ascending, ← hsymbol]
    exact List.mem_map_of_mem (List.mem_filter.mpr ⟨hlast.mem, by simp [hsource]⟩)

/-- The state of a name. -/
theorem state_ofEdges (h : name ∈ mentioned start accepting edges) :
    (ofEdges start accepting edges).states[(mentioned start accepting edges).idxOf name]? =
      some ⟨name, [], accepting.contains name, edgesFrom (mentioned start accepting edges) edges name⟩ := by
  rw [ofEdges_eq, List.getElem?_toArray, List.getElem?_map, List.getElem?_idxOf h, Option.map_some]

theorem transition?_ofEdges_iff (h : name ∈ mentioned start accepting edges) :
    (ofEdges start accepting edges).transition? ((mentioned start accepting edges).idxOf name) c = some i ↔
      ∃ e, IsLast edges e ∧ e.source = name ∧ e.symbol = c ∧ (mentioned start accepting edges).idxOf e.target = i := by
  rw [transition?, state_ofEdges h, Option.bind_some, lookup_eq_some_iff edgesFrom_sorted, mem_edgesFrom_iff]

/-- A walk among names that takes, for each character, the last edge that is listed for it. -/
inductive Leads (edges : List NamedEdge) : String → List Char → String → Prop
  | nil (name : String) : Leads edges name [] name
  | step {e : NamedEdge} {w : List Char} {name : String} (he : IsLast edges e) (h : Leads edges e.target w name) :
      Leads edges e.source (e.symbol :: w) name

theorem Leads.mem_mentioned (h : Leads edges name w name') (hname : name ∈ mentioned start accepting edges) :
    name' ∈ mentioned start accepting edges := by
  induction h with
  | nil => exact hname
  | step he _ ih => exact ih (target_mem_mentioned he.mem)

theorem walk?_ofEdges_iff (h : name ∈ mentioned start accepting edges) :
    (ofEdges start accepting edges).walk? ((mentioned start accepting edges).idxOf name) w = some i ↔
      ∃ name', Leads edges name w name' ∧ (mentioned start accepting edges).idxOf name' = i := by
  -- Names and their numbers walk side by side; only names that are mentioned have a number of their own.
  induction w generalizing name with
  | nil =>
    rw [walk?, Option.some.injEq]
    constructor
    · intro hi
      exact ⟨name, .nil name, hi⟩
    · rintro ⟨name', hleads, hi⟩
      cases hleads
      exact hi
  | cons c w ih =>
    rw [walk?, Option.bind_eq_some_iff]
    constructor
    · rintro ⟨j, hj, hwalk⟩
      obtain ⟨e, he, rfl, rfl, rfl⟩ := (transition?_ofEdges_iff h).mp hj
      obtain ⟨name', hleads, hi⟩ := (ih (target_mem_mentioned he.mem)).mp hwalk
      exact ⟨name', .step he hleads, hi⟩
    · rintro ⟨name', hleads, hi⟩
      cases hleads with
      | @step e _ _ he hrest =>
        exact ⟨_, (transition?_ofEdges_iff h).mpr ⟨e, he, rfl, rfl, rfl⟩,
          (ih (target_mem_mentioned he.mem)).mpr ⟨name', hrest, hi⟩⟩

theorem accepts_ofEdges_iff : (ofEdges start accepting edges).accepts w = true ↔
    ∃ name ∈ accepting, Leads edges start w name := by
  have hstart : (ofEdges start accepting edges).start = (mentioned start accepting edges).idxOf start := by
    rw [mentioned_eq, mentions, List.cons_append, List.eraseDups_cons, List.idxOf_cons_self]
    rfl
  rw [accepts, hstart, Option.any_eq_true]
  simp only [walk?_ofEdges_iff start_mem_mentioned]
  constructor
  · rintro ⟨_, ⟨name, hleads, rfl⟩, haccepting⟩
    rw [isAccepting, state_ofEdges (hleads.mem_mentioned start_mem_mentioned)] at haccepting
    exact ⟨name, List.contains_iff_mem.mp haccepting, hleads⟩
  · rintro ⟨name, haccepting, hleads⟩
    refine ⟨_, ⟨name, hleads, rfl⟩, ?_⟩
    rw [isAccepting, state_ofEdges (hleads.mem_mentioned start_mem_mentioned)]
    exact List.contains_iff_mem.mpr haccepting

def stateNames (d : Dfa) : List String := d.states.toList.map (·.name)

theorem stateNames_ofEdges : (ofEdges start accepting edges).stateNames = mentioned start accepting edges := by
  rw [stateNames, ofEdges_eq, List.map_map]
  exact List.map_id _

/-- The automaton stands for the edges: it has one state for each name mentioned, in the order of first mention, its
transitions lead to states, and it accepts the words that lead from the start to an accepting name. -/
structure Realizes (d : Dfa) (start : String) (accepting : List String) (edges : List NamedEdge) : Prop where
  accepts_iff : ∀ w, d.accepts w = true ↔ ∃ name ∈ accepting, Leads edges start w name
  mem_names : ∀ name, name ∈ d.stateNames ↔ name ∈ mentions start accepting edges
  nodup_names : d.stateNames.Nodup
  ordered : d.stateNames.Pairwise fun name later =>
    (mentions start accepting edges).idxOf name < (mentions start accepting edges).idxOf later
  target_lt : ∀ (i : Nat) (s : State), d.states[i]? = some s → ∀ e ∈ s.edges, e.2 < d.size

theorem realizes_ofEdges (start : String) (accepting : List String) (edges : List NamedEdge) :
    (ofEdges start accepting edges).Realizes start accepting edges := by
  refine ⟨fun w => accepts_ofEdges_iff, ?_, ?_, ?_, (wellFormed_ofEdges start accepting edges).target_lt⟩
  · intro name
    rw [stateNames_ofEdges, mentioned_eq, List.mem_eraseDups]
  · rw [stateNames_ofEdges]
    exact nodup_eraseDups _
  · rw [stateNames_ofEdges]
    exact pairwise_eraseDups _

end Dfa

end PatternAutomata
