import PatternAutomata.Dfa.Minimal
import PatternAutomata.Proofs.Nfa.Shape

namespace PatternAutomata

namespace Listing

variable {κ α β : Type}

def mapValues (f : α → β) (l : Listing κ α) : Listing κ β :=
  ⟨l.entries.map fun e => (e.1, f e.2), by rw [List.map_map]; exact l.nodup_keys⟩

theorem keys_mapValues (f : α → β) (l : Listing κ α) : (l.mapValues f).keys = l.keys := by
  rw [keys, mapValues, List.map_map]
  rfl

variable [DecidableEq κ]

theorem get?_mapValues (f : α → β) (l : Listing κ α) (k : κ) : (l.mapValues f).get? k = (l.get? k).map f :=
  lookup_map_snd l.entries f k

theorem insert_mapValues (f : α → β) (l : Listing κ α) (k : κ) (a : α) :
    (l.mapValues f).insert k (f a) = (l.insert k a).mapValues f := by
  apply eq_of_entries_eq
  show putEntry k (f a) (l.entries.map fun e => (e.1, f e.2)) = (putEntry k a l.entries).map fun e => (e.1, f e.2)
  induction l.entries with
  | nil => rfl
  | cons e rest ih =>
    rw [List.map_cons, putEntry, putEntry, ih]
    split <;> rfl

theorem push_mapValues (f : α → β) (l : Listing κ (List α)) (k : κ) (a : α) :
    (l.mapValues (List.map f)).push k (f a) = (l.push k a).mapValues (List.map f) := by
  rw [push, push, ← insert_mapValues, get?_mapValues, List.map_append]
  cases l.get? k <;> rfl

end Listing

def shiftIds (k : Nat) (ids : List Nat) : List Nat := ids.map (· + k)

def Nfa.State.shift (k : Nat) (s : Nfa.State) : Nfa.State := ⟨s.id + k, s.edges.mapValues (shiftIds k)⟩

def Nfa.shift (k : Nat) (n : Nfa) : Nfa :=
  ⟨n.firstId + k, n.states.map (Nfa.State.shift k), n.start + k, n.terminal + k⟩

def Fragment.shift (k : Nat) (f : Fragment) : Fragment := ⟨f.entry + k, f.exit + k⟩

namespace Arena

def shift (k : Nat) (a : Arena) : Arena := ⟨a.firstId + k, a.states.map (Nfa.State.shift k)⟩

def Edge.shift (k : Nat) (e : Edge) : Edge := ⟨e.source + k, e.label, e.target + k⟩

variable (k : Nat) (a : Arena)

theorem connect_shift (e : Edge) : (a.shift k).connect (e.shift k) = (a.connect e).shift k := by
  have hindex : e.source + k - (a.firstId + k) = e.source - a.firstId := Nat.add_sub_add_right ..
  have hpush (s : Nfa.State) : { s.shift k with edges := (s.shift k).edges.push e.label (e.target + k) } =
      Nfa.State.shift k { s with edges := s.edges.push e.label e.target } :=
    congrArg (Nfa.State.mk (s.id + k)) (s.edges.push_mapValues (· + k) e.label e.target)
  simp only [connect, shift, Edge.shift, hindex, mk.injEq, true_and]
  apply Array.ext_getElem?
  intro i
  simp only [Array.getElem?_modify, Array.getElem?_map]
  split
  · simp only [Option.map_map, Function.comp_def, hpush]
  · rfl

theorem foldl_connect_shift (edges : List Edge) :
    (edges.map (Edge.shift k)).foldl connect (a.shift k) = (edges.foldl connect a).shift k := by
  induction edges generalizing a with
  | nil => rfl
  | cons e edges ih => rw [List.map_cons, List.foldl_cons, connect_shift, ih, List.foldl_cons]

theorem top_shift : (a.shift k).top = a.top + k := by
  rw [top, top, shift, Array.size_map, Nat.add_right_comm]

theorem twoMore_shift : (a.shift k).twoMore = a.twoMore.shift k := by
  have hentry : (a.shift k).top = a.top + k := top_shift k a
  have hexit : (a.shift k).top + 1 = a.top + 1 + k := by rw [hentry, Nat.add_right_comm]
  rw [twoMore, hexit, hentry, twoMore, shift, shift, Array.map_push, Array.map_push]
  rfl

theorem empty_shift (firstId : Nat) : (empty firstId).shift k = empty (firstId + k) := by
  rw [shift, empty, empty, Array.map_empty]

/-- From an arena moved up, `m'` gives what `m` gives, moved up. -/
def Lifts (m m' : StateM Arena Fragment) : Prop := ∀ a, m' (a.shift k) = ((m a).1.shift k, (m a).2.shift k)

variable {k}

theorem lifts_enclose {edges edges' : Nat → Nat → List Edge}
    (h : ∀ entry exit, edges' (entry + k) (exit + k) = (edges entry exit).map (Edge.shift k)) :
    Lifts k (enclose edges) (enclose edges') := by
  intro a
  have hentry : (a.shift k).top = a.top + k := top_shift k a
  have hexit : (a.shift k).top + 1 = a.top + 1 + k := by rw [hentry, Nat.add_right_comm]
  refine Prod.ext ?_ ?_
  · exact congrArg₂ Fragment.mk hentry hexit
  · rw [enclose_snd, enclose_snd, hexit, hentry, h, twoMore_shift, foldl_connect_shift]

theorem lifts_character (ch : Char) : Lifts k (character ch) (character ch) := by
  rw [character]
  apply lifts_enclose
  intro entry exit
  rfl

theorem lifts_repetition (r : Repetition) (f : Fragment) : Lifts k (repetition r f) (repetition r (f.shift k)) := by
  apply lifts_enclose
  intro entry exit
  cases r <;> rfl

theorem lifts_junction (j : Junction) (f g : Fragment) :
    Lifts k (construction.junction j f g) (construction.junction j (f.shift k) (g.shift k)) := by
  cases j with
  | concat =>
    intro a
    exact Prod.ext rfl (connect_shift k a ⟨f.exit, .empty, g.entry⟩)
  | alternate =>
    show Lifts k (alternate f g) (alternate (f.shift k) (g.shift k))
    rw [alternate, alternate]
    apply lifts_enclose
    intro entry exit
    rfl

theorem Lifts.bind {m m' : StateM Arena Fragment} {step step' : Fragment → StateM Arena Fragment} (h : Lifts k m m')
    (hstep : ∀ f, Lifts k (step f) (step' (f.shift k))) : Lifts k (m >>= step) (m' >>= step') := by
  intro a
  show step' (m' (a.shift k)).1 (m' (a.shift k)).2 = _
  rw [h a]
  exact hstep (m a).1 (m a).2

theorem lifts_fold {e : Expression} (he : e.Forward) : Lifts k (construction.fold e) (construction.fold e) := by
  refine fold_induction (P := fun m _ => Lifts k m m) lifts_character ?_ ?_ he
  · intro j m m' _ _ hm hm'
    exact hm.bind fun f => hm'.bind (lifts_junction j f)
  · intro r m _ hm
    exact hm.bind (lifts_repetition r)

theorem toNfa_shift (f : Fragment) : (a.shift k).toNfa (f.shift k) = (a.toNfa f).shift k := rfl

end Arena

namespace Nfa

variable (n : Nfa) (k : Nat)

theorem size_shift : (n.shift k).size = n.size := Array.size_map ..

theorem state?_shift (i : Nat) : (n.shift k).state? (i + k) = (n.state? i).map (State.shift k) := by
  simp only [state?, shift, Nat.add_le_add_iff_right, Nat.add_sub_add_right, Array.getElem?_map]
  split <;> rfl

theorem targets_shift (i : Nat) (l : Label) : (n.shift k).targets (i + k) l = shiftIds k (n.targets i l) := by
  rw [targets, targets, state?_shift]
  cases n.state? i with
  | none => rfl
  | some s =>
    simp only [Option.map_some, Option.bind_some, State.shift, Listing.get?_mapValues]
    cases s.edges.get? l <;> rfl

theorem edge_shift (i : Nat) (l : Label) (b : Nat) :
    (n.shift k).Edge (i + k) l b ↔ ∃ j, n.Edge i l j ∧ j + k = b := by
  rw [Edge, targets_shift, shiftIds, List.mem_map]
  rfl

theorem closure_shift (ids : List Nat) : (n.shift k).closure (shiftIds k ids) = shiftIds k (n.closure ids) := by
  have hsorted : (shiftIds k (n.closure ids)).Pairwise (· < ·) :=
    List.pairwise_map.mpr ((n.closure_sorted ids).imp fun h => Nat.add_lt_add_right h k)
  refine ((n.shift k).closure_sorted (shiftIds k ids)).eq_of_mem_iff hsorted ?_
  intro b
  have hroute (i : Nat) : Route (n.shift k).Edge (i + k) [] b ↔ ∃ j, Route n.Edge i [] j ∧ True ∧ j + k = b :=
    Route.map_iff (P := fun _ => True) (fun _ _ _ _ _ => trivial) (fun i l b _ => n.edge_shift k i l b) trivial
  simp only [shiftIds, List.mem_map, mem_closure, exists_exists_and_eq_and, hroute]
  constructor
  · rintro ⟨i, hi, j, hij, -, hj⟩
    exact ⟨j, ⟨i, hi, hij⟩, hj⟩
  · rintro ⟨j, ⟨i, hi, hij⟩, hj⟩
    exact ⟨i, hi, j, hij, trivial, hj⟩

theorem step_shift (ids : List Nat) (c : Char) : (n.shift k).step (shiftIds k ids) c = shiftIds k (n.step ids c) := by
  have htargets : (shiftIds k ids).flatMap (fun i => (n.shift k).targets i (.char c)) =
      shiftIds k (ids.flatMap fun i => n.targets i (.char c)) := by
    simp only [shiftIds, List.flatMap_map, List.map_flatMap]
    congr 1
    funext i
    exact n.targets_shift k i (.char c)
  rw [step, htargets, closure_shift, step]

theorem moves_shift (ids : List Nat) :
    (n.shift k).moves (shiftIds k ids) = (n.moves ids).map fun edge => (edge.1, shiftIds k edge.2) := by
  have hsymbols (i : Nat) :
      (((n.shift k).state? (i + k)).map fun s => s.edges.keys.filterMap Label.char?).getD [] =
        ((n.state? i).map fun s => s.edges.keys.filterMap Label.char?).getD [] := by
    rw [state?_shift]
    cases n.state? i with
    | none => rfl
    | some s => simp only [Option.map_some, State.shift, Listing.keys_mapValues]
  have hall : (shiftIds k ids).flatMap (fun i =>
      (((n.shift k).state? i).map fun s => s.edges.keys.filterMap Label.char?).getD []) =
        ids.flatMap fun i => ((n.state? i).map fun s => s.edges.keys.filterMap Label.char?).getD [] := by
    rw [shiftIds, List.flatMap_map]
    congr 1
    funext i
    exact hsymbols i
  rw [moves, moves, hall, List.map_map]
  apply List.map_congr_left
  intro c _
  exact congrArg (c, ·) (n.step_shift k ids c)

/-- Where the shifted automaton can be is where the automaton can be, moved up. -/
theorem renames_subsets : n.subsets.Renames (shiftIds k) (n.shift k).subsets := by
  have hinjective (xs ys : List Nat) : shiftIds k xs = shiftIds k ys ↔ xs = ys :=
    (List.map_injective_iff.mpr fun _ _ => Nat.add_right_cancel).eq_iff
  have hroots : [(n.shift k).closure [(n.shift k).start]] = [n.closure [n.start]].map (shiftIds k) :=
    congrArg ([·]) (n.closure_shift k [n.start])
  rw [subsets, subsets, size_shift, hroots]
  exact Expansion.renames_ofRoots (f := shiftIds k) hinjective (n.moves_shift k) _ _

end Nfa

namespace Dfa

def mapSubsets (f : List Nat → List Nat) (d : Dfa) : Dfa :=
  ⟨d.states.map fun s => { s with subset := f s.subset }, d.start⟩

variable (f : List Nat → List Nat) (d : Dfa)

theorem size_mapSubsets : (d.mapSubsets f).size = d.size := Array.size_map ..

theorem isAccepting_mapSubsets : (d.mapSubsets f).isAccepting = d.isAccepting := by
  funext i
  rw [isAccepting, isAccepting, mapSubsets, Array.getElem?_map]
  cases d.states[i]? <;> rfl

theorem transition?_mapSubsets : (d.mapSubsets f).transition? = d.transition? := by
  funext i c
  rw [transition?, transition?, mapSubsets, Array.getElem?_map]
  cases d.states[i]? <;> rfl

theorem symbolsOf_mapSubsets : (d.mapSubsets f).symbolsOf = d.symbolsOf := by
  funext block
  rw [symbolsOf, symbolsOf]
  congr 2
  funext s
  rw [mapSubsets, Array.getElem?_map]
  cases d.states[s]? <;> rfl

theorem signature_mapSubsets : (d.mapSubsets f).signature = d.signature := by
  funext blockOf symbols state
  rw [signature, signature, transition?_mapSubsets]

theorem splitBlock_mapSubsets : (d.mapSubsets f).splitBlock = d.splitBlock := by
  funext blockOf block
  simp only [splitBlock, signature_mapSubsets, symbolsOf_mapSubsets]

theorem refine_mapSubsets : (d.mapSubsets f).refine = d.refine := by
  funext partition
  simp only [refine, splitBlock_mapSubsets, size_mapSubsets]

theorem refineAll_mapSubsets (rounds : Nat) (partition : List (List Nat)) :
    (d.mapSubsets f).refineAll rounds partition = d.refineAll rounds partition := by
  induction rounds generalizing partition with
  | zero => rfl
  | succ rounds ih => simp only [refineAll, refine_mapSubsets, ih]

/-- The sets behind the states have no part in which states go together. -/
theorem blocks_mapSubsets : (d.mapSubsets f).minimize.blocks = d.minimize.blocks := by
  have hclasses : (d.mapSubsets f).classes = d.classes := by
    simp only [classes, firstPartition, refineAll_mapSubsets, size_mapSubsets, isAccepting_mapSubsets]
  rw [minimize, minimize, size_mapSubsets, hclasses]
  split <;> rfl

end Dfa

namespace Nfa

variable (n : Nfa) (k : Nat)

theorem contains_shiftIds (ids : List Nat) (i : Nat) : (shiftIds k ids).contains (i + k) = ids.contains i := by
  apply Bool.eq_iff_iff.mpr
  rw [List.contains_iff_mem, List.contains_iff_mem, shiftIds, List.mem_map]
  simp

/-- The subset construction gives the same automaton, on sets of ids moved up. -/
theorem toDfa_shift : (n.shift k).toDfa = n.toDfa.mapSubsets (shiftIds k) := by
  obtain ⟨hfound, hrows⟩ := n.renames_subsets k
  have hstates : (n.shift k).toDfa.states =
      n.toDfa.states.map fun s => { s with subset := shiftIds k s.subset } := by
    apply Array.ext_getElem?
    intro i
    show ((n.shift k).subsets.found.values.mapIdx _)[i]? = ((n.subsets.found.values.mapIdx _).map _)[i]?
    rw [Array.getElem?_mapIdx, Array.getElem?_map, Array.getElem?_mapIdx, hfound, hrows, Array.getElem?_map,
      Option.map_map, Option.map_map]
    congr 1
    funext ids
    simp only [Function.comp_apply, Dfa.State.mk.injEq, and_true, true_and]
    exact contains_shiftIds k ids n.terminal
  rw [Dfa.mapSubsets, ← hstates]
  rfl

variable {n} {pattern : String}

/-- At an offset the same is built, with ids moved up, unless some id is past the last. -/
theorem ofPatternAt?_eq (h : ofPattern? pattern = .ok n) (k : Nat) :
    ofPatternAt? k pattern = if Arena.idLimit < k + n.size then .error .idOverflow else .ok (.ok (n.shift k)) := by
  obtain ⟨e, he, hpostfix, rfl⟩ := ofPattern?_eq_ok_iff.mp h
  have hbuilt := Arena.lifts_fold (k := k) he (.empty 0)
  have hfirst : (Arena.construction.fold e (.empty 0)).2.firstId = 0 := by
    obtain ⟨L, hgrown⟩ := (Arena.shaped_fold (.empty 0) he).grown
    exact hgrown.grows.firstId_eq
  rw [Arena.empty_shift, Nat.zero_add] at hbuilt
  rw [ofPatternAt?, hpostfix]
  show ofPostfix? (.empty k) pattern e.postorder = _
  rw [ofPostfix?, Arena.build_postorder _ _ he, hbuilt]
  generalize Arena.construction.fold e (.empty 0) = built at hfirst
  obtain ⟨f, a⟩ := built
  have hoverflows : (a.shift k).overflows = decide (Arena.idLimit < k + (a.toNfa f).size) := by
    have hids : (a.shift k).firstId + (a.shift k).states.size = k + a.states.size := by
      rw [Arena.shift, Array.size_map, hfirst, Nat.zero_add]
    rw [Arena.overflows, hids]
    rfl
  simp only [hoverflows, decide_eq_true_eq, Arena.toNfa_shift]

/-- The automaton of a pattern at an offset is its automaton with every id moved up, as long as there is an id for each
state, and so is what is made of it: the same deterministic automaton on sets moved up, with the same blocks. Past the
last id there is none. -/
theorem ofPatternAt?_shift (h : ofPattern? pattern = .ok n) (k : Nat) :
    (k + n.size ≤ Arena.idLimit → ofPatternAt? k pattern = .ok (.ok (n.shift k)) ∧
      (n.shift k).toDfa = n.toDfa.mapSubsets (shiftIds k) ∧
      (n.shift k).toDfa.minimize.blocks = n.toDfa.minimize.blocks) ∧
    (Arena.idLimit < k + n.size → ofPatternAt? k pattern = .error .idOverflow) := by
  have hdfa := n.toDfa_shift k
  constructor
  · intro hlimit
    refine ⟨?_, hdfa, ?_⟩
    · rw [ofPatternAt?_eq h, if_neg (Nat.not_lt.mpr hlimit)]
    · rw [hdfa, Dfa.blocks_mapSubsets]
  · intro hlimit
    rw [ofPatternAt?_eq h, if_pos hlimit]

/-- With eight states, the last offset that leaves an id for each is eight below the limit; the next one does not. -/
theorem ofPatternAt?_shift_of_last_ids : ∃ n, ofPattern? "(a|b)+" = .ok n ∧ n.size = 8 ∧
    (ofPatternAt? 0xfffffffffffffff8 "(a|b)+" = .ok (.ok (n.shift 0xfffffffffffffff8)) ∧
      (n.shift 0xfffffffffffffff8).toDfa = n.toDfa.mapSubsets (shiftIds 0xfffffffffffffff8) ∧
      (n.shift 0xfffffffffffffff8).toDfa.minimize.blocks = n.toDfa.minimize.blocks) ∧
    ofPatternAt? 0xfffffffffffffff9 "(a|b)+" = .error .idOverflow := by
  refine ⟨_, rfl, rfl, (ofPatternAt?_shift rfl _).1 ?_, (ofPatternAt?_shift rfl _).2 ?_⟩
  · decide
  · decide

end Nfa

end PatternAutomata
