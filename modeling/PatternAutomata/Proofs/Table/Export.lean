import PatternAutomata.Proofs.Dfa.Constructed
import PatternAutomata.Table.Export

namespace PatternAutomata

theorem singleton_injective : Function.Injective String.singleton := by
  intro c c' h
  have hlist := congrArg String.toList h
  simpa using hlist

theorem stateName_injective : Function.Injective stateName := by
  intro i j h
  have hdigits := congrArg String.toList ((String.append_right_inj "S").mp h)
  rw [Nat.toString_eq_repr, Nat.toString_eq_repr, Nat.repr, Nat.repr, String.toList_ofList, String.toList_ofList] at hdigits
  have hnumber := congrArg (fun digits => Nat.ofDigitChars 10 digits 0) hdigits
  rw [Nat.ofDigitChars_toDigits, Nat.ofDigitChars_toDigits] at hnumber
  all_goals omega

namespace Table

def Deterministic (t : Table) : Prop := ∀ a s, (t.targets a s).length ≤ 1

/-- The name that a word leads to in a deterministic table. -/
def walk? (t : Table) (name : String) : List Char → Option String
  | [] => some name
  | c :: rest => (t.targets name (String.singleton c)).head?.bind fun next => t.walk? next rest

def accepts (t : Table) (word : List Char) : Bool := (t.walk? t.start word).any t.isAccepting

end Table

namespace Dfa

variable {d : Dfa} {i j : Nat} {s : State} {c : Char} {w : List Char}

def Distinct (d : Dfa) : Prop := (d.states.toList.map (·.name)).Nodup

theorem nameAt_injective : Function.Injective nameAt := by
  intro i j h
  exact Nat.succ.inj (stateName_injective h)

theorem Named.distinct (h : d.Named) : d.Distinct := by
  have hnames : d.states.toList.map (·.name) = (List.range d.size).map nameAt := by
    apply List.ext_getElem?
    intro i
    rw [List.getElem?_map, List.getElem?_map, Array.getElem?_toList]
    by_cases hi : i < d.size
    · have hs := Array.getElem?_eq_getElem hi
      rw [hs, Option.map_some, h i _ hs, List.getElem?_range hi, Option.map_some]
    · rw [Array.getElem?_eq_none (Nat.le_of_not_lt hi), List.getElem?_eq_none (by simpa using hi)]
      rfl
  rw [Distinct, hnames]
  exact List.nodup_range.map nameAt_injective

theorem named_toDfa (n : Nfa) : n.toDfa.Named := by
  intro i s hs
  rw [Nfa.state_toDfa] at hs
  obtain ⟨ids, -, rfl⟩ := Option.map_eq_some_iff.mp hs
  rfl

theorem Constructed.distinct (h : d.Constructed) : d.Distinct := by
  cases h with
  | empty => exact List.nodup_nil
  | toDfa n => exact (named_toDfa n).distinct
  | ofEdges start accepting edges =>
    rw [Distinct, ofEdges_eq, List.map_map]
    exact (List.map_id _).symm ▸ nodup_eraseDups _
  | @minimize d h =>
    by_cases hsize : d.size = 0
    · rw [minimize_of_size_eq_zero hsize]
      exact List.nodup_singleton _
    · exact (named_minimize (h.wellFormed (Nat.pos_of_ne_zero hsize))).distinct

def namedMoves (d : Dfa) (s : State) : List (String × Targets) :=
  s.edges.map fun e => (String.singleton e.1, .one (d.nameOf e.2))

theorem start_table (d : Dfa) : d.table.start = d.nameOf d.start :=
  Table.start_foldl_define State.name State.accepting d.namedMoves d.states.toList _

theorem entries_table (h : d.Distinct) : d.table.states.entries =
    d.states.toList.map fun s => (s.name, ⟨s.accepting, .ofList (d.namedMoves s)⟩) :=
  Table.entries_foldl_define State.name State.accepting d.namedMoves (t := .new (d.nameOf d.start)) h

theorem nameOf_eq (hs : d.states[i]? = some s) : d.nameOf i = s.name := by
  rw [nameOf, hs]
  rfl

theorem get?_table (h : d.Distinct) (hs : d.states[i]? = some s) :
    d.table.states.get? (d.nameOf i) = some ⟨s.accepting, .ofList (d.namedMoves s)⟩ := by
  rw [Listing.get?_eq_some_iff, entries_table h, nameOf_eq hs]
  have hmem : s ∈ d.states.toList := Array.mem_toList_iff.mpr (Array.mem_of_getElem? hs)
  exact List.mem_map_of_mem (f := fun s => (s.name, _)) hmem

theorem isAccepting_table (h : d.Distinct) (hi : i < d.size) : d.table.isAccepting (d.nameOf i) = d.isAccepting i := by
  have hs := Array.getElem?_eq_getElem hi
  rw [Table.isAccepting, get?_table h hs, isAccepting, hs]
  rfl

theorem nodup_keys_namedMoves (h : d.WellFormed) (hs : d.states[i]? = some s) :
    ((d.namedMoves s).map Prod.fst).Nodup := by
  have hsorted := h.sorted i s hs
  have hkeys : (d.namedMoves s).map Prod.fst = (s.edges.map Prod.fst).map String.singleton := by
    rw [namedMoves, List.map_map, List.map_map]
    rfl
  rw [hkeys]
  exact List.Nodup.map singleton_injective (hsorted.imp fun hlt => hlt.ne)

/-- Each character has the target that the automaton leads to. -/
theorem targets_table (h : d.Distinct) (hd : d.WellFormed) (hi : i < d.size) (c : Char) :
    d.table.targets (d.nameOf i) (String.singleton c) = ((d.transition? i c).map d.nameOf).toList := by
  have hs := Array.getElem?_eq_getElem hi
  have hget : (Listing.ofList (d.namedMoves d.states[i])).get? (String.singleton c) =
      (d.transition? i c).map fun t => .one (d.nameOf t) := by
    ext m
    rw [Listing.get?_eq_some_iff, Listing.entries_ofList (nodup_keys_namedMoves hd hs), namedMoves, List.mem_map,
      Option.map_eq_some_iff, transition?, hs, Option.bind_some]
    constructor
    · rintro ⟨e, he, heq⟩
      obtain ⟨hc, rfl⟩ := Prod.ext_iff.mp heq
      obtain rfl : e.1 = c := singleton_injective hc
      exact ⟨e.2, (lookup_eq_some_iff (hd.sorted i _ hs)).mpr he, rfl⟩
    · rintro ⟨t, ht, rfl⟩
      exact ⟨(c, t), (lookup_eq_some_iff (hd.sorted i _ hs)).mp ht, rfl⟩
  rw [Table.targets, Table.moves, get?_table h hs, Option.map_some, Option.getD_some, hget]
  cases d.transition? i c <;> rfl

theorem deterministic_table (h : d.Distinct) : d.table.Deterministic := by
  intro a symbol
  rw [Table.targets, Table.moves]
  cases hstate : d.table.states.get? a with
  | none => exact Nat.zero_le 1
  | some st =>
    rw [Listing.get?_eq_some_iff, entries_table h] at hstate
    obtain ⟨s, -, heq⟩ := List.mem_map.mp hstate
    obtain ⟨rfl, rfl⟩ := Prod.ext_iff.mp heq
    rw [Option.map_some, Option.getD_some, Listing.get?_ofList]
    cases hmove : (d.namedMoves s).reverse.lookup symbol with
    | none => exact Nat.zero_le 1
    | some m =>
      obtain ⟨e, -, heq⟩ := List.mem_map.mp (List.mem_reverse.mp (Listing.mem_of_lookup hmove))
      obtain ⟨-, rfl⟩ := Prod.ext_iff.mp heq
      exact le_rfl

theorem walk?_table (h : d.Distinct) (hd : d.WellFormed) (hi : i < d.size) (w : List Char) :
    d.table.walk? (d.nameOf i) w = (d.walk? i w).map d.nameOf := by
  induction w generalizing i with
  | nil => rfl
  | cons c w ih =>
    rw [Table.walk?, targets_table h hd hi, walk?]
    cases ht : d.transition? i c with
    | none => rfl
    | some t => exact ih (hd.transition?_lt ht)

/-- A table accepts the words of its automaton. -/
theorem Constructed.accepts_table (h : d.Constructed) (w : List Char) : d.table.accepts w = d.accepts w := by
  rcases Nat.eq_zero_or_pos d.size with hsize | hpos
  · have hstates : d.table.states.entries = [] := by
      rw [entries_table h.distinct, Array.toList_eq_nil_iff.mpr (Array.eq_empty_of_size_eq_zero hsize)]
      rfl
    have haccepting : ∀ a, d.table.isAccepting a = false := by
      intro a
      rw [Table.isAccepting, Listing.get?, hstates]
      rfl
    rw [accepts_of_size_eq_zero hsize, Table.accepts]
    cases d.table.walk? d.table.start w with
    | none => rfl
    | some a => exact haccepting a
  · have hd := h.wellFormed hpos
    rw [Table.accepts, accepts, start_table, walk?_table h.distinct hd hd.start_lt]
    cases hw : d.walk? d.start w with
    | none => rfl
    | some t => exact isAccepting_table h.distinct (hd.walk?_lt hd.start_lt hw)

end Dfa

end PatternAutomata
