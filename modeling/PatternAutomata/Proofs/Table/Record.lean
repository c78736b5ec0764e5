import Mathlib.Data.List.Basic
import PatternAutomata.Proofs.Json.RoundTrip
import PatternAutomata.Proofs.Table.Reading

namespace PatternAutomata

namespace Table

/-- No state and no symbol has the name of a key of the record. -/
structure Storable (t : Table) : Prop where
  states : Record.startKey ∉ t.states.keys
  symbols : ∀ e ∈ t.states.entries, Record.acceptingKey ∉ e.2.moves.keys

instance (t : Table) : Decidable t.Storable :=
  decidable_of_iff
    (Record.startKey ∉ t.states.keys ∧ ∀ e ∈ t.states.entries, Record.acceptingKey ∉ e.2.moves.keys)
    ⟨fun h => ⟨h.1, h.2⟩, fun h => ⟨h.states, h.symbols⟩⟩

end Table

namespace Record

section Keyed

variable {α : Type} {k : String} {l : Listing String α}

/-- A key with a value of its own, then the entries of a listing. -/
def keyed (k : String) (own : Json) (f : α → Json) (l : Listing String α) : List (String × Json) :=
  (k, own) :: l.entries.map fun e => (e.1, f e.2)

theorem keys_keyed (k : String) (own : Json) (f : α → Json) (l : Listing String α) :
    (keyed k own f l).map Prod.fst = k :: l.keys := by
  rw [keyed, List.map_cons, List.map_map]
  rfl

theorem entries_ofList_keyed (h : k ∉ l.keys) (own : Json) (f : α → Json) :
    (Listing.ofList (keyed k own f l)).entries = keyed k own f l := by
  apply Listing.entries_ofList
  rw [keys_keyed]
  exact List.nodup_cons.mpr ⟨h, l.nodup_keys⟩

theorem lookup_keyed (k : String) (own : Json) (f : α → Json) (l : Listing String α) :
    (keyed k own f l).lookup k = some own := List.lookup_cons_self

/-- An entry under the key takes its place. -/
theorem exists_lookup_ofList_keyed (h : k ∈ l.keys) (own : Json) (f : α → Json) :
    ∃ a, (Listing.ofList (keyed k own f l)).entries.lookup k = some (f a) := by
  obtain ⟨e, he, rfl⟩ := List.mem_map.mp h
  have hlast := Listing.get?_ofList (keyed e.1 own f l) e.1
  rw [keyed, List.reverse_cons, List.lookup_append] at hlast
  cases hentry : (l.entries.map fun e => (e.1, f e.2)).reverse.lookup e.1 with
  | none =>
    have hne := List.lookup_eq_none_iff.mp hentry (e.1, f e.2) (List.mem_reverse.mpr (List.mem_map_of_mem he))
    exact absurd hne (by simp)
  | some v =>
    obtain ⟨e', -, heq⟩ := List.mem_map.mp (List.mem_reverse.mp (Listing.mem_of_lookup hentry))
    obtain ⟨-, rfl⟩ := Prod.ext_iff.mp heq
    rw [hentry] at hlast
    exact ⟨e'.2, hlast⟩

theorem others_keyed (h : k ∉ l.keys) (own : Json) (f : α → Json) :
    others k (keyed k own f l) = l.entries.map fun e => (e.1, f e.2) := by
  have hself : (k, own).1 = k := rfl
  rw [keyed, others_cons_of_eq hself, others, List.filter_eq_self]
  intro field hfield
  obtain ⟨e, he, rfl⟩ := List.mem_map.mp hfield
  have hne : e.1 ≠ k := fun heq => h (heq ▸ List.mem_map_of_mem he)
  exact bne_iff_ne.mpr hne

end Keyed

variable {t : Table} {s : Table.State}

theorem merged_ofTargets (x : Targets) : (ofTargets x).merged = ofTargets x := by
  cases x with
  | one name => rfl
  | many names =>
    rw [ofTargets, Json.merged, Json.mergedItems_eq, List.map_map]
    rfl

def stateFields (s : Table.State) : List (String × Json) :=
  (Listing.ofList (keyed acceptingKey (.bool s.accepting) ofTargets s.moves)).entries

def tableFields (t : Table) : List (String × Json) :=
  (Listing.ofList (keyed startKey (.string t.start) (fun s => .object (stateFields s)) t.states)).entries

theorem merged_ofState (s : Table.State) : (ofState s).merged = .object (stateFields s) := by
  rw [ofState, Json.merged, Json.mergedFields_eq, List.map_cons, List.map_map, stateFields, keyed]
  simp only [Function.comp_def, merged_ofTargets]
  rfl

theorem merged_ofTable (t : Table) : (ofTable t).merged = .object (tableFields t) := by
  rw [ofTable, Json.merged, Json.mergedFields_eq, List.map_cons, List.map_map, tableFields, keyed]
  simp only [Function.comp_def, merged_ofState]
  rfl

theorem plain_ofTargets (x : Targets) : Json.Plain 1 (ofTargets x) := by
  cases x with
  | one name => exact .string 1 name
  | many names =>
    refine .array fun v hv => ?_
    obtain ⟨name, -, rfl⟩ := List.mem_map.mp hv
    exact .string 0 name

theorem plain_ofState (s : Table.State) : Json.Plain 2 (ofState s) := by
  refine .object (List.forall_mem_cons.mpr ⟨.bool 1 s.accepting, fun f hf => ?_⟩)
  obtain ⟨m, -, rfl⟩ := List.mem_map.mp hf
  exact plain_ofTargets m.2

theorem plain_ofTable (t : Table) : Json.Plain 3 (ofTable t) := by
  refine .object (List.forall_mem_cons.mpr ⟨.string 2 t.start, fun f hf => ?_⟩)
  obtain ⟨e, -, rfl⟩ := List.mem_map.mp hf
  exact plain_ofState e.2

theorem ofJson?_toJson (t : Table) : Table.ofJson? t.toJson = toTable? (.object (tableFields t)) := by
  have hread := Json.ofText?_pretty (plain_ofTable t) (by decide)
  rw [Table.ofJson?, Table.toJson, hread, merged_ofTable]

/-- The record of a state gives it back if no symbol is taken for the key. -/
theorem gives_stateFields (h : acceptingKey ∉ s.moves.keys) (name : String) :
    Gives (name, .object (stateFields s)) name s.accepting s.moves.entries := by
  have hfields := entries_ofList_keyed h (.bool s.accepting) ofTargets
  refine ⟨rfl, stateFields s, rfl, ?_, ?_⟩
  · rw [Tells, stateFields, hfields, lookup_keyed]
    rfl
  · rw [stateFields, hfields, others_keyed h, List.forall₂_map_left_iff, List.forall₂_same]
    exact fun m _ => ⟨rfl, rfl⟩

/-- A symbol that is taken for the key leaves it without a boolean. -/
theorem not_tells_stateFields (h : acceptingKey ∈ s.moves.keys) (accepting : Bool) :
    ¬ Tells (stateFields s) accepting := by
  obtain ⟨x, hx⟩ := exists_lookup_ofList_keyed h (.bool s.accepting) ofTargets
  rw [Tells, stateFields, hx]
  cases x <;> simp [ofTargets]

theorem isState_stateFields_iff : IsState (.object (stateFields s)) ↔ acceptingKey ∉ s.moves.keys := by
  constructor
  · rintro ⟨fields, hfields, ⟨accepting, htells⟩, -⟩ hkey
    cases hfields
    exact not_tells_stateFields hkey accepting htells
  · intro h
    exact (gives_stateFields h "").isState

/-- The record of a table describes it if no name is taken for a key. -/
theorem describes_tableFields (h : t.Storable) : Describes (.object (tableFields t)) t := by
  have hfields := entries_ofList_keyed h.states (.string t.start) fun s => .object (stateFields s)
  refine ⟨tableFields t, rfl, ?_, ?_⟩
  · rw [tableFields, hfields, lookup_keyed]
  · rw [tableFields, hfields, others_keyed h.states, List.forall₂_map_left_iff, List.forall₂_same]
    exact fun e he => gives_stateFields (h.symbols e he) e.1

/-- A state that is taken for the start leaves the record without one. -/
theorem refuses_of_start (h : startKey ∈ t.states.keys) : Refuses (.object (tableFields t)) .missingStart := by
  obtain ⟨s, hs⟩ := exists_lookup_ofList_keyed h (.string t.start) fun s => .object (stateFields s)
  refine .missingStart fun start hstart => ?_
  rw [tableFields, hs] at hstart
  cases hstart

/-- The first state with a symbol that is taken for the key is refused. -/
theorem exists_refuses_of_symbol (hstates : startKey ∉ t.states.keys)
    (h : ∃ e ∈ t.states.entries, acceptingKey ∈ e.2.moves.keys) :
    ∃ e ∈ t.states.entries, acceptingKey ∈ e.2.moves.keys ∧
      Refuses (.object (tableFields t)) (.invalidState e.1) := by
  have hfields := entries_ofList_keyed hstates (.string t.start) fun s => .object (stateFields s)
  have hstart : (tableFields t).lookup startKey = some (.string t.start) := by
    rw [tableFields, hfields, lookup_keyed]
  have hothers : others startKey (tableFields t) = t.states.entries.map fun e => (e.1, .object (stateFields e.2)) := by
    rw [tableFields, hfields, others_keyed hstates]
  obtain ⟨f, hbad⟩ : ∃ f, FirstBad startKey IsState (tableFields t) f := by
    apply exists_firstBad
    intro hgood
    obtain ⟨e, he, hkey⟩ := h
    have hmem : (e.1, Json.object (stateFields e.2)) ∈ others startKey (tableFields t) := by
      rw [hothers]
      exact List.mem_map_of_mem he
    obtain ⟨hfield, hne⟩ := mem_others.mp hmem
    exact isState_stateFields_iff.mp (hgood _ hfield hne) hkey
  have hmem := hbad.mem_others
  rw [hothers] at hmem
  obtain ⟨e, he, rfl⟩ := List.mem_map.mp hmem
  have hkey : acceptingKey ∈ e.2.moves.keys := not_not.mp (mt isState_stateFields_iff.mpr hbad.not_good)
  refine ⟨e, he, hkey, .state hstart hbad (.state fun fields accepting hobject => ?_)⟩
  cases hobject
  exact not_tells_stateFields hkey accepting

end Record

namespace Table

variable {t : Table} {name : String} {moves : List (String × Targets)}

theorem Storable.not_mem_keys_moves (h : t.Storable) (name : String) :
    Record.acceptingKey ∉ (t.moves name).keys := by
  rw [Table.moves]
  cases hstate : t.states.get? name with
  | none => exact List.not_mem_nil
  | some s => exact h.symbols (name, s) (Listing.get?_eq_some_iff.mp hstate)

theorem Storable.define (h : t.Storable) (hname : name ≠ Record.startKey) (accepting : Bool)
    (hmoves : Record.acceptingKey ∉ moves.map Prod.fst) : (t.define name accepting moves).Storable := by
  have hget (k : String) : (t.define name accepting moves).states.get? k =
      if k = name then some ⟨accepting, moves.foldl (fun l m => l.insert m.1 m.2) (t.moves name)⟩
      else t.states.get? k := Listing.get?_insert ..
  constructor
  · rw [← Listing.get?_eq_none_iff, hget, if_neg hname.symm, Listing.get?_eq_none_iff]
    exact h.states
  · rintro ⟨k, s⟩ he
    rw [← Listing.get?_eq_some_iff, hget] at he
    split at he
    · cases he
      have hold := Listing.get?_eq_none_iff.mpr (h.not_mem_keys_moves name)
      have hlast : moves.reverse.lookup Record.acceptingKey = none := by
        rw [List.lookup_eq_none_iff]
        intro m hm
        refine bne_iff_ne.mpr fun heq => hmoves ?_
        rw [heq]
        exact List.mem_map_of_mem (List.mem_reverse.mp hm)
      rw [← Listing.get?_eq_none_iff, Listing.get?_foldl_insert, hlast, hold, Option.none_or]
    · exact h.symbols (k, s) (Listing.get?_eq_some_iff.mp he)

/-- Keys of the record are never read as names. -/
theorem storable_of_describes {v : Json} (h : Record.Describes v t) : t.Storable := by
  obtain ⟨fields, -, -, hstates⟩ := h
  constructor
  · rw [Listing.keys, Record.map_fst_eq_of_forall₂ (fun _ _ hgives => hgives.1) hstates]
    exact Record.not_mem_keys_others _ _
  · intro e he
    obtain ⟨f, -, hgives⟩ := Record.exists_of_mem_right hstates he
    exact hgives.not_mem_keys

theorem storable_of_ofJson? {text : String} (h : ofJson? text = .ok t) : t.Storable := by
  obtain ⟨v, -, hv⟩ := ofJson?_eq_ok_iff.mp h
  exact storable_of_describes hv

theorem Storable.ofJson?_toJson (h : t.Storable) : ofJson? t.toJson = .ok t := by
  rw [Record.ofJson?_toJson]
  exact (Record.describes_tableFields h).toTable?_eq

/-- The refusal says what a name was taken for. -/
theorem ofJson?_toJson_of_not_storable (h : ¬ t.Storable) :
    ofJson? t.toJson = .error .missingStart ∧ Record.startKey ∈ t.states.keys ∨
      ∃ e ∈ t.states.entries, Record.acceptingKey ∈ e.2.moves.keys ∧
        ofJson? t.toJson = .error (.invalidState e.1) := by
  rw [Record.ofJson?_toJson]
  by_cases hstart : Record.startKey ∈ t.states.keys
  · exact .inl ⟨Record.toTable?_eq_error_iff.mpr (Record.refuses_of_start hstart), hstart⟩
  · have hsymbol : ∃ e ∈ t.states.entries, Record.acceptingKey ∈ e.2.moves.keys := by
      by_contra hnone
      exact h ⟨hstart, fun e he hkey => hnone ⟨e, he, hkey⟩⟩
    obtain ⟨e, he, hkey, hrefused⟩ := Record.exists_refuses_of_symbol hstart hsymbol
    exact .inr ⟨e, he, hkey, Record.toTable?_eq_error_iff.mpr hrefused⟩

/-- A table comes back from its record just as it was if no name is taken for a key of the record, and is refused
otherwise; a table that was read can be stored again. -/
theorem roundTrip :
    (∀ t : Table, t.Storable → ofJson? t.toJson = .ok t) ∧
    (∀ t : Table, ¬ t.Storable → ∃ e, ofJson? t.toJson = .error e) ∧
    ∀ (text : String) (u : Table), ofJson? text = .ok u → u.Storable ∧ ofJson? u.toJson = .ok u := by
  refine ⟨fun t h => h.ofJson?_toJson, fun t h => ?_, fun text u h => ?_⟩
  · obtain ⟨herror, -⟩ | ⟨e, -, -, herror⟩ := ofJson?_toJson_of_not_storable h
    · exact ⟨_, herror⟩
    · exact ⟨_, herror⟩
  · have hstorable := storable_of_ofJson? h
    exact ⟨hstorable, hstorable.ofJson?_toJson⟩

/-- Each key of the record is a name of the other kind, among names that have to be escaped. -/
def crossed : Table :=
  (new Record.acceptingKey).define Record.acceptingKey true
    [(Record.startKey, .one "\"\n\u0001"), ("\\", .many [Record.acceptingKey])]

theorem roundTrip_of_crossed_keys :
    ofJson? crossed.toJson = .ok crossed ∧
      ∃ e, ofJson? (crossed.define Record.startKey false []).toJson = .error e :=
  ⟨roundTrip.1 crossed (by decide), roundTrip.2.1 _ (by decide)⟩

end Table

end PatternAutomata
