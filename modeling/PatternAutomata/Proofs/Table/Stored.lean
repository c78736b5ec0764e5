import PatternAutomata.Proofs.Pipeline
import PatternAutomata.Proofs.Table.Export
import PatternAutomata.Proofs.Table.Record

namespace PatternAutomata

theorem stateName_ne_startKey (i : Nat) : stateName i ≠ Record.startKey := by
  intro h
  have hfirst := congrArg (fun name : String => name.toList.head?) h
  simp [stateName, Record.startKey] at hfirst

theorem singleton_ne_acceptingKey (c : Char) : String.singleton c ≠ Record.acceptingKey := by
  intro h
  have hlength := congrArg (fun name : String => name.toList.length) h
  simp [Record.acceptingKey] at hlength

namespace Table

theorem storable_new (start : String) : (new start).Storable :=
  ⟨List.not_mem_nil, fun _ he => absurd he List.not_mem_nil⟩

theorem Storable.foldl {ι : Type} {add : Table → ι → Table} {xs : List ι}
    (hadd : ∀ x ∈ xs, ∀ t : Table, t.Storable → (add t x).Storable) {t : Table} (h : t.Storable) :
    (xs.foldl add t).Storable := by
  induction xs generalizing t with
  | nil => exact h
  | cons x xs ih =>
    obtain ⟨hx, hxs⟩ := List.forall_mem_cons.mp hadd
    exact ih hxs (hx t h)

theorem acceptingKey_not_mem_symbols {ι : Type} (symbol : ι → Char) (targets : ι → Targets) (edges : List ι) :
    Record.acceptingKey ∉ (edges.map fun e => (String.singleton (symbol e), targets e)).map Prod.fst := by
  rw [List.map_map]
  intro h
  obtain ⟨e, -, he⟩ := List.mem_map.mp h
  exact singleton_ne_acceptingKey (symbol e) he

end Table

theorem Nfa.storable_table (n : Nfa) : n.table.Storable := by
  refine Table.Storable.foldl ?_ (Table.storable_new _)
  intro i _ t ht
  cases n.state? i with
  | none => exact ht
  | some edges => exact ht.define (stateName_ne_startKey i) _ (Table.acceptingKey_not_mem_symbols _ _ _)

theorem Dfa.Named.storable_table {d : Dfa} (h : d.Named) : d.table.Storable := by
  refine Table.Storable.foldl ?_ (Table.storable_new _)
  intro s hs t ht
  have hname : s.name ≠ Record.startKey := by
    obtain ⟨i, hi⟩ := Array.mem_iff_getElem?.mp (Array.mem_toList_iff.mp hs)
    rw [h i s hi]
    exact stateName_ne_startKey (i + 1)
  exact ht.define hname _ (Table.acceptingKey_not_mem_symbols _ _ _)

theorem Stages.storable_minimal {pattern : String} {stages : Stages} (h : compile pattern = .ok stages) :
    stages.minimal.dfa.table.Storable := by
  obtain ⟨n, -, rfl⟩ := compile_eq_ok_iff.mp h
  exact (Dfa.named_minimize n.wellFormed_toDfa).storable_table

end PatternAutomata
