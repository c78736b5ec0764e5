import Mathlib.Data.List.Nodup
import Mathlib.Logic.Equiv.Defs
import PatternAutomata.Proofs.Table.Export
import PatternAutomata.Proofs.Table.Levels

namespace PatternAutomata

theorem zip_flatMap {α β γ δ : Type} {f : α → List γ} {g : β → List δ} {xs : List α} {ys : List β}
    (hlen : xs.length = ys.length) (h : ∀ p ∈ xs.zip ys, (f p.1).length = (g p.2).length) :
    (xs.flatMap f).zip (ys.flatMap g) = (xs.zip ys).flatMap fun p => (f p.1).zip (g p.2) := by
  induction xs generalizing ys with
  | nil => rfl
  | cons x xs ih =>
    cases ys with
    | nil => cases hlen
    | cons y ys =>
      obtain ⟨hfirst, hrest⟩ := List.forall_mem_cons.mp h
      rw [List.flatMap_cons, List.flatMap_cons, List.zip_append hfirst, ih (Nat.succ.inj hlen) hrest]
      rfl

theorem nodup_flatMap_of_unique {α β : Type} {f : α → List β} {xs : List α} (hxs : xs.Nodup)
    (hf : ∀ x ∈ xs, (f x).Nodup) (hunique : ∀ x ∈ xs, ∀ y ∈ xs, ∀ b, b ∈ f x → b ∈ f y → x = y) :
    (xs.flatMap f).Nodup := by
  refine List.nodup_flatMap.mpr ⟨hf, hxs.imp_of_mem ?_⟩
  intro x y hx hy hne b hbx hby
  exact hne (hunique x hx y hy b hbx hby)

theorem mem_zip_self {α : Type} {xs : List α} {p : α × α} : p ∈ xs.zip xs ↔ ∃ x ∈ xs, (x, x) = p := by
  rw [List.zip_eq_zipWith, List.zipWith_self, List.mem_map]

namespace Table

variable {t u : Table} {a b c s : String} {k : Nat}

/-- The names stand at the same place of the same level. -/
def Paired (t u : Table) (a b : String) : Prop :=
  ∃ k i : Nat, (t.level k)[i]? = some a ∧ (u.level k)[i]? = some b

theorem paired_iff_mem_zip : Paired t u a b ↔ ∃ k, (a, b) ∈ (t.level k).zip (u.level k) := by
  simp only [List.mem_iff_getElem?, List.getElem?_zip_eq_some, Paired]

theorem Paired.symm (h : Paired t u a b) : Paired u t b a := by
  obtain ⟨k, i, ha, hb⟩ := h
  exact ⟨k, i, hb, ha⟩

theorem paired_start (t u : Table) : Paired t u t.start u.start := ⟨0, 0, rfl, rfl⟩

theorem Paired.reachable_left (h : Paired t u a b) : t.Reachable a := by
  obtain ⟨k, i, ha, -⟩ := h
  exact reachable_iff.mpr ⟨k, List.mem_of_getElem? ha⟩

theorem Paired.unique (h : Paired t u a b) (h' : Paired t u a c) : b = c := by
  obtain ⟨k, i, ha, hb⟩ := h
  obtain ⟨k', i', ha', hc⟩ := h'
  obtain rfl := level_unique (List.mem_of_getElem? ha) (List.mem_of_getElem? ha')
  have hi : i < (t.level k).length := (List.getElem?_eq_some_iff.mp ha).1
  obtain rfl : i = i' := (List.getElem?_inj hi (t.nodup_level k)).mp (ha.trans ha'.symm)
  exact Option.some.inj (hb.symm.trans hc)

theorem Paired.mem_level_iff (h : Paired t u a b) : b ∈ u.level k ↔ a ∈ t.level k := by
  obtain ⟨j, i, ha, hb⟩ := h
  have ha := List.mem_of_getElem? ha
  have hb := List.mem_of_getElem? hb
  constructor
  · intro hk
    rwa [← level_unique hb hk]
  · intro hk
    rwa [← level_unique ha hk]

section Signature

variable (h : t.signature = u.signature)
include h

theorem length_level_eq (k : Nat) : (t.level k).length = (u.level k).length := by
  have hlength := congrArg List.length (congrFun h k)
  rwa [signature, signature, List.length_map, List.length_map] at hlength

theorem exists_paired (ha : t.Reachable a) : ∃ b, Paired t u a b := by
  obtain ⟨k, ha⟩ := reachable_iff.mp ha
  obtain ⟨i, hi, rfl⟩ := List.mem_iff_getElem.mp ha
  have hi' : i < (u.level k).length := by rwa [← length_level_eq h k]
  exact ⟨(u.level k)[i], k, i, List.getElem?_eq_getElem hi, List.getElem?_eq_getElem hi'⟩

theorem Paired.row_eq (hab : Paired t u a b) : t.row a = u.row b := by
  obtain ⟨k, i, ha, hb⟩ := hab
  have hrow := congrArg (fun rows => rows[i]?) (congrFun h k)
  simp only [signature, List.getElem?_map, ha, hb, Option.map_some] at hrow
  exact Option.some.inj hrow

end Signature

theorem symbols_eq_of_row_eq (h : t.row a = u.row b) : t.symbols a = u.symbols b := by
  have hsymbols := congrArg (fun r : Bool × List (String × Nat) => r.2.map Prod.fst) h
  simpa [row, List.map_map, Function.comp_def] using hsymbols

theorem targets_eq_nil (h : s ∉ t.symbols a) : t.targets a s = [] := by
  by_contra hne
  obtain ⟨b, hb⟩ := List.exists_mem_of_ne_nil _ hne
  exact h (mem_symbols_of_mem_targets hb)

theorem length_targets_eq_of_row_eq (h : t.row a = u.row b) (s : String) :
    (t.targets a s).length = (u.targets b s).length := by
  have hsymbols := symbols_eq_of_row_eq h
  by_cases hs : s ∈ t.symbols a
  · have hcounts := (Prod.ext_iff.mp h).2
    simp only [row, ← hsymbols, List.map_inj_left, Prod.mk.injEq, true_and] at hcounts
    exact hcounts s hs
  · rw [targets_eq_nil hs, targets_eq_nil (by rwa [← hsymbols])]

theorem length_successors (t : Table) (a : String) : (t.successors a).length = ((t.row a).2.map Prod.snd).sum := by
  rw [successors, List.length_flatMap, row, List.map_map]
  rfl

theorem length_level_flatMap (t : Table) (k : Nat) : ((t.level k).flatMap t.successors).length =
    ((t.signature k).map fun r => (r.2.map Prod.snd).sum).sum := by
  rw [List.length_flatMap, signature, List.map_map]
  congr 1
  exact List.map_congr_left fun a _ => t.length_successors a

theorem nodup_symbols (t : Table) (a : String) : (t.symbols a).Nodup :=
  (compare_ascending _).imp fun hlt heq => by simp [heq] at hlt

theorem Deterministic.targets_eq (h : t.Deterministic) (hb : b ∈ t.targets a s) : t.targets a s = [b] := by
  have hpos := List.length_pos_of_mem hb
  have hle := h a s
  obtain ⟨c, hc⟩ := List.length_eq_one_iff.mp (by omega : (t.targets a s).length = 1)
  rw [hc, List.mem_singleton] at hb
  rw [hc, hb]

theorem Deterministic.nodup_targets (h : t.Deterministic) (a s : String) : (t.targets a s).Nodup := by
  by_cases hnil : t.targets a s = []
  · rw [hnil]
    exact List.nodup_nil
  · obtain ⟨b, hb⟩ := List.exists_mem_of_ne_nil _ hnil
    rw [h.targets_eq hb]
    exact List.nodup_singleton b

/-- Every edge that can be reached leads to a state of its own: none leads back to the start, and no two lead to
the same state. -/
structure Treelike (t : Table) : Prop where
  start : ∀ a s, t.Reachable a → t.start ∉ t.targets a s
  source : ∀ a a' s s' b, t.Reachable a → t.Reachable a' → b ∈ t.targets a s → b ∈ t.targets a' s' → a = a' ∧ s = s'

/-- It is enough to look at the edges. -/
theorem treelike_of_edges (hstart : ∀ e ∈ t.edges, e.2.1 ≠ t.start)
    (hsource : ∀ e ∈ t.edges, ∀ e' ∈ t.edges, e.2.1 = e'.2.1 → e = e') : t.Treelike := by
  refine ⟨?_, ?_⟩
  · intro a s _ htarget
    exact hstart _ (exists_edge_of_mem_targets htarget) rfl
  · intro a a' s s' b _ _ hb hb'
    have heq := hsource _ (exists_edge_of_mem_targets hb) _ (exists_edge_of_mem_targets hb') rfl
    simp only [Prod.mk.injEq, true_and] at heq
    exact heq

theorem Treelike.nodup_successors (h : t.Treelike) (hdet : t.Deterministic) (k : Nat) :
    ((t.level k).flatMap t.successors).Nodup := by
  have hreachable : ∀ a ∈ t.level k, t.Reachable a := fun a ha => reachable_iff.mpr ⟨k, ha⟩
  apply nodup_flatMap_of_unique (t.nodup_level k)
  · intro a ha
    apply nodup_flatMap_of_unique (t.nodup_symbols a)
    · exact fun s _ => hdet.nodup_targets a s
    · intro s _ s' _ b hb hb'
      exact (h.source a a s s' b (hreachable a ha) (hreachable a ha) hb hb').2
  · intro a ha a' ha' b hb hb'
    obtain ⟨s, hb⟩ := mem_successors.mp hb
    obtain ⟨s', hb'⟩ := mem_successors.mp hb'
    exact (h.source a a' s s' b (hreachable a ha) (hreachable a' ha') hb hb').1

theorem Treelike.not_mem_seen (h : t.Treelike) (ha : a ∈ t.level k) (hb : b ∈ t.successors a) :
    b ∉ (t.front k).seen := by
  intro hseen
  obtain ⟨s, hb⟩ := mem_successors.mp hb
  obtain ⟨j, hj, hmet⟩ := mem_seen_iff.mp hseen
  have hreachable : t.Reachable a := reachable_iff.mpr ⟨k, ha⟩
  cases j with
  | zero =>
    rw [List.mem_singleton.mp hmet] at hb
    exact h.start a s hreachable hb
  | succ j =>
    obtain ⟨⟨a', ha', hb'⟩, -⟩ := mem_level_succ.mp hmet
    obtain ⟨s', hb'⟩ := mem_successors.mp hb'
    obtain ⟨rfl, -⟩ := h.source a a' s s' b hreachable (reachable_iff.mpr ⟨j, ha'⟩) hb hb'
    have := level_unique ha ha'
    omega

/-- In a tree every target is new. -/
theorem Treelike.level_succ (h : t.Treelike) (hdet : t.Deterministic) (k : Nat) :
    t.level (k + 1) = (t.level k).flatMap t.successors := by
  have hfresh : ∀ b ∈ (t.level k).flatMap t.successors, b ∉ (t.front k).seen := by
    intro b hb
    obtain ⟨a, ha, hb⟩ := List.mem_flatMap.mp hb
    exact h.not_mem_seen ha hb
  have hlevel := level_visitAll_of_fresh (f := ⟨(t.front k).seen, []⟩) (h.nodup_successors hdet k) hfresh
  rw [level, front_succ]
  exact hlevel

theorem mem_zip_successors {p : String × String} (hrow : t.row a = u.row b) (hs : s ∈ t.symbols a)
    (hp : p ∈ (t.targets a s).zip (u.targets b s)) : p ∈ (t.successors a).zip (u.successors b) := by
  rw [successors, successors, ← symbols_eq_of_row_eq hrow, zip_flatMap rfl, List.mem_flatMap]
  · exact ⟨(s, s), mem_zip_self.mpr ⟨s, hs, rfl⟩, hp⟩
  · intro q hq
    obtain ⟨s', -, rfl⟩ := mem_zip_self.mp hq
    exact length_targets_eq_of_row_eq hrow s'

section Signature

variable (h : t.signature = u.signature)
include h

/-- As many targets are new in both tables, so if all are new in one they are in the other. -/
theorem Treelike.level_succ_right (ht : t.Treelike) (hdet : t.Deterministic) (k : Nat) :
    u.level (k + 1) = (u.level k).flatMap u.successors := by
  have hsublist : (u.level (k + 1)).Sublist ((u.level k).flatMap u.successors) := by
    rw [level, front_succ]
    exact level_visitAll_sublist ⟨(u.front k).seen, []⟩ _
  apply hsublist.eq_of_length
  rw [← length_level_eq h, ht.level_succ hdet, length_level_flatMap, length_level_flatMap, h]

theorem Treelike.mem_zip_level_succ {p q : String × String} (ht : t.Treelike) (hdet : t.Deterministic)
    (hp : p ∈ (t.level k).zip (u.level k)) (hq : q ∈ (t.successors p.1).zip (u.successors p.2)) :
    q ∈ (t.level (k + 1)).zip (u.level (k + 1)) := by
  rw [ht.level_succ hdet, ht.level_succ_right h hdet, zip_flatMap (length_level_eq h k), List.mem_flatMap]
  · exact ⟨p, hp, hq⟩
  · intro p' hp'
    have hpaired : Paired t u p'.1 p'.2 := paired_iff_mem_zip.mpr ⟨k, hp'⟩
    rw [length_successors, length_successors, hpaired.row_eq h]

/-- In a tree the targets of paired states are paired. -/
theorem Treelike.exists_paired_target (ht : t.Treelike) (hdet : t.Deterministic) (hab : Paired t u a b)
    (hc : c ∈ t.targets a s) : ∃ c' ∈ u.targets b s, Paired t u c c' := by
  have hrow := hab.row_eq h
  obtain ⟨k, hab⟩ := paired_iff_mem_zip.mp hab
  obtain ⟨n, hn, rfl⟩ := List.mem_iff_getElem.mp hc
  have hn' : n < (u.targets b s).length := by rwa [← length_targets_eq_of_row_eq hrow s]
  refine ⟨(u.targets b s)[n], List.getElem_mem hn', ?_⟩
  -- The two targets stand at one place among those of the symbol, so of the state, so of the level.
  have htargets : ((t.targets a s)[n], (u.targets b s)[n]) ∈ (t.targets a s).zip (u.targets b s) :=
    List.mem_of_getElem? (List.getElem?_zip_eq_some.mpr ⟨List.getElem?_eq_getElem hn, List.getElem?_eq_getElem hn'⟩)
  have hsuccessors := mem_zip_successors hrow (mem_symbols_of_mem_targets hc) htargets
  exact paired_iff_mem_zip.mpr ⟨k + 1, ht.mem_zip_level_succ h hdet hab hsuccessors⟩

end Signature

abbrev Reached (t : Table) := {a // t.Reachable a}

theorem reachable_start (t : Table) : t.Reachable t.start := ⟨0, .start⟩

/-- A correspondence of the states that can be reached: start goes with start, and states that go together agree
in acceptance, in the symbols that lead on and in their distance from the start. -/
structure Corresponds (t u : Table) (f : t.Reached ≃ u.Reached) : Prop where
  start : (f ⟨t.start, t.reachable_start⟩ : String) = u.start
  accepting : ∀ a : t.Reached, u.isAccepting (f a) = t.isAccepting a
  symbols : ∀ a : t.Reached, u.symbols (f a) = t.symbols a
  distance : ∀ (a : t.Reached) (k : Nat), IsLeast {j | u.Reaches j (f a)} k ↔ IsLeast {j | t.Reaches j a} k

def KeepsEdges (t u : Table) (f : t.Reached ≃ u.Reached) : Prop :=
  ∀ (a b : t.Reached) (s : String), (b : String) ∈ t.targets a s ↔ (f b : String) ∈ u.targets (f a) s

/-- The walks of equivalent tables define a bijection. -/
theorem exists_equiv_paired (h : t.signature = u.signature) :
    ∃ f : t.Reached ≃ u.Reached, ∀ a : t.Reached, Paired t u a (f a) := by
  have hpaired : ∀ a : t.Reached, ∃ b : u.Reached, Paired t u a b := by
    intro a
    obtain ⟨b, hb⟩ := exists_paired h a.2
    exact ⟨⟨b, hb.symm.reachable_left⟩, hb⟩
  choose f hf using hpaired
  refine ⟨Equiv.ofBijective f ⟨?_, ?_⟩, hf⟩
  · intro a a' heq
    have ha' := hf a'
    rw [← heq] at ha'
    exact Subtype.ext ((hf a).symm.unique ha'.symm)
  · intro b
    obtain ⟨a, ha⟩ := exists_paired h.symm b.2
    refine ⟨⟨a, ha.symm.reachable_left⟩, ?_⟩
    exact Subtype.ext ((hf _).unique ha.symm)

theorem corresponds_of_paired (h : t.signature = u.signature) {f : t.Reached ≃ u.Reached}
    (hf : ∀ a : t.Reached, Paired t u a (f a)) : t.Corresponds u f := by
  refine ⟨?_, ?_, ?_, ?_⟩
  · exact (hf _).unique (paired_start t u)
  · intro a
    exact (congrArg Prod.fst ((hf a).row_eq h)).symm
  · intro a
    exact (symbols_eq_of_row_eq ((hf a).row_eq h)).symm
  · intro a k
    rw [← Table.mem_level_iff, ← Table.mem_level_iff]
    exact (hf a).mem_level_iff

theorem Treelike.keepsEdges (ht : t.Treelike) (hdet : t.Deterministic) (h : t.signature = u.signature)
    {f : t.Reached ≃ u.Reached} (hf : ∀ a : t.Reached, Paired t u a (f a)) : t.KeepsEdges u f := by
  intro a b s
  constructor
  · intro hb
    obtain ⟨b', hb', hpaired⟩ := ht.exists_paired_target h hdet (hf a) hb
    rwa [(hf b).unique hpaired]
  · intro hb
    have hlength := length_targets_eq_of_row_eq ((hf a).row_eq h) s
    obtain ⟨c, hc⟩ : ∃ c, c ∈ t.targets a s := List.exists_mem_of_length_pos (by
      rw [hlength]
      exact List.length_pos_of_mem hb)
    obtain ⟨c', hc', hpaired⟩ := ht.exists_paired_target h hdet (hf a) hc
    rw [hdet.targets_eq hc, List.length_singleton, eq_comm, List.length_eq_one_iff] at hlength
    obtain ⟨c'', htargets⟩ := hlength
    rw [htargets, List.mem_singleton] at hb hc'
    rw [hc', ← hb] at hpaired
    rwa [(hf b).symm.unique hpaired.symm]

theorem KeepsEdges.targets_eq_nil {f : t.Reached ≃ u.Reached} (h : t.KeepsEdges u f) {a : t.Reached}
    (hnil : t.targets a s = []) : u.targets (f a) s = [] := by
  by_contra hne
  obtain ⟨b, hb⟩ := List.exists_mem_of_ne_nil _ hne
  obtain ⟨k, hk⟩ := (f a).2
  have hmem := (h a (f.symm ⟨b, k + 1, .step hk hb⟩) s).mpr (by rwa [Equiv.apply_symm_apply])
  rw [hnil] at hmem
  cases hmem

/-- Deterministic tables whose edges correspond accept the same words. -/
theorem accepts_eq_of_keepsEdges {f : t.Reached ≃ u.Reached} (ht : t.Deterministic)
    (hu : u.Deterministic) (hstart : (f ⟨t.start, t.reachable_start⟩ : String) = u.start)
    (haccepting : ∀ a : t.Reached, u.isAccepting (f a) = t.isAccepting a) (hedges : t.KeepsEdges u f) (w : List Char) :
    t.accepts w = u.accepts w := by
  have hwalk : ∀ a : t.Reached, (t.walk? a w).any t.isAccepting = (u.walk? (f a) w).any u.isAccepting := by
    induction w with
    | nil =>
      intro a
      exact (haccepting a).symm
    | cons c w ih =>
      intro a
      rw [walk?, walk?]
      by_cases hnil : t.targets a (String.singleton c) = []
      · rw [hnil, hedges.targets_eq_nil hnil]
        rfl
      · obtain ⟨b, hb⟩ := List.exists_mem_of_ne_nil _ hnil
        obtain ⟨k, hk⟩ := a.2
        let next : t.Reached := ⟨b, k + 1, .step hk hb⟩
        have hnext := (hedges a next (String.singleton c)).mp hb
        rw [ht.targets_eq hb, hu.targets_eq hnext]
        exact ih next
  rw [accepts, accepts, ← hstart]
  exact hwalk ⟨t.start, t.reachable_start⟩

end Table

namespace Dfa

variable {d e : Dfa}

/-- If the tables of two automata are equivalent, the states that can be reached correspond. Where edges lead need not
correspond, but it does if the first table is a tree, and then the automata accept the same words. -/
theorem Constructed.exists_corresponds (hd : d.Constructed) (he : e.Constructed)
    (h : d.table.equivalent e.table = true) :
    ∃ f : d.table.Reached ≃ e.table.Reached, d.table.Corresponds e.table f ∧
      (d.table.Treelike → d.table.KeepsEdges e.table f ∧ ∀ w, d.accepts w = e.accepts w) := by
  have hsignature := Table.equivalent_iff.mp h
  have hdet := deterministic_table hd.distinct
  obtain ⟨f, hf⟩ := Table.exists_equiv_paired hsignature
  have hcorresponds := Table.corresponds_of_paired hsignature hf
  refine ⟨f, hcorresponds, ?_⟩
  intro htree
  have hedges := htree.keepsEdges hdet hsignature hf
  refine ⟨hedges, ?_⟩
  intro w
  rw [← hd.accepts_table, ← he.accepts_table]
  exact Table.accepts_eq_of_keepsEdges hdet (deterministic_table he.distinct) hcorresponds.start
    hcorresponds.accepting hedges w

/-- The branches come in another order and under other names. -/
theorem Constructed.exists_corresponds_of_turned_branches : ∃ d e : Dfa,
    d = .ofEdges "p" ["r"] [⟨"p", 'a', "q"⟩, ⟨"p", 'b', "r"⟩, ⟨"q", 'c', "s"⟩] ∧
      e = .ofEdges "0" ["1"] [⟨"0", 'b', "1"⟩, ⟨"0", 'a', "2"⟩, ⟨"2", 'c', "3"⟩] ∧
      d.Constructed ∧ e.Constructed ∧ d.table.equivalent e.table = true ∧ d.table.Treelike ∧
      ∃ f : d.table.Reached ≃ e.table.Reached, d.table.Corresponds e.table f ∧
        d.table.KeepsEdges e.table f ∧ ∀ w, d.accepts w = e.accepts w := by
  have h (start : String) (accepting : List String) (edges : List NamedEdge) :
      (Dfa.ofEdges start accepting edges).Constructed := .ofEdges start accepting edges
  refine ⟨_, _, rfl, rfl, h .., h .., ?equivalent, ?tree,
    (Constructed.exists_corresponds (h ..) (h ..) ?equivalent).imp fun f hf => ⟨hf.1, hf.2 ?tree⟩⟩
  case equivalent => decide +kernel
  case tree => exact Table.treelike_of_edges (by decide +kernel) (by decide +kernel)

/-- A circle of two states and a state that leads to itself are not told apart, for neither leads to a new state.
The words accepted differ, and no correspondence keeps the edges. -/
theorem equivalent_circle_loop : ∃ d e : Dfa,
    d = .ofEdges "p" ["q"] [⟨"p", 'a', "q"⟩, ⟨"q", 'a', "p"⟩] ∧
      e = .ofEdges "p" ["q"] [⟨"p", 'a', "q"⟩, ⟨"q", 'a', "q"⟩] ∧
      d.Constructed ∧ e.Constructed ∧ d.table.equivalent e.table = true ∧
      d.accepts ['a', 'a'] = false ∧ e.accepts ['a', 'a'] = true ∧
      ¬ ∃ f : d.table.Reached ≃ e.table.Reached,
        (f ⟨d.table.start, d.table.reachable_start⟩ : String) = e.table.start ∧
          (∀ a : d.table.Reached, e.table.isAccepting (f a) = d.table.isAccepting a) ∧ d.table.KeepsEdges e.table f := by
  have h (start : String) (accepting : List String) (edges : List NamedEdge) :
      (Dfa.ofEdges start accepting edges).Constructed := .ofEdges start accepting edges
  refine ⟨_, _, rfl, rfl, h .., h .., by decide +kernel, by decide +kernel, by decide +kernel, ?_⟩
  rintro ⟨f, hstart, haccepting, hedges⟩
  have hword := Table.accepts_eq_of_keepsEdges (deterministic_table (h ..).distinct)
    (deterministic_table (h ..).distinct) hstart haccepting hedges ['a', 'a']
  rw [(h ..).accepts_table, (h ..).accepts_table] at hword
  exact absurd hword (by decide +kernel)

end Dfa

end PatternAutomata
