import Mathlib.Data.Finset.Card
import Mathlib.Logic.Function.Iterate
import Mathlib.Order.Bounds.Defs
import PatternAutomata.Table

namespace PatternAutomata

namespace Table

section Visit

variable {f : Front} {names : List String} {name a : String}

theorem visit_of_mem (h : name ∈ f.seen) : f.visit name = f := by
  rw [Front.visit, if_pos (List.contains_iff_mem.mpr h)]

theorem visit_of_not_mem (h : name ∉ f.seen) : f.visit name = ⟨name :: f.seen, f.level ++ [name]⟩ := by
  rw [Front.visit, if_neg fun hc => h (List.contains_iff_mem.mp hc)]

theorem mem_seen_visitAll : a ∈ (names.foldl Front.visit f).seen ↔ a ∈ f.seen ∨ a ∈ names := by
  induction names generalizing f with
  | nil => simp
  | cons name names ih =>
    rw [List.foldl_cons, ih]
    by_cases h : name ∈ f.seen
    · rw [visit_of_mem h]
      grind
    · rw [visit_of_not_mem h]
      grind

theorem mem_level_visitAll :
    a ∈ (names.foldl Front.visit f).level ↔ a ∈ f.level ∨ a ∈ names ∧ a ∉ f.seen := by
  induction names generalizing f with
  | nil => simp
  | cons name names ih =>
    rw [List.foldl_cons, ih]
    by_cases h : name ∈ f.seen
    · rw [visit_of_mem h]
      grind
    · rw [visit_of_not_mem h]
      grind

theorem nodup_level_visitAll (hlevel : f.level.Nodup) (hseen : ∀ a ∈ f.level, a ∈ f.seen) :
    (names.foldl Front.visit f).level.Nodup := by
  induction names generalizing f with
  | nil => exact hlevel
  | cons name names ih =>
    rw [List.foldl_cons]
    by_cases h : name ∈ f.seen
    · rw [visit_of_mem h]
      exact ih hlevel hseen
    · rw [visit_of_not_mem h]
      apply ih
      · rw [List.nodup_append]
        grind
      · grind

/-- Names that are new and differ from each other are all added, in their order. -/
theorem level_visitAll_of_fresh (hnodup : names.Nodup) (hfresh : ∀ a ∈ names, a ∉ f.seen) :
    (names.foldl Front.visit f).level = f.level ++ names := by
  induction names generalizing f with
  | nil => rw [List.foldl_nil, List.append_nil]
  | cons name names ih =>
    obtain ⟨hname, hnodup⟩ := List.nodup_cons.mp hnodup
    obtain ⟨hnew, hfresh⟩ := List.forall_mem_cons.mp hfresh
    rw [List.foldl_cons, visit_of_not_mem hnew, ih hnodup, List.append_assoc]
    · rfl
    · intro a ha hmem
      rcases List.mem_cons.mp hmem with rfl | hmem
      · exact hname ha
      · exact hfresh a ha hmem

theorem level_visitAll_sublist (f : Front) (names : List String) :
    ((names.foldl Front.visit f).level).Sublist (f.level ++ names) := by
  induction names generalizing f with
  | nil => rw [List.foldl_nil, List.append_nil]
  | cons name names ih =>
    rw [List.foldl_cons]
    refine (ih _).trans ?_
    by_cases h : name ∈ f.seen
    · rw [visit_of_mem h]
      exact (List.sublist_cons_self name names).append_left f.level
    · rw [visit_of_not_mem h, List.append_assoc]
      exact List.Sublist.refl _

end Visit

variable {t u : Table} {a b : String} {j k : Nat}

theorem exists_move_of_mem_targets {s : String} (h : b ∈ t.targets a s) :
    ∃ m, (s, m) ∈ (t.moves a).entries ∧ b ∈ m.names := by
  rw [targets] at h
  cases hmove : (t.moves a).get? s with
  | none =>
    rw [hmove] at h
    cases h
  | some m =>
    rw [hmove] at h
    exact ⟨m, Listing.get?_eq_some_iff.mp hmove, h⟩

theorem exists_edge_of_mem_targets {s : String} (h : b ∈ t.targets a s) : (a, b, s) ∈ t.edges := by
  obtain ⟨m, hm, hb⟩ := exists_move_of_mem_targets h
  rw [moves] at hm
  cases hstate : t.states.get? a with
  | none =>
    rw [hstate] at hm
    cases hm
  | some st =>
    rw [hstate] at hm
    rw [edges, List.mem_flatMap]
    refine ⟨(a, st), Listing.get?_eq_some_iff.mp hstate, ?_⟩
    rw [List.mem_flatMap]
    exact ⟨(s, m), hm, List.mem_map_of_mem hb⟩

theorem mem_symbols_of_mem_targets {s : String} (h : b ∈ t.targets a s) : s ∈ t.symbols a := by
  obtain ⟨m, hm, -⟩ := exists_move_of_mem_targets h
  exact mem_ascending.mpr (List.mem_map_of_mem hm)

theorem mem_successors : b ∈ t.successors a ↔ ∃ s, b ∈ t.targets a s := by
  rw [successors, List.mem_flatMap]
  exact exists_congr fun s => and_iff_right_of_imp mem_symbols_of_mem_targets

def advance (t : Table) (f : Front) : Front := t.nextFront f.seen f.level

def front (t : Table) (k : Nat) : Front := t.advance^[k] ⟨[t.start], [t.start]⟩

def level (t : Table) (k : Nat) : List String := (t.front k).level

/-- What the walk shows of a table: for each level what its states must agree on to be paired. -/
def signature (t : Table) (k : Nat) : List (Bool × List (String × Nat)) := (t.level k).map t.row

theorem mem_seen_advance {f : Front} :
    a ∈ (t.advance f).seen ↔ a ∈ f.seen ∨ ∃ b ∈ f.level, a ∈ t.successors b := by
  rw [advance, nextFront, mem_seen_visitAll, List.mem_flatMap]

theorem mem_level_advance {f : Front} :
    a ∈ (t.advance f).level ↔ (∃ b ∈ f.level, a ∈ t.successors b) ∧ a ∉ f.seen := by
  rw [advance, nextFront, mem_level_visitAll, List.mem_flatMap, or_iff_right (List.not_mem_nil)]

theorem nodup_level_advance (f : Front) : (t.advance f).level.Nodup :=
  nodup_level_visitAll List.nodup_nil (by simp)

theorem advance_of_level_eq_nil {f : Front} (h : f.level = []) : t.advance f = f := by
  obtain ⟨seen, level⟩ := f
  cases h
  rfl

theorem front_succ (t : Table) (k : Nat) : t.front (k + 1) = t.advance (t.front k) :=
  Function.iterate_succ_apply' t.advance k _

theorem mem_level_succ : a ∈ t.level (k + 1) ↔ (∃ b ∈ t.level k, a ∈ t.successors b) ∧ a ∉ (t.front k).seen := by
  rw [level, front_succ]
  exact mem_level_advance

theorem nodup_level (t : Table) (k : Nat) : (t.level k).Nodup := by
  cases k with
  | zero => exact List.nodup_singleton _
  | succ k =>
    rw [level, front_succ]
    exact nodup_level_advance _

/-- What has been seen is what the levels up to now hold. -/
theorem mem_seen_iff : a ∈ (t.front k).seen ↔ ∃ j ≤ k, a ∈ t.level j := by
  induction k with
  | zero =>
    refine ⟨fun h => ⟨0, le_rfl, h⟩, ?_⟩
    rintro ⟨j, hj, h⟩
    obtain rfl := Nat.le_zero.mp hj
    exact h
  | succ k ih =>
    rw [front_succ, mem_seen_advance, ih]
    constructor
    · rintro (⟨j, hj, h⟩ | hsucc)
      · exact ⟨j, hj.trans (Nat.le_succ k), h⟩
      · by_cases hseen : a ∈ (t.front k).seen
        · obtain ⟨j, hj, h⟩ := ih.mp hseen
          exact ⟨j, hj.trans (Nat.le_succ k), h⟩
        · exact ⟨k + 1, le_rfl, mem_level_succ.mpr ⟨hsucc, hseen⟩⟩
    · rintro ⟨j, hj, h⟩
      rcases Nat.le_succ_iff.mp hj with hj | rfl
      · exact .inl ⟨j, hj, h⟩
      · exact .inr (mem_level_succ.mp h).1

/-- A state is met once. -/
theorem level_unique (hj : a ∈ t.level j) (hk : a ∈ t.level k) : j = k := by
  have hle {j k : Nat} (hj : a ∈ t.level j) (hk : a ∈ t.level k) : j ≤ k := by
    by_contra hlt
    obtain ⟨i, rfl⟩ := Nat.exists_eq_add_of_lt (Nat.lt_of_not_le hlt)
    exact (mem_level_succ.mp hj).2 (mem_seen_iff.mpr ⟨k, Nat.le_add_right k i, hk⟩)
  exact Nat.le_antisymm (hle hj hk) (hle hk hj)

inductive Reaches (t : Table) : Nat → String → Prop
  | start : Reaches t 0 t.start
  | step {k : Nat} {a b s : String} (h : Reaches t k a) (hb : b ∈ t.targets a s) : Reaches t (k + 1) b

def Reachable (t : Table) (a : String) : Prop := ∃ k, t.Reaches k a

theorem reaches_of_mem_level (h : a ∈ t.level k) : t.Reaches k a := by
  induction k generalizing a with
  | zero =>
    rw [List.mem_singleton.mp h]
    exact .start
  | succ k ih =>
    obtain ⟨⟨b, hb, hsucc⟩, -⟩ := mem_level_succ.mp h
    obtain ⟨s, htarget⟩ := mem_successors.mp hsucc
    exact .step (ih hb) htarget

theorem Reaches.exists_level (h : t.Reaches k a) : ∃ j ≤ k, a ∈ t.level j := by
  induction h with
  | start => exact ⟨0, le_rfl, List.mem_singleton_self _⟩
  | @step k a b s _ hb ih =>
    obtain ⟨j, hj, ha⟩ := ih
    have hseen : b ∈ (t.front (j + 1)).seen := by
      rw [front_succ, mem_seen_advance]
      exact .inr ⟨a, ha, mem_successors.mpr ⟨s, hb⟩⟩
    obtain ⟨i, hi, hb⟩ := mem_seen_iff.mp hseen
    exact ⟨i, by omega, hb⟩

/-- The level of a state is its distance from the start. -/
theorem mem_level_iff : a ∈ t.level k ↔ IsLeast {j | t.Reaches j a} k := by
  constructor
  · intro h
    refine ⟨reaches_of_mem_level h, ?_⟩
    intro j hj
    obtain ⟨i, hi, ha⟩ := Reaches.exists_level hj
    rwa [level_unique h ha]
  · rintro ⟨hk, hleast⟩
    obtain ⟨j, hj, ha⟩ := hk.exists_level
    rwa [Nat.le_antisymm (hleast (reaches_of_mem_level ha)) hj]

theorem reachable_iff : t.Reachable a ↔ ∃ k, a ∈ t.level k := by
  constructor
  · rintro ⟨k, hk⟩
    obtain ⟨j, -, ha⟩ := hk.exists_level
    exact ⟨j, ha⟩
  · rintro ⟨k, ha⟩
    exact ⟨k, reaches_of_mem_level ha⟩

def unmet (t : Table) (seen : List String) : Finset String :=
  (t.edges.map fun e => e.2.1).toFinset \ seen.toFinset

theorem mem_unmet {seen : List String} : b ∈ t.unmet seen ↔ (∃ a s, (a, b, s) ∈ t.edges) ∧ b ∉ seen := by
  simp [unmet]

theorem card_unmet_le (t : Table) (seen : List String) : (t.unmet seen).card ≤ t.edges.length := by
  calc (t.unmet seen).card ≤ (t.edges.map fun e => e.2.1).toFinset.card := Finset.card_le_card Finset.sdiff_subset
    _ ≤ (t.edges.map fun e => e.2.1).length := List.toFinset_card_le _
    _ = t.edges.length := List.length_map _

/-- A round that meets a new state leaves fewer names to meet. -/
theorem card_unmet_advance_lt {f : Front} (h : (t.advance f).level ≠ []) :
    (t.unmet (t.advance f).seen).card < (t.unmet f.seen).card := by
  obtain ⟨b, hb⟩ := List.exists_mem_of_ne_nil _ h
  obtain ⟨⟨a, ha, hsucc⟩, hnew⟩ := mem_level_advance.mp hb
  obtain ⟨s, htarget⟩ := mem_successors.mp hsucc
  have hseen : b ∈ (t.advance f).seen := mem_seen_advance.mpr (.inr ⟨a, ha, hsucc⟩)
  apply Finset.card_lt_card
  apply (Finset.ssubset_iff_of_subset _).mpr
  · refine ⟨b, mem_unmet.mpr ⟨⟨a, s, exists_edge_of_mem_targets htarget⟩, hnew⟩, ?_⟩
    exact fun hmem => (mem_unmet.mp hmem).2 hseen
  · intro c hc
    obtain ⟨hedge, hc⟩ := mem_unmet.mp hc
    exact mem_unmet.mpr ⟨hedge, fun hmem => hc (mem_seen_advance.mpr (.inl hmem))⟩

/-- The rows of both fronts agree after any number of rounds. -/
def RowsAgree (t u : Table) (f g : Front) : Prop :=
  ∀ k, ((t.advance^[k] f).level.map t.row) = (u.advance^[k] g).level.map u.row

theorem RowsAgree.level {f g : Front} (h : t.RowsAgree u f g) : f.level.map t.row = g.level.map u.row := h 0

theorem RowsAgree.advance {f g : Front} (h : t.RowsAgree u f g) :
    t.RowsAgree u (t.advance f) (u.advance g) := by
  intro k
  rw [← Function.iterate_succ_apply, ← Function.iterate_succ_apply]
  exact h (k + 1)

theorem rowsAgree_of_level_eq {f g : Front} (hlevel : f.level.map t.row = g.level.map u.row)
    (h : t.RowsAgree u (t.advance f) (u.advance g)) : t.RowsAgree u f g := by
  intro k
  cases k with
  | zero => exact hlevel
  | succ k =>
    rw [Function.iterate_succ_apply, Function.iterate_succ_apply]
    exact h k

theorem rowsAgree_of_level_eq_nil {f g : Front} (hf : f.level = []) (hg : g.level = []) : t.RowsAgree u f g := by
  intro k
  rw [Function.iterate_fixed (advance_of_level_eq_nil hf), Function.iterate_fixed (advance_of_level_eq_nil hg), hf, hg]
  rfl

/-- Levels have the same rows if they are as long as each other and paired states agree. -/
theorem map_row_eq_iff {xs ys : List String} :
    (xs.length == ys.length && (xs.zip ys).all fun p => t.row p.1 == u.row p.2) = true ↔
      xs.map t.row = ys.map u.row := by
  induction xs generalizing ys with
  | nil => cases ys <;> simp
  | cons x xs ih =>
    cases ys with
    | nil => simp
    | cons y ys =>
      rw [List.map_cons, List.map_cons, List.cons.injEq, ← ih]
      simp only [List.length_cons, List.zip_cons_cons, List.all_cons, Bool.and_eq_true, beq_iff_eq,
        Nat.add_right_cancel_iff]
      exact and_left_comm

theorem rowsAgree_of_walkInStep {bound : Nat} {f g : Front} (h : walkInStep t u bound f g = true) :
    t.RowsAgree u f g := by
  induction bound generalizing f g with
  | zero => cases h
  | succ bound ih =>
    rw [walkInStep] at h
    split at h
    · next hf hg => exact rowsAgree_of_level_eq_nil hf hg
    · rw [Bool.and_eq_true] at h
      exact rowsAgree_of_level_eq (map_row_eq_iff.mp h.1) (ih h.2)

/-- The bound is never reached: a round whose level is not empty takes one name off those to meet, but for the
last of these rounds and the round that finds nothing. -/
theorem walkInStep_of_rowsAgree {bound : Nat} {f g : Front} (h : t.RowsAgree u f g) (hpos : 0 < bound)
    (hbound : f.level ≠ [] → (t.unmet f.seen).card + 2 ≤ bound) : walkInStep t u bound f g = true := by
  induction bound generalizing f g with
  | zero => omega
  | succ bound ih =>
    rw [walkInStep]
    split
    · rfl
    · next hne =>
      have hlevel : f.level ≠ [] := by
        intro hf
        have hg := h.level
        rw [hf, List.map_nil, eq_comm, List.map_eq_nil_iff] at hg
        exact hne hf hg
      have hleft := hbound hlevel
      rw [Bool.and_eq_true]
      refine ⟨map_row_eq_iff.mpr h.level, ih h.advance (by omega) ?_⟩
      intro hnext
      have hlt : (t.unmet (t.advance f).seen).card < (t.unmet f.seen).card := card_unmet_advance_lt hnext
      change (t.unmet (t.advance f).seen).card + 2 ≤ bound
      omega

/-- Tables are equivalent if and only if they show the same. -/
theorem equivalent_iff : t.equivalent u = true ↔ t.signature = u.signature := by
  rw [funext_iff]
  refine ⟨rowsAgree_of_walkInStep, fun h => walkInStep_of_rowsAgree h (by omega) fun _ => ?_⟩
  exact Nat.add_le_add_right (t.card_unmet_le _) 2

/-- Equivalence is an equivalence relation on all tables, those included in which edges run in circles or lead to
no state. -/
theorem equivalent_equivalence :
    (∀ t : Table, t.equivalent t = true) ∧ (∀ t u : Table, t.equivalent u = u.equivalent t) ∧
      ∀ t u v : Table, t.equivalent u = true → u.equivalent v = true → t.equivalent v = true := by
  refine ⟨?_, ?_, ?_⟩
  · intro t
    exact equivalent_iff.mpr rfl
  · intro t u
    rw [Bool.eq_iff_iff, equivalent_iff, equivalent_iff]
    exact eq_comm
  · intro t u v htu huv
    exact equivalent_iff.mpr ((equivalent_iff.mp htu).trans (equivalent_iff.mp huv))

end Table

end PatternAutomata
