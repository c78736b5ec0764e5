import Mathlib.Data.Multiset.MapFold
import PatternAutomata.Proofs.Table.Levels

namespace PatternAutomata

def Targets.rename (f : String → String) : Targets → Targets
  | one name => one (f name)
  | many names => many (names.map f)

theorem Targets.names_rename (f : String → String) (m : Targets) : (m.rename f).names = m.names.map f := by
  cases m <;> rfl

namespace Table

def mentioned (t : Table) : List String := t.start :: t.states.keys ++ t.edges.map fun e => e.2.1

def unordered (t : Table) : Multiset (String × Bool × Multiset (String × Targets)) :=
  ↑(t.states.entries.map fun e => (e.1, e.2.accepting, (↑e.2.moves.entries : Multiset (String × Targets))))

/-- `u` is `t` with every name replaced by what `f` makes of it, and its states and their symbols listed in any
order. The targets of a symbol keep their order. -/
structure Renamed (f : String → String) (t u : Table) : Prop where
  start : u.start = f t.start
  states : u.unordered = t.unordered.map fun e => (f e.1, e.2.1, e.2.2.map fun m => (m.1, m.2.rename f))

variable {f : String → String} {t u : Table} {a b : String} {k : Nat}

theorem mem_unordered {e : String × Bool × Multiset (String × Targets)} :
    e ∈ t.unordered ↔ ∃ s, t.states.get? e.1 = some s ∧ e.2 = (s.accepting, ↑s.moves.entries) := by
  rw [unordered, Multiset.mem_coe, List.mem_map]
  constructor
  · rintro ⟨⟨a, s⟩, hs, rfl⟩
    exact ⟨s, Listing.get?_eq_some_iff.mpr hs, rfl⟩
  · rintro ⟨s, hs, he⟩
    exact ⟨(e.1, s), Listing.get?_eq_some_iff.mp hs, by rw [← he]⟩

theorem start_mem_mentioned : t.start ∈ t.mentioned := by
  simp [mentioned]

theorem state_mem_mentioned {s : State} (h : t.states.get? a = some s) : a ∈ t.mentioned := by
  have hmem : a ∈ t.states.keys := List.mem_map_of_mem (Listing.get?_eq_some_iff.mp h)
  simp [mentioned, hmem]

theorem target_mem_mentioned (h : b ∈ t.successors a) : b ∈ t.mentioned := by
  obtain ⟨s, htarget⟩ := mem_successors.mp h
  have hmem : b ∈ t.edges.map fun e => e.2.1 := List.mem_map_of_mem (exists_edge_of_mem_targets htarget)
  simp [mentioned, hmem]

namespace Renamed

/-- A state of `t` is found in `u` under its new name, with its moves renamed. -/
theorem exists_state (h : Renamed f t u) {s : State} (hs : t.states.get? a = some s) :
    ∃ s', u.states.get? (f a) = some s' ∧ s'.accepting = s.accepting ∧
      s'.moves.entries.Perm (s.moves.entries.map fun m => (m.1, m.2.rename f)) := by
  have hmem : (a, s.accepting, (↑s.moves.entries : Multiset (String × Targets))) ∈ t.unordered :=
    mem_unordered.mpr ⟨s, hs, rfl⟩
  have himage := Multiset.mem_map_of_mem (fun e => (f e.1, e.2.1, e.2.2.map fun m => (m.1, m.2.rename f))) hmem
  rw [← h.states] at himage
  obtain ⟨s', hs', heq⟩ := mem_unordered.mp himage
  obtain ⟨haccepting, hmoves⟩ := Prod.ext_iff.mp heq
  refine ⟨s', hs', haccepting.symm, ?_⟩
  rw [← Multiset.coe_eq_coe]
  exact hmoves.symm

/-- Every state of `u` was one of `t`. -/
theorem exists_origin (h : Renamed f t u) {s' : State} (hs' : u.states.get? b = some s') :
    ∃ a s, t.states.get? a = some s ∧ f a = b := by
  have hmem : (b, s'.accepting, (↑s'.moves.entries : Multiset (String × Targets))) ∈ u.unordered :=
    mem_unordered.mpr ⟨s', hs', rfl⟩
  rw [h.states, Multiset.mem_map] at hmem
  obtain ⟨e, he, heq⟩ := hmem
  obtain ⟨s, hs, -⟩ := mem_unordered.mp he
  exact ⟨e.1, s, hs, congrArg Prod.fst heq⟩

variable (inj : ∀ a ∈ t.mentioned, ∀ b ∈ t.mentioned, f a = f b → a = b)
include inj

theorem get?_eq_none (h : Renamed f t u) (ha : a ∈ t.mentioned) (hnone : t.states.get? a = none) :
    u.states.get? (f a) = none := by
  by_contra hne
  obtain ⟨s', hs'⟩ := Option.ne_none_iff_exists'.mp hne
  obtain ⟨b, s, hs, hb⟩ := h.exists_origin hs'
  rw [inj b (state_mem_mentioned hs) a ha hb, hnone] at hs
  cases hs

theorem isAccepting_eq (h : Renamed f t u) (ha : a ∈ t.mentioned) : u.isAccepting (f a) = t.isAccepting a := by
  rw [isAccepting, isAccepting]
  cases hs : t.states.get? a with
  | none => rw [h.get?_eq_none inj ha hs]
  | some s =>
    obtain ⟨s', hs', haccepting, -⟩ := h.exists_state hs
    rw [hs']
    exact haccepting

theorem moves_perm (h : Renamed f t u) (ha : a ∈ t.mentioned) :
    (u.moves (f a)).entries.Perm ((t.moves a).entries.map fun m => (m.1, m.2.rename f)) := by
  rw [moves, moves]
  cases hs : t.states.get? a with
  | none => rw [h.get?_eq_none inj ha hs]; rfl
  | some s =>
    obtain ⟨s', hs', -, hmoves⟩ := h.exists_state hs
    rw [hs']
    exact hmoves

theorem symbols_eq (h : Renamed f t u) (ha : a ∈ t.mentioned) : u.symbols (f a) = t.symbols a := by
  apply ascending_eq_of_mem_iff
  intro x
  have hkeys := ((h.moves_perm inj ha).map Prod.fst).mem_iff (a := x)
  rwa [List.map_map] at hkeys

theorem targets_eq (h : Renamed f t u) (ha : a ∈ t.mentioned) (s : String) :
    u.targets (f a) s = (t.targets a s).map f := by
  have hget : (u.moves (f a)).get? s = ((t.moves a).get? s).map (Targets.rename f) := by
    ext m
    rw [Listing.get?_eq_some_iff, (h.moves_perm inj ha).mem_iff, List.mem_map, Option.map_eq_some_iff]
    constructor
    · rintro ⟨m', hm', heq⟩
      obtain ⟨rfl, rfl⟩ := Prod.ext_iff.mp heq
      exact ⟨m'.2, Listing.get?_eq_some_iff.mpr hm', rfl⟩
    · rintro ⟨m', hm', rfl⟩
      exact ⟨(s, m'), Listing.get?_eq_some_iff.mp hm', rfl⟩
  rw [targets, targets, hget]
  cases (t.moves a).get? s with
  | none => rfl
  | some m => exact m.names_rename f

theorem row_eq (h : Renamed f t u) (ha : a ∈ t.mentioned) : u.row (f a) = t.row a := by
  rw [row, row, h.isAccepting_eq inj ha, h.symbols_eq inj ha]
  simp only [h.targets_eq inj ha, List.length_map]

theorem successors_eq (h : Renamed f t u) (ha : a ∈ t.mentioned) : u.successors (f a) = (t.successors a).map f := by
  rw [successors, successors, h.symbols_eq inj ha, List.map_flatMap]
  exact List.flatMap_congr fun s _ => h.targets_eq inj ha s

end Renamed

def Front.rename (f : String → String) (g : Front) : Front := ⟨g.seen.map f, g.level.map f⟩

def Mentions (t : Table) (g : Front) : Prop := (∀ a ∈ g.seen, a ∈ t.mentioned) ∧ ∀ a ∈ g.level, a ∈ t.mentioned

theorem Mentions.advance {g : Front} (h : t.Mentions g) : t.Mentions (t.advance g) := by
  refine ⟨?_, ?_⟩
  · intro a ha
    rcases mem_seen_advance.mp ha with ha | ⟨b, -, hb⟩
    · exact h.1 a ha
    · exact target_mem_mentioned hb
  · intro a ha
    obtain ⟨⟨b, -, hb⟩, -⟩ := mem_level_advance.mp ha
    exact target_mem_mentioned hb

theorem mentions_front (t : Table) (k : Nat) : t.Mentions (t.front k) := by
  induction k with
  | zero =>
    refine ⟨?_, ?_⟩ <;>
      · intro a ha
        rw [List.mem_singleton.mp ha]
        exact start_mem_mentioned
  | succ k ih =>
    rw [front_succ]
    exact ih.advance

section Renaming

variable (inj : ∀ a ∈ t.mentioned, ∀ b ∈ t.mentioned, f a = f b → a = b)
include inj

theorem visit_rename {g : Front} (hg : ∀ a ∈ g.seen, a ∈ t.mentioned) (ha : a ∈ t.mentioned) :
    (g.rename f).visit (f a) = (g.visit a).rename f := by
  have hmem : f a ∈ (g.rename f).seen ↔ a ∈ g.seen := by
    refine ⟨?_, List.mem_map_of_mem⟩
    intro hfa
    obtain ⟨b, hb, heq⟩ := List.mem_map.mp hfa
    rwa [← inj b (hg b hb) a ha heq]
  by_cases h : a ∈ g.seen
  · rw [visit_of_mem h, visit_of_mem (hmem.mpr h)]
  · rw [visit_of_not_mem h, visit_of_not_mem (mt hmem.mp h), Front.rename, Front.rename, List.map_append]
    rfl

theorem visitAll_rename {names : List String} {g : Front} (hg : ∀ a ∈ g.seen, a ∈ t.mentioned)
    (hnames : ∀ a ∈ names, a ∈ t.mentioned) :
    (names.map f).foldl Front.visit (g.rename f) = (names.foldl Front.visit g).rename f := by
  induction names generalizing g with
  | nil => rfl
  | cons a names ih =>
    obtain ⟨ha, hnames⟩ := List.forall_mem_cons.mp hnames
    rw [List.map_cons, List.foldl_cons, List.foldl_cons, visit_rename inj hg ha]
    apply ih _ hnames
    intro b hb
    have hb' : b ∈ ([a].foldl Front.visit g).seen := hb
    rcases mem_seen_visitAll.mp hb' with hb | hb
    · exact hg b hb
    · rwa [List.mem_singleton.mp hb]

theorem Renamed.advance_rename (h : Renamed f t u) {g : Front} (hg : t.Mentions g) :
    u.advance (g.rename f) = (t.advance g).rename f := by
  have hsuccessors : (g.rename f).level.flatMap u.successors = (g.level.flatMap t.successors).map f := by
    rw [Front.rename, List.flatMap_map, List.map_flatMap]
    exact List.flatMap_congr fun a ha => h.successors_eq inj (hg.2 a ha)
  rw [advance, advance, nextFront, nextFront, hsuccessors]
  apply visitAll_rename inj (g := ⟨g.seen, []⟩) hg.1
  intro b hb
  obtain ⟨a, -, hb⟩ := List.mem_flatMap.mp hb
  exact target_mem_mentioned hb

/-- The walks stay in step for ever. -/
theorem Renamed.front_eq (h : Renamed f t u) (k : Nat) : u.front k = (t.front k).rename f := by
  induction k with
  | zero =>
    rw [front, front, Function.iterate_zero_apply, Function.iterate_zero_apply, h.start]
    rfl
  | succ k ih =>
    rw [front_succ, front_succ, ih, h.advance_rename inj (t.mentions_front k)]

theorem Renamed.signature_eq (h : Renamed f t u) : u.signature = t.signature := by
  funext k
  rw [signature, signature, level, level, h.front_eq inj k, Front.rename, List.map_map]
  apply List.map_congr_left
  intro a ha
  exact h.row_eq inj ((t.mentions_front k).2 a ha)

end Renaming

/-- Tables that differ in names and order only are equivalent, as long as different names stay different. -/
theorem equivalent_of_renamed (h : Renamed f t u) (inj : ∀ a ∈ t.mentioned, ∀ b ∈ t.mentioned, f a = f b → a = b) :
    t.equivalent u = true ∧ u.equivalent t = true := by
  rw [equivalent_iff, equivalent_iff]
  exact ⟨(h.signature_eq inj).symm, h.signature_eq inj⟩

/-- Two names are swapped and both listings turned round; one state leads to itself, twice to the other and to a name
of no state. -/
theorem equivalent_of_swapped_names : ∃ (f : String → String) (t u : Table),
    f = (fun name => if name = "p" then "q" else if name = "q" then "p" else "r") ∧
      t = ((new "p").define "p" false [("ε", .many ["q", "q", "gone"]), ("a", .one "p")]).define "q" true [] ∧
      u = ((new "q").define "p" true []).define "q" false [("a", .one "q"), ("ε", .many ["p", "p", "r"])] ∧
      Renamed f t u ∧ (∀ a ∈ t.mentioned, ∀ b ∈ t.mentioned, f a = f b → a = b) ∧
      t.equivalent u = true ∧ u.equivalent t = true := by
  refine ⟨_, _, _, rfl, rfl, rfl, ?renamed, ?inj, equivalent_of_renamed ?renamed ?inj⟩
  case renamed => exact ⟨by decide, by decide⟩
  case inj => decide

end Table

end PatternAutomata
