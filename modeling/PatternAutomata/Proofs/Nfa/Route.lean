import PatternAutomata.Proofs.Nfa.Closure

namespace PatternAutomata

namespace Label

def read : Label → List Char → List Char
  | empty, w => w
  | char c, w => c :: w

theorem read_append (l : Label) (v w : List Char) : l.read v ++ w = l.read (v ++ w) := by
  cases l <;> rfl

end Label

/-- A route along labelled edges, with the characters that it reads. -/
inductive Route {σ : Type} (edge : σ → Label → σ → Prop) : σ → List Char → σ → Prop
  | nil (i : σ) : Route edge i [] i
  | step {i j k : σ} {l : Label} {w : List Char} : edge i l j → Route edge j w k → Route edge i (l.read w) k

namespace Route

variable {σ τ : Type} {edge : σ → Label → σ → Prop} {i j k : σ} {v w : List Char} {c : Char}

theorem trans (h : Route edge i v j) (h' : Route edge j w k) : Route edge i (v ++ w) k := by
  induction h with
  | nil i => exact h'
  | step he _ ih =>
    rw [Label.read_append]
    exact .step he (ih h')

theorem of_empty (he : edge i .empty j) : Route edge i [] j := .step he (.nil j)

theorem of_char (he : edge i (.char c) j) : Route edge i [c] j := .step he (.nil j)

/-- A route on two words in a row rests at a state between them. -/
theorem append_iff : Route edge i (v ++ w) k ↔ ∃ j, Route edge i v j ∧ Route edge j w k := by
  constructor
  · intro h
    -- By induction on the route: empty moves are put to the left word, letters to the word they belong to.
    generalize hu : v ++ w = u at h
    induction h generalizing v with
    | nil i =>
      obtain ⟨rfl, rfl⟩ := List.append_eq_nil_iff.mp hu
      exact ⟨i, .nil i, .nil i⟩
    | @step i _ _ l _ he hroute ih =>
      cases l with
      | empty =>
        obtain ⟨j, hv, hw⟩ := ih hu
        exact ⟨j, .step he hv, hw⟩
      | char c =>
        cases v with
        | nil =>
          obtain rfl : w = _ := hu
          exact ⟨i, .nil i, .step he hroute⟩
        | cons d v =>
          obtain ⟨rfl, htail⟩ := List.cons.inj hu
          obtain ⟨j, hv, hw⟩ := ih htail
          exact ⟨j, .step he hv, hw⟩
  · rintro ⟨j, hv, hw⟩
    exact hv.trans hw

/-- A route that reads nothing goes along empty moves. -/
theorem nil_iff : Route edge i [] k ↔ Relation.ReflTransGen (fun a b => edge a .empty b) i k := by
  constructor
  · intro h
    generalize hu : ([] : List Char) = u at h
    induction h with
    | nil i => exact .refl
    | @step _ _ _ l _ he _ ih =>
      cases l with
      | empty => exact .head he (ih hu)
      | char c => cases hu
  · intro h
    induction h using Relation.ReflTransGen.head_induction_on with
    | refl => exact .nil k
    | head he _ ih => exact .step he ih

/-- A route on one character makes one move on it, with empty moves around. -/
theorem singleton_iff : Route edge i [c] k ↔ ∃ a b, Route edge i [] a ∧ edge a (.char c) b ∧ Route edge b [] k := by
  constructor
  · intro h
    generalize hu : [c] = u at h
    induction h with
    | nil i => cases hu
    | @step i _ _ l _ he hroute ih =>
      cases l with
      | empty =>
        obtain ⟨a, b, ha, hab, hb⟩ := ih hu
        exact ⟨a, b, .step he ha, hab, hb⟩
      | char d =>
        obtain ⟨rfl, rfl⟩ := List.cons.inj hu
        exact ⟨i, _, .nil i, he, hroute⟩
  · rintro ⟨a, b, ha, hab, hb⟩
    exact ha.trans (.step hab hb)

/-- A route goes nowhere from a state without edges. -/
theorem of_sink (hsink : ∀ l j, ¬ edge i l j) (h : Route edge i w k) : w = [] ∧ k = i := by
  cases h with
  | nil i => exact ⟨rfl, rfl⟩
  | step he _ => exact absurd he (hsink _ _)

/-- What holds at the end with nothing left to read, and is carried back over each edge, holds at the start. -/
theorem carry {P : σ → List Char → Prop} (hnil : P k [])
    (hstep : ∀ i l j w, edge i l j → P j w → P i (l.read w)) (h : Route edge i w k) : P i w := by
  induction h with
  | nil i => exact hnil
  | step he _ ih => exact hstep _ _ _ _ he (ih hnil)

/-- Routes between images are images of routes if edges are, from states with a property that edges keep. -/
theorem map_iff {edge' : τ → Label → τ → Prop} {f : σ → τ} {P : σ → Prop}
    (hkept : ∀ i l j, P i → edge i l j → P j)
    (hedge : ∀ i l b, P i → (edge' (f i) l b ↔ ∃ j, edge i l j ∧ f j = b)) (hi : P i) {b : τ} :
    Route edge' (f i) w b ↔ ∃ j, Route edge i w j ∧ P j ∧ f j = b := by
  constructor
  · intro h
    generalize ha : f i = a at h
    induction h generalizing i with
    | nil a => exact ⟨i, .nil i, hi, ha⟩
    | step he _ ih =>
      subst ha
      obtain ⟨j, hij, hj⟩ := (hedge i _ _ hi).mp he
      obtain ⟨k, hjk, hk⟩ := ih (hkept i _ j hi hij) hj
      exact ⟨k, .step hij hjk, hk⟩
  · rintro ⟨j, h, -, rfl⟩
    induction h with
    | nil i => exact .nil (f i)
    | step he _ ih => exact .step ((hedge _ _ _ hi).mpr ⟨_, he, rfl⟩) (ih (hkept _ _ _ hi he))

end Route

namespace Nfa

def Edge (n : Nfa) (i : Nat) (l : Label) (j : Nat) : Prop := j ∈ n.targets i l

/-- The part of the automaton from the id `lo` on is closed: it holds the start, its edges lead to states that
belong to it, and its states list no label without a target. -/
structure Sound (n : Nfa) (lo : Nat) : Prop where
  start_mem : lo ≤ n.start ∧ n.firstId ≤ n.start ∧ n.start < n.firstId + n.size
  target : ∀ i l j, lo ≤ i → n.Edge i l j → lo ≤ j ∧ n.firstId ≤ j ∧ j < n.firstId + n.size
  listed : ∀ i s l ts, lo ≤ i → n.state? i = some s → s.edges.get? l = some ts → ts ≠ []

variable {n : Nfa} {lo : Nat}

theorem Sound.le_of_route (h : n.Sound lo) {i j : Nat} {w : List Char} (hi : lo ≤ i) (hroute : Route n.Edge i w j) :
    lo ≤ j := by
  induction hroute with
  | nil i => exact hi
  | step he _ ih => exact ih (h.target _ _ _ hi he).1

theorem Sound.mem_of_route (h : n.Sound lo) {i j : Nat} {w : List Char}
    (hi : lo ≤ i ∧ n.firstId ≤ i ∧ i < n.firstId + n.size) (hroute : Route n.Edge i w j) :
    lo ≤ j ∧ n.firstId ≤ j ∧ j < n.firstId + n.size := by
  induction hroute with
  | nil i => exact hi
  | step he _ ih => exact ih (h.target _ _ _ hi.1 he)

theorem mem_closure {ids : List Nat} {j : Nat} : j ∈ n.closure ids ↔ ∃ i ∈ ids, Route n.Edge i [] j := by
  simp only [Route.nil_iff]
  exact mem_closure_iff

theorem mem_step {ids : List Nat} {c : Char} {j : Nat} :
    j ∈ n.step ids c ↔ ∃ i ∈ ids, ∃ k, n.Edge i (.char c) k ∧ Route n.Edge k [] j := by
  simp only [step, mem_closure, List.mem_flatMap]
  constructor
  · rintro ⟨k, ⟨i, hi, hk⟩, hj⟩
    exact ⟨i, hi, k, hk, hj⟩
  · rintro ⟨i, hi, k, hk, hj⟩
    exact ⟨k, ⟨i, hi, hk⟩, hj⟩

theorem reach_concat (n : Nfa) (w : List Char) (c : Char) : n.reach (w ++ [c]) = n.step (n.reach w) c := by
  simp [reach]

/-- After a word the automaton is in the states that routes on it lead to. -/
theorem mem_reach {w : List Char} {j : Nat} : j ∈ n.reach w ↔ Route n.Edge n.start w j := by
  induction w using List.reverseRecOn generalizing j with
  | nil => simp [reach, mem_closure]
  | append_singleton w c ih =>
    rw [reach_concat, mem_step, Route.append_iff]
    simp only [ih, Route.singleton_iff]
    constructor
    · rintro ⟨i, hi, k, hk, hj⟩
      exact ⟨i, hi, i, k, .nil i, hk, hj⟩
    · rintro ⟨i, hi, a, b, ha, hab, hb⟩
      have hia := hi.trans ha
      rw [List.append_nil] at hia
      exact ⟨a, hia, b, hab, hb⟩

theorem accepts_iff {w : List Char} : n.accepts w = true ↔ Route n.Edge n.start w n.terminal := by
  rw [accepts, List.contains_iff_mem, mem_reach]

end Nfa

end PatternAutomata
