import PatternAutomata.Nfa.Fragment
import PatternAutomata.Proofs.Nfa.Route
import PatternAutomata.Proofs.Pattern.Expression

namespace PatternAutomata

open scoped Computability

/-- The states from `lo` up to `hi` as a fragment for the words of `L`. Every state lies between the entry
and the exit. -/
structure Part (edge : Nat → Label → Nat → Prop) (lo hi : Nat) (f : Fragment) (L : Language Char) : Prop where
  entry_mem : lo ≤ f.entry ∧ f.entry < hi
  exit_mem : lo ≤ f.exit ∧ f.exit < hi
  closed : ∀ i l j, lo ≤ i → i < hi → edge i l j → lo ≤ j ∧ j < hi
  sink : ∀ l j, ¬ edge f.exit l j
  reached : ∀ i, lo ≤ i → i < hi → ∃ w, Route edge f.entry w i
  leads : ∀ i, lo ≤ i → i < hi → ∃ w, Route edge i w f.exit
  word_iff : ∀ w, Route edge f.entry w f.exit ↔ w ∈ L

namespace Part

variable {edge edge' : Nat → Label → Nat → Prop} {lo mid hi : Nat} {f g : Fragment} {L M : Language Char}

/-- Routes of a part survive where its edges do. -/
theorem lift (h : Part edge lo hi f L) (hsub : ∀ i l j, lo ≤ i → i < hi → edge i l j → edge' i l j) {i j : Nat}
    {w : List Char} (hlo : lo ≤ i) (hhi : i < hi) (hroute : Route edge i w j) : Route edge' i w j := by
  induction hroute with
  | nil i => exact .nil i
  | step he _ ih =>
    obtain ⟨hjlo, hjhi⟩ := h.closed _ _ _ hlo hhi he
    exact .step (hsub _ _ _ hlo hhi he) (ih hjlo hjhi)

/-- A part depends on nothing but the edges of its states. -/
theorem congr (h : Part edge lo hi f L) (hedge : ∀ i l j, lo ≤ i → i < hi → (edge' i l j ↔ edge i l j)) :
    Part edge' lo hi f L := by
  have hto : ∀ {i j w}, lo ≤ i → i < hi → Route edge i w j → Route edge' i w j :=
    h.lift fun i l j hlo hhi he => (hedge i l j hlo hhi).mpr he
  have hclosed : ∀ i l j, lo ≤ i → i < hi → edge' i l j → lo ≤ j ∧ j < hi :=
    fun i l j hlo hhi he => h.closed i l j hlo hhi ((hedge i l j hlo hhi).mp he)
  have hfrom : ∀ {i j w}, lo ≤ i → i < hi → Route edge' i w j → Route edge i w j := by
    intro i j w hlo hhi hroute
    induction hroute with
    | nil i => exact .nil i
    | step he _ ih =>
      obtain ⟨hjlo, hjhi⟩ := hclosed _ _ _ hlo hhi he
      exact .step ((hedge _ _ _ hlo hhi).mp he) (ih hjlo hjhi)
  refine ⟨h.entry_mem, h.exit_mem, hclosed, ?_, ?_, ?_, ?_⟩
  · intro l j he
    exact h.sink l j ((hedge _ l j h.exit_mem.1 h.exit_mem.2).mp he)
  · intro i hlo hhi
    obtain ⟨w, hw⟩ := h.reached i hlo hhi
    exact ⟨w, hto h.entry_mem.1 h.entry_mem.2 hw⟩
  · intro i hlo hhi
    obtain ⟨w, hw⟩ := h.leads i hlo hhi
    exact ⟨w, hto hlo hhi hw⟩
  · intro w
    rw [← h.word_iff]
    exact ⟨hfrom h.entry_mem.1 h.entry_mem.2, hto h.entry_mem.1 h.entry_mem.2⟩

/-- Some word of the language leads through the part. -/
theorem exists_through (h : Part edge lo hi f L) : ∃ w, Route edge f.entry w f.exit :=
  h.leads f.entry h.entry_mem.1 h.entry_mem.2

theorem character {c : Char} (hedge : ∀ i l j, lo ≤ i → i < lo + 2 → (edge i l j ↔ i = lo ∧ l = .char c ∧ j = lo + 1)) :
    Part edge lo (lo + 2) ⟨lo, lo + 1⟩ (letters (· = c)) := by
  have hdraw : edge lo (.char c) (lo + 1) := (hedge _ _ _ le_rfl (by omega)).mpr ⟨rfl, rfl, rfl⟩
  have hthrough : Route edge lo [c] (lo + 1) := .of_char hdraw
  have hstate : ∀ i, lo ≤ i → i < lo + 2 → i = lo ∨ i = lo + 1 := by omega
  have hsink : ∀ l j, ¬ edge (lo + 1) l j := by
    intro l j he
    have := ((hedge (lo + 1) l j (by omega) (by omega)).mp he).1
    omega
  refine ⟨by simp, by simp, ?_, hsink, ?_, ?_, ?_⟩
  · intro i l j hlo hhi he
    obtain ⟨-, -, rfl⟩ := (hedge i l j hlo hhi).mp he
    omega
  · intro i hlo hhi
    rcases hstate i hlo hhi with rfl | rfl
    · exact ⟨[], .nil _⟩
    · exact ⟨[c], hthrough⟩
  · intro i hlo hhi
    rcases hstate i hlo hhi with rfl | rfl
    · exact ⟨[c], hthrough⟩
    · exact ⟨[], .nil _⟩
  · intro w
    rw [mem_letters_eq]
    constructor
    · intro hroute
      cases hroute with
      | step he hrest =>
        obtain ⟨-, rfl, rfl⟩ := (hedge lo _ _ le_rfl (by omega)).mp he
        rw [(hrest.of_sink hsink).1]
        rfl
    · rintro rfl
      exact hthrough

structure Crosses (edge : Nat → Label → Nat → Prop) (lo mid hi : Nat) (f g : Fragment) (M : Language Char) (i : Nat)
    (w : List Char) : Prop where
  left : lo ≤ i → i < mid → ∃ u v, Route edge i u f.exit ∧ v ∈ M ∧ u ++ v = w
  right : mid ≤ i → i < hi → Route edge i w g.exit

section Concat

variable (h : Part edge lo mid f L) (h' : Part edge mid hi g M)
  (hedge : ∀ i l j, lo ≤ i → i < hi → (edge' i l j ↔ edge i l j ∨ i = f.exit ∧ l = .empty ∧ j = g.entry))
include h h' hedge

theorem crosses_of_route {i : Nat} {w : List Char} (hroute : Route edge' i w g.exit) :
    Crosses edge lo mid hi f g M i w := by
  have hlo := h.exit_mem.1
  have hmid := h.exit_mem.2
  have hmid' := h'.exit_mem.1
  have hentry := h'.entry_mem
  refine hroute.carry ⟨fun _ _ => by omega, fun _ _ => .nil _⟩ ?_
  -- The only edge that leaves the left part starts at its exit and leads to the entry of the right one.
  intro i l j w he hw
  constructor
  · intro hi₁ hi₂
    rcases (hedge i l j hi₁ (by omega)).mp he with he | ⟨rfl, rfl, rfl⟩
    · obtain ⟨hj₁, hj₂⟩ := h.closed i l j hi₁ hi₂ he
      obtain ⟨u, v, hu, hv, rfl⟩ := hw.left hj₁ hj₂
      exact ⟨l.read u, v, .step he hu, hv, l.read_append u v⟩
    · exact ⟨[], w, .nil _, (h'.word_iff w).mp (hw.right hentry.1 hentry.2), rfl⟩
  · intro hi₁ hi₂
    rcases (hedge i l j (by omega) hi₂).mp he with he | ⟨rfl, -, -⟩
    · obtain ⟨hj₁, hj₂⟩ := h'.closed i l j hi₁ hi₂ he
      exact .step he (hw.right hj₁ hj₂)
    · omega

theorem concat : Part edge' lo hi ⟨f.entry, g.exit⟩ (L * M) := by
  obtain ⟨hf₁, hf₂⟩ := h.entry_mem
  obtain ⟨hf₃, hf₄⟩ := h.exit_mem
  obtain ⟨hg₁, hg₂⟩ := h'.entry_mem
  obtain ⟨hg₃, hg₄⟩ := h'.exit_mem
  have hleft : ∀ {i j w}, lo ≤ i → i < mid → Route edge i w j → Route edge' i w j :=
    h.lift fun i l j hlo hhi he => (hedge i l j hlo (by omega)).mpr (.inl he)
  have hright : ∀ {i j w}, mid ≤ i → i < hi → Route edge i w j → Route edge' i w j :=
    h'.lift fun i l j hlo hhi he => (hedge i l j (by omega) hhi).mpr (.inl he)
  -- The one new edge; each route through the whole crosses it once.
  have hbridge : Route edge' f.exit [] g.entry := .of_empty ((hedge _ _ _ hf₃ (by omega)).mpr (.inr ⟨rfl, rfl, rfl⟩))
  have hentry : f.entry < hi := by omega
  have hexit : lo ≤ g.exit := by omega
  refine ⟨⟨hf₁, hentry⟩, ⟨hexit, hg₄⟩, ?_, ?_, ?_, ?_, ?_⟩
  · intro i l j hlo hhi he
    rcases (hedge i l j hlo hhi).mp he with he | ⟨-, -, rfl⟩
    · by_cases hi' : i < mid
      · have := h.closed i l j hlo hi' he
        omega
      · have := h'.closed i l j (by omega) hhi he
        omega
    · omega
  · intro l j he
    rcases (hedge g.exit l j hexit hg₄).mp he with he | ⟨he, -, -⟩
    · exact h'.sink l j he
    · omega
  · intro i hlo hhi
    by_cases hi' : i < mid
    · obtain ⟨w, hw⟩ := h.reached i hlo hi'
      exact ⟨w, hleft hf₁ hf₂ hw⟩
    · obtain ⟨v, hv⟩ := h.exists_through
      obtain ⟨w, hw⟩ := h'.reached i (by omega) hhi
      exact ⟨_, ((hleft hf₁ hf₂ hv).trans hbridge).trans (hright hg₁ hg₂ hw)⟩
  · intro i hlo hhi
    by_cases hi' : i < mid
    · obtain ⟨v, hv⟩ := h.leads i hlo hi'
      obtain ⟨w, hw⟩ := h'.exists_through
      exact ⟨_, ((hleft hlo hi' hv).trans hbridge).trans (hright hg₁ hg₂ hw)⟩
    · obtain ⟨w, hw⟩ := h'.leads i (by omega) hhi
      exact ⟨w, hright (by omega) hhi hw⟩
  · intro w
    rw [Language.mem_mul]
    constructor
    · intro hroute
      obtain ⟨u, v, hu, hv, rfl⟩ := (crosses_of_route h h' hedge hroute).left hf₁ hf₂
      exact ⟨u, (h.word_iff u).mp hu, v, hv, rfl⟩
    · rintro ⟨u, hu, v, hv, rfl⟩
      have hroute := ((hleft hf₁ hf₂ ((h.word_iff u).mpr hu)).trans hbridge).trans
        (hright hg₁ hg₂ ((h'.word_iff v).mpr hv))
      simpa using hroute

end Concat

end Part

/-- States from `lo` to `hi` that their edges do not leave, with two states more: the first is the new entry, the
second the new exit, and empty moves are drawn as `new` says. -/
structure Encloses (edge edge' : Nat → Label → Nat → Prop) (lo hi : Nat) (new : Nat → Nat → Prop) : Prop where
  lo_le : lo ≤ hi
  closed : ∀ i l j, lo ≤ i → i < hi → edge i l j → lo ≤ j ∧ j < hi
  fresh : ∀ i l j, hi ≤ i → ¬ edge i l j
  new_mem : ∀ i j, new i j → (lo ≤ i ∧ i ≤ hi) ∧ lo ≤ j ∧ j < hi + 2
  edge_iff : ∀ i l j, lo ≤ i → i < hi + 2 → (edge' i l j ↔ edge i l j ∨ l = .empty ∧ new i j)

structure Remains (lo hi : Nat) (P : Nat → List Char → Prop) (Q : List Char → Prop) (i : Nat) (w : List Char) :
    Prop where
  inside : lo ≤ i → i < hi → P i w
  entry : i = hi → Q w
  exit : i = hi + 1 → w = []

namespace Encloses

variable {edge edge' : Nat → Label → Nat → Prop} {new : Nat → Nat → Prop} {lo hi : Nat} {L : Language Char}

theorem draw (h : Encloses edge edge' lo hi new) {i j : Nat} (hnew : new i j) : Route edge' i [] j := by
  obtain ⟨hi₁, hi₂⟩ := (h.new_mem i j hnew).1
  exact .of_empty ((h.edge_iff i .empty j hi₁ (by omega)).mpr (.inr ⟨rfl, hnew⟩))

theorem sink (h : Encloses edge edge' lo hi new) (l : Label) (j : Nat) : ¬ edge' (hi + 1) l j := by
  intro he
  have hlo := h.lo_le
  rcases (h.edge_iff (hi + 1) l j (by omega) (by omega)).mp he with he | ⟨-, hnew⟩
  · exact h.fresh (hi + 1) l j (by omega) he
  · have := (h.new_mem (hi + 1) j hnew).1
    omega

/-- The routes through the enclosed states make a part of them. -/
theorem part (h : Encloses edge edge' lo hi new) (hreached : ∀ i, lo ≤ i → i < hi → ∃ w, Route edge' hi w i)
    (hleads : ∀ i, lo ≤ i → i < hi → ∃ w, Route edge' i w (hi + 1)) (hthrough : ∃ w, Route edge' hi w (hi + 1))
    (hword : ∀ w, Route edge' hi w (hi + 1) ↔ w ∈ L) : Part edge' lo (hi + 2) ⟨hi, hi + 1⟩ L := by
  have hlo := h.lo_le
  have hcases : ∀ i, i < hi + 2 → i < hi ∨ i = hi ∨ i = hi + 1 := by omega
  refine ⟨by simp; omega, by simp; omega, ?_, h.sink, ?_, ?_, hword⟩
  · intro i l j hi₁ hi₂ he
    rcases (h.edge_iff i l j hi₁ hi₂).mp he with he | ⟨-, hnew⟩
    · by_cases hin : i < hi
      · have := h.closed i l j hi₁ hin he
        omega
      · exact absurd he (h.fresh i l j (by omega))
    · exact (h.new_mem i j hnew).2
  · intro i hi₁ hi₂
    rcases hcases i hi₂ with hin | rfl | rfl
    · exact hreached i hi₁ hin
    · exact ⟨[], .nil _⟩
    · exact hthrough
  · intro i hi₁ hi₂
    rcases hcases i hi₂ with hin | rfl | rfl
    · exact hleads i hi₁ hin
    · exact hthrough
    · exact ⟨[], .nil _⟩

/-- What is carried back over every edge inside and over every new one holds of the words from the new entry on. -/
theorem carry (h : Encloses edge edge' lo hi new) {P : Nat → List Char → Prop} {Q : List Char → Prop}
    (hinside : ∀ i l j w, lo ≤ i → i < hi → edge i l j → P j w → P i (l.read w))
    (hturn : ∀ i j w, lo ≤ i → i < hi → new i j → Remains lo hi P Q j w → P i w)
    (hbegin : ∀ j w, new hi j → Remains lo hi P Q j w → Q w) {w : List Char} (hroute : Route edge' hi w (hi + 1)) :
    Q w := by
  have hlo := h.lo_le
  have hremains : Remains lo hi P Q hi w := by
    refine hroute.carry ⟨by omega, by omega, fun _ => rfl⟩ ?_
    intro i l j w he hw
    refine ⟨?_, ?_, ?_⟩
    · intro hi₁ hi₂
      rcases (h.edge_iff i l j hi₁ (by omega)).mp he with he | ⟨rfl, hnew⟩
      · obtain ⟨hj₁, hj₂⟩ := h.closed i l j hi₁ hi₂ he
        exact hinside i l j w hi₁ hi₂ he (hw.inside hj₁ hj₂)
      · exact hturn i j w hi₁ hi₂ hnew hw
    · rintro rfl
      rcases (h.edge_iff i l j hlo (by omega)).mp he with he | ⟨rfl, hnew⟩
      · exact absurd he (h.fresh i l j le_rfl)
      · exact hbegin j w hnew hw
    · rintro rfl
      exact absurd he (h.sink l j)
  exact hremains.entry rfl

end Encloses

namespace Part

variable {edge edge' : Nat → Label → Nat → Prop} {lo mid hi : Nat} {f g : Fragment} {L M : Language Char}

section Alternate

variable (h : Part edge lo mid f L) (h' : Part edge mid hi g M) (hfresh : ∀ i l j, hi ≤ i → ¬ edge i l j)
  (hedge : ∀ i l j, lo ≤ i → i < hi + 2 → (edge' i l j ↔ edge i l j ∨
    l = .empty ∧ (i = hi ∧ (j = f.entry ∨ j = g.entry) ∨ (i = f.exit ∨ i = g.exit) ∧ j = hi + 1)))
include h h' hfresh hedge

theorem encloses_alternate : Encloses edge edge' lo hi fun i j =>
    i = hi ∧ (j = f.entry ∨ j = g.entry) ∨ (i = f.exit ∨ i = g.exit) ∧ j = hi + 1 := by
  have hentry := h.entry_mem
  have hexit := h.exit_mem
  have hentry' := h'.entry_mem
  have hexit' := h'.exit_mem
  refine ⟨by omega, ?_, hfresh, by omega, hedge⟩
  intro i l j hlo hhi he
  by_cases hmid : i < mid
  · have := h.closed i l j hlo hmid he
    omega
  · have := h'.closed i l j (by omega) hhi he
    omega

theorem mem_of_route_alternate {w : List Char} (hroute : Route edge' hi w (hi + 1)) : w ∈ L ∨ w ∈ M := by
  have hexit := h.exit_mem
  have hexit' := h'.exit_mem
  have hentry := h.entry_mem
  have hentry' := h'.entry_mem
  -- Inside either part a word finishes that part.
  refine (encloses_alternate h h' hfresh hedge).carry
    (P := fun i w => (i < mid → Route edge i w f.exit) ∧ (mid ≤ i → Route edge i w g.exit))
    (Q := fun w => w ∈ L ∨ w ∈ M) ?_ ?_ ?_ hroute
  · intro i l j w hlo hhi he hw
    constructor
    · intro hmid
      exact .step he (hw.1 (h.closed i l j hlo hmid he).2)
    · intro hmid
      exact .step he (hw.2 (h'.closed i l j hmid hhi he).1)
  · intro i j w hlo hhi hnew hw
    rw [hw.exit (by omega)]
    constructor
    · intro hmid
      obtain rfl : i = f.exit := by omega
      exact .nil _
    · intro hmid
      obtain rfl : i = g.exit := by omega
      exact .nil _
  · intro j w hnew hw
    obtain rfl | rfl : j = f.entry ∨ j = g.entry := by omega
    · exact .inl ((h.word_iff w).mp ((hw.inside (by omega) (by omega)).1 (by omega)))
    · exact .inr ((h'.word_iff w).mp ((hw.inside (by omega) (by omega)).2 (by omega)))

theorem alternate : Part edge' lo (hi + 2) ⟨hi, hi + 1⟩ (L + M) := by
  obtain ⟨hf₁, hf₂⟩ := h.entry_mem
  obtain ⟨hg₁, hg₂⟩ := h'.entry_mem
  have hencloses := encloses_alternate h h' hfresh hedge
  have hleft : ∀ {i j w}, lo ≤ i → i < mid → Route edge i w j → Route edge' i w j :=
    h.lift fun i l j hlo hhi he => (hedge i l j hlo (by omega)).mpr (.inl he)
  have hright : ∀ {i j w}, mid ≤ i → i < hi → Route edge i w j → Route edge' i w j :=
    h'.lift fun i l j hlo hhi he => (hedge i l j (by omega) (by omega)).mpr (.inl he)
  -- The four new edges: into both parts and out of them.
  have hinto : Route edge' hi [] f.entry := hencloses.draw (.inl ⟨rfl, .inl rfl⟩)
  have hinto' : Route edge' hi [] g.entry := hencloses.draw (.inl ⟨rfl, .inr rfl⟩)
  have hout : Route edge' f.exit [] (hi + 1) := hencloses.draw (.inr ⟨.inl rfl, rfl⟩)
  have hout' : Route edge' g.exit [] (hi + 1) := hencloses.draw (.inr ⟨.inr rfl, rfl⟩)
  have hpass : ∀ w ∈ L + M, Route edge' hi w (hi + 1) := by
    rintro w (hw | hw)
    · simpa using (hinto.trans (hleft hf₁ hf₂ ((h.word_iff w).mpr hw))).trans hout
    · simpa using (hinto'.trans (hright hg₁ hg₂ ((h'.word_iff w).mpr hw))).trans hout'
  apply hencloses.part
  · intro i hlo hhi
    by_cases hmid : i < mid
    · obtain ⟨w, hw⟩ := h.reached i hlo hmid
      exact ⟨_, hinto.trans (hleft hf₁ hf₂ hw)⟩
    · obtain ⟨w, hw⟩ := h'.reached i (by omega) hhi
      exact ⟨_, hinto'.trans (hright hg₁ hg₂ hw)⟩
  · intro i hlo hhi
    by_cases hmid : i < mid
    · obtain ⟨w, hw⟩ := h.leads i hlo hmid
      exact ⟨_, (hleft hlo hmid hw).trans hout⟩
    · obtain ⟨w, hw⟩ := h'.leads i (by omega) hhi
      exact ⟨_, (hright (by omega) hhi hw).trans hout'⟩
  · obtain ⟨w, hw⟩ := h.exists_through
    exact ⟨w, hpass w (.inl ((h.word_iff w).mp hw))⟩
  · intro w
    exact ⟨mem_of_route_alternate h h' hfresh hedge, hpass w⟩

end Alternate

section Repetition

variable (r : Repetition) (h : Part edge lo hi f L) (hfresh : ∀ i l j, hi ≤ i → ¬ edge i l j)
  (hedge : ∀ i l j, lo ≤ i → i < hi + 2 → (edge' i l j ↔ edge i l j ∨
    l = .empty ∧ (i = hi ∧ (j = f.entry ∨ j = hi + 1 ∧ r ≠ .plus) ∨
      i = f.exit ∧ (j = hi + 1 ∨ j = hi ∧ r ≠ .optional))))
include h hfresh hedge

theorem encloses_repetition : Encloses edge edge' lo hi fun i j =>
    i = hi ∧ (j = f.entry ∨ j = hi + 1 ∧ r ≠ .plus) ∨ i = f.exit ∧ (j = hi + 1 ∨ j = hi ∧ r ≠ .optional) := by
  have hentry := h.entry_mem
  have hexit := h.exit_mem
  exact ⟨by omega, h.closed, hfresh, by omega, hedge⟩

theorem mem_of_route_repetition {w : List Char} (hroute : Route edge' hi w (hi + 1)) : w ∈ r.language L := by
  have hentry := h.entry_mem
  have hexit := h.exit_mem
  -- Inside the part a word finishes a pass and then either ends or goes round again.
  refine (encloses_repetition r h hfresh hedge).carry
    (P := fun i w => ∃ u v, Route edge i u f.exit ∧ (v = [] ∨ r ≠ .optional ∧ v ∈ r.language L) ∧ u ++ v = w)
    (Q := fun w => w ∈ r.language L) ?_ ?_ ?_ hroute
  · rintro i l j _ - - he ⟨u, v, hu, hv, rfl⟩
    exact ⟨l.read u, v, .step he hu, hv, l.read_append u v⟩
  · intro i j w hlo hhi hnew hw
    rcases hnew with hnew | ⟨rfl, rfl | ⟨rfl, hr⟩⟩
    · omega
    · exact ⟨[], w, .nil _, .inl (hw.exit rfl), rfl⟩
    · exact ⟨[], w, .nil _, .inr ⟨hr, hw.entry rfl⟩, rfl⟩
  · intro j w hnew hw
    rcases hnew with ⟨-, rfl | ⟨rfl, hr⟩⟩ | hnew
    · obtain ⟨u, v, hu, hv, rfl⟩ := hw.inside hentry.1 hentry.2
      have hul : u ∈ L := (h.word_iff u).mp hu
      rcases hv with rfl | ⟨hr, hv⟩
      · rw [List.append_nil]
        exact r.one_mem_language hul
      · exact Repetition.append_mem_language hr hul hv
    · rw [hw.exit rfl]
      exact Repetition.nil_mem_language hr L
    · omega

theorem repetition : Part edge' lo (hi + 2) ⟨hi, hi + 1⟩ (r.language L) := by
  obtain ⟨hf₁, hf₂⟩ := h.entry_mem
  have hencloses := encloses_repetition r h hfresh hedge
  have hinner : ∀ {i j w}, lo ≤ i → i < hi → Route edge i w j → Route edge' i w j :=
    h.lift fun i l j hlo hhi he => (hedge i l j hlo (by omega)).mpr (.inl he)
  have hinto : Route edge' hi [] f.entry := hencloses.draw (.inl ⟨rfl, .inl rfl⟩)
  have hout : Route edge' f.exit [] (hi + 1) := hencloses.draw (.inr ⟨rfl, .inl rfl⟩)
  have hpass : ∀ w ∈ L, Route edge' hi w (hi + 1) := by
    intro w hw
    simpa using (hinto.trans (hinner hf₁ hf₂ ((h.word_iff w).mpr hw))).trans hout
  apply hencloses.part
  · intro i hlo hhi
    obtain ⟨w, hw⟩ := h.reached i hlo hhi
    exact ⟨_, hinto.trans (hinner hf₁ hf₂ hw)⟩
  · intro i hlo hhi
    obtain ⟨w, hw⟩ := h.leads i hlo hhi
    exact ⟨_, (hinner hlo hhi hw).trans hout⟩
  · obtain ⟨w, hw⟩ := h.exists_through
    exact ⟨w, hpass w ((h.word_iff w).mp hw)⟩
  · intro w
    refine ⟨mem_of_route_repetition r h hfresh hedge, ?_⟩
    -- A word of the closure is passed piece by piece, and each piece but the last goes back to the new entry.
    apply Repetition.language_induction (P := fun w => Route edge' hi w (hi + 1))
    · intro hr
      exact hencloses.draw (.inl ⟨rfl, .inr ⟨rfl, hr⟩⟩)
    · exact hpass
    · intro hr u hu v hv
      have hback : Route edge' f.exit [] hi := hencloses.draw (.inr ⟨rfl, .inr ⟨rfl, hr⟩⟩)
      have hround := (hinto.trans (hinner hf₁ hf₂ ((h.word_iff u).mpr hu))).trans hback
      simpa using hround.trans hv

end Repetition

end Part

end PatternAutomata
