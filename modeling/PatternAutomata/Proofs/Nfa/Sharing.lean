import PatternAutomata.Proofs.Nfa.Thompson

namespace PatternAutomata

namespace Arena

/-- The arenas that calls of the construction lead to from an empty one, with the fragments that the calls returned.
A call may take any of them, however often it was taken before. -/
inductive Reached (firstId : Nat) : Arena → List Fragment → Prop
  | empty : Reached firstId (.empty firstId) []
  | operand {a : Arena} {fs : List Fragment} (h : Reached firstId a fs) (v : Operand) :
      Reached firstId (construction.operand v a).2 ((construction.operand v a).1 :: fs)
  | repetition {a : Arena} {fs : List Fragment} (h : Reached firstId a fs) (r : Repetition) {f : Fragment}
      (hf : f ∈ fs) : Reached firstId (construction.repetition r f a).2 ((construction.repetition r f a).1 :: fs)
  | junction {a : Arena} {fs : List Fragment} (h : Reached firstId a fs) (j : Junction) {f g : Fragment}
      (hf : f ∈ fs) (hg : g ∈ fs) :
      Reached firstId (construction.junction j f g a).2 ((construction.junction j f g a).1 :: fs)

def Holds (a : Arena) (i : Nat) : Prop := a.firstId ≤ i ∧ i < a.top

/-- No edge leads out of the arena, and the fragments begin and end in it. -/
structure Intact (a : Arena) (fs : List Fragment) : Prop where
  closed : ∀ i l j, a.Draws i l j → a.Holds j
  ends : ∀ f ∈ fs, a.Holds f.entry ∧ a.Holds f.exit

namespace Intact

variable {a b : Arena} {fs : List Fragment} {f g : Fragment}

theorem empty (firstId : Nat) : Intact (.empty firstId) [] := by
  refine ⟨?_, by simp⟩
  intro i l j hdraws
  by_cases hi : (Arena.empty firstId).top ≤ i
  · exact absurd hdraws (not_draws_of_top_le hi l j)
  · have hnone : (Arena.empty firstId).state? i = none := by
      rw [state?, if_neg]
      exact hi
    rw [Draws, hnone] at hdraws
    cases hdraws

/-- A part that was added at the end. -/
theorem grown {L : Language Char} (h : Intact a fs) (hgrown : Grown a b f L) : Intact b (f :: fs) := by
  obtain ⟨hgrows, hpart⟩ := hgrown
  have hfirst : b.firstId ≤ a.top := hgrows.firstId_eq.trans_le a.firstId_le_top
  have hnew : ∀ j, a.top ≤ j ∧ j < b.top → b.Holds j := fun j hj => ⟨hfirst.trans hj.1, hj.2⟩
  have hold : ∀ j, a.Holds j → b.Holds j :=
    fun j hj => ⟨hgrows.firstId_eq.trans_le hj.1, hj.2.trans_le hgrows.top_le⟩
  refine ⟨?_, List.forall_mem_cons.mpr ⟨⟨hnew _ hpart.entry_mem, hnew _ hpart.exit_mem⟩, ?_⟩⟩
  · intro i l j hdraws
    by_cases hi : i < a.top
    · exact hold j (h.closed i l j ((hgrows.draws_iff hi l j).mp hdraws))
    · have hlt : i < b.top := by
        by_contra hlt
        exact not_draws_of_top_le (by omega) l j hdraws
      exact hnew j (hpart.closed i l j (by omega) hlt hdraws)
  · intro g hg
    exact (h.ends g hg).imp (hold _) (hold _)

/-- Two states more, with edges among them and the states before. -/
theorem enclose {edges : Nat → Nat → List Edge} (h : Intact a fs)
    (hedges : ∀ e ∈ edges a.top (a.top + 1), (a.firstId ≤ e.source ∧ e.source < a.top + 2) ∧
      a.firstId ≤ e.target ∧ e.target < a.top + 2) :
    Intact (Arena.enclose edges a).2 ((Arena.enclose edges a).1 :: fs) := by
  have hsource := fun e he => (hedges e he).1
  have hfirst := (extends_enclose le_rfl hsource a.firstId_le_top).firstId_eq
  have hmem : ∀ j, a.firstId ≤ j ∧ j < a.top + 2 → (Arena.enclose edges a).2.Holds j := by
    intro j hj
    rw [Holds, hfirst, top_enclose]
    exact hj
  have hold : ∀ j, a.Holds j → (Arena.enclose edges a).2.Holds j :=
    fun j hj => hmem j ⟨hj.1, hj.2.trans (by omega)⟩
  have hle := a.firstId_le_top
  refine ⟨?_, List.forall_mem_cons.mpr ⟨⟨hmem a.top (by omega), hmem (a.top + 1) (by omega)⟩, ?_⟩⟩
  · intro i l j hdraws
    rcases (draws_enclose le_rfl hsource i l j).mp hdraws with hdraws | ⟨e, he, -, -, rfl⟩
    · exact hold j (h.closed i l j hdraws)
    · exact hmem e.target (hedges e he).2
  · intro g hg
    exact (h.ends g hg).imp (hold _) (hold _)

theorem operand (h : Intact a fs) (v : Operand) :
    Intact (construction.operand v a).2 ((construction.operand v a).1 :: fs) := by
  by_cases hv : v.isBackward = false
  · exact h.grown (adds_operand hv a)
  · cases v with
    | char c => exact absurd rfl hv
    | range first last =>
      -- A range that runs backwards has no character after its first one.
      have hlt : last < first := by simpa [Operand.isBackward] using hv
      have hnone : charsBetween first last = [] := by
        rw [List.eq_nil_iff_forall_not_mem]
        intro c hc
        obtain ⟨hle, hle'⟩ := mem_charsBetween.mp hc
        exact Char.not_lt.mpr (Char.le_trans hle hle') hlt
      have hrun : Arena.operand (.range first last) = character first := by
        rw [Arena.operand, hnone]
        rfl
      show Intact (Arena.operand (.range first last) a).2 ((Arena.operand (.range first last) a).1 :: fs)
      rw [hrun]
      exact h.grown (grown_character first a)

theorem repetition (h : Intact a fs) (r : Repetition) (hf : f ∈ fs) :
    Intact (construction.repetition r f a).2 ((construction.repetition r f a).1 :: fs) := by
  obtain ⟨edges, hrun, hedges⟩ := exists_repetition_edges r f
  obtain ⟨⟨hentry, hentry'⟩, hexit, hexit'⟩ := h.ends f hf
  have hle := a.firstId_le_top
  show Intact (Arena.repetition r f a).2 ((Arena.repetition r f a).1 :: fs)
  rw [hrun]
  apply h.enclose
  intro e he
  have := ((hedges _ _ e).mp he).2
  omega

theorem junction (h : Intact a fs) (j : Junction) (hf : f ∈ fs) (hg : g ∈ fs) :
    Intact (construction.junction j f g a).2 ((construction.junction j f g a).1 :: fs) := by
  have hf' := h.ends f hf
  have hg' := h.ends g hg
  cases j with
  | concat =>
    have hhold : ∀ j, a.Holds j → (Arena.concat f g a).2.Holds j := by
      intro j hj
      rw [Holds, Arena.concat, top_connect]
      exact hj
    refine ⟨?_, List.forall_mem_cons.mpr ⟨⟨hhold _ hf'.1, hhold _ hg'.2⟩, ?_⟩⟩
    · intro i l j hdraws
      rcases (draws_connect a ⟨f.exit, .empty, g.entry⟩ hf'.2.1 hf'.2.2 i l j).mp hdraws with hdraws | ⟨-, -, rfl⟩
      · exact hhold j (h.closed i l j hdraws)
      · exact hhold _ hg'.1
    · intro k hk
      exact (h.ends k hk).imp (hhold _) (hhold _)
  | alternate =>
    obtain ⟨⟨_, _⟩, _, _⟩ := hf'
    obtain ⟨⟨_, _⟩, _, _⟩ := hg'
    have hle := a.firstId_le_top
    apply h.enclose
    simp only [List.forall_mem_cons]
    simp
    omega

end Intact

/-- Whatever calls were made, no edge leads out of the arena. -/
theorem Reached.intact {firstId : Nat} {a : Arena} {fs : List Fragment} (h : Reached firstId a fs) :
    a.Intact fs := by
  induction h with
  | empty => exact .empty firstId
  | operand _ v ih => exact ih.operand v
  | repetition _ r hf ih => exact ih.repetition r hf
  | junction _ j hf hg ih => exact ih.junction j hf hg

end Arena

/-- The automaton has the states of the arena as they were and, apart from them, states of its own. -/
structure Nfa.StandsOn (n : Nfa) (a : Arena) : Prop where
  firstId_eq : n.firstId = a.firstId
  kept : ∀ i, i < a.top → n.state? i = a.state? i
  apart : ∀ i l j, n.Edge i l j → (i < a.top ↔ j < a.top)

namespace Arena

variable {firstId : Nat} {a : Arena} {fs : List Fragment} {pattern : String} {items : List Postfix} {n : Nfa}

theorem Intact.standsOn (h : a.Intact fs) (hbuild : (a.build pattern items).1 = .ok n) : n.StandsOn a := by
  obtain ⟨e, he, -, rfl⟩ := build_eq_ok_iff.mp hbuild
  obtain ⟨hgrows, hpart⟩ := adds_fold he a
  refine ⟨hgrows.firstId_eq, hgrows.kept, ?_⟩
  intro i l j hedge
  by_cases hi : i < a.top
  · have hj := h.closed i l j ((hgrows.draws_iff hi l j).mp hedge)
    exact iff_of_true hi hj.2
  · have hlt : i < (construction.fold e a).2.top := by
      by_contra hlt
      exact not_draws_of_top_le (by omega) l j hedge
    have hj := hpart.closed i l j (by omega) hlt hedge
    omega

/-- On whatever calls have made, a postfix sequence builds an automaton that leaves it alone and accepts the words of
the one expression that the sequence is the postorder of. -/
theorem Reached.accepts_build (h : Reached firstId a fs) (hbuild : (a.build pattern items).1 = .ok n) :
    n.StandsOn a ∧ ∃ e : Expression, (∀ f : Expression, items = f.postorder ↔ f = e) ∧
      ∀ w, n.accepts w = true ↔ w ∈ e.language := by
  refine ⟨h.intact.standsOn hbuild, ?_⟩
  obtain ⟨e, he, rfl, rfl⟩ := build_eq_ok_iff.mp hbuild
  refine ⟨e, ?_, ?_⟩
  · intro f
    constructor
    · exact fun heq => (Expression.eq_of_postorder_eq he heq).symm
    · rintro rfl
      rfl
  · intro w
    exact (Nfa.faithful_fold a he).accepts_iff

theorem accepts_build_of_reused_fragment : ∃ (a : Arena) (n : Nfa),
    Reached 7 a [⟨11, 12⟩, ⟨9, 8⟩, ⟨9, 10⟩, ⟨7, 8⟩] ∧
      (a.build "" [.operand (.char 'b'), .operand (.range 'a' 'c'), .operator (.junction .alternate),
        .operand (.char epsilon), .operator (.junction .concat)]).1 = .ok n ∧
      n.StandsOn a ∧ n.accepts ['c', epsilon] = true := by
  let e : Expression := .junction .concat
    (.junction .alternate (.operand (.char 'b')) (.operand (.range 'a' 'c'))) (.operand (.char epsilon))
  have he : e.Forward := by decide
  have hmem : ['c', epsilon] ∈ e.language :=
    ⟨['c'], .inr ⟨'c', rfl, by decide⟩, [epsilon], ⟨epsilon, rfl, by decide⟩, rfl⟩
  -- A fragment and its repetition are joined, and joined again as alternatives of each other.
  have hfragment := Reached.operand (@Reached.empty 7) (.char 'x')
  have hrepeated := hfragment.repetition .star (List.mem_singleton_self _)
  have hjoined := hrepeated.junction .concat List.mem_cons_self (List.mem_cons_of_mem _ List.mem_cons_self)
  have hreached := hjoined.junction .alternate List.mem_cons_self (List.mem_cons_of_mem _ List.mem_cons_self)
  have hbuild := fun a : Arena => congrArg Prod.fst (a.build_postorder "" he)
  obtain ⟨hstands, e', hunique, haccepts⟩ := hreached.accepts_build (hbuild _)
  obtain rfl := (hunique e).mp rfl
  exact ⟨_, _, hreached, hbuild _, hstands, (haccepts _).mpr hmem⟩

end Arena

end PatternAutomata
