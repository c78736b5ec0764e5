import PatternAutomata.Proofs.Dfa.Constructed
import PatternAutomata.Proofs.Dfa.Determinized

namespace PatternAutomata

namespace Dfa

theorem before_or_eq_or_before (u v : List Char) : Before u v ∨ u = v ∨ Before v u := by
  unfold Before
  exact Std.Trichotomous.rel_or_eq_or_rel_swap

theorem before_trans {u v w : List Char} (huv : Before u v) (hvw : Before v w) : Before u w := by
  have : Std.Trichotomous Before :=
    ⟨fun u v huv hvu => ((before_or_eq_or_before u v).resolve_left huv).resolve_right hvu⟩
  have : IsWellFounded (List Char) Before := ⟨before_wf⟩
  have : IsWellOrder (List Char) Before := {}
  exact IsTrans.trans u v w huv hvw

/-- The word leads to the state, and comes before all others that do. -/
structure FirstWord (d : Dfa) (i : Nat) (w : List Char) : Prop where
  leads : d.walk? d.start w = some i
  first : ∀ v, d.walk? d.start v = some i → v ≠ w → Before w v

variable {d : Dfa} {i j : Nat} {u v w : List Char}

theorem exists_firstWord (h : ∃ w, d.walk? d.start w = some i) : ∃ w, d.FirstWord i w := by
  obtain ⟨w, hw, hnone⟩ := before_wf.has_min { w | d.walk? d.start w = some i } h
  refine ⟨w, hw, ?_⟩
  intro v hv hne
  exact ((before_or_eq_or_before w v).resolve_right fun h => h.elim (fun heq => hne heq.symm) (hnone v hv))

theorem FirstWord.unique (hu : d.FirstWord i u) (hv : d.FirstWord i v) : u = v := by
  by_contra hne
  have huv := hu.first v hv.leads (Ne.symm hne)
  have hvu := hv.first u hu.leads hne
  exact before_wf.asymmetric _ _ huv hvu

/-- State 0 is the start, every state has a first word, and a state with a smaller number has an earlier one. -/
structure NumberedByAccess (d : Dfa) : Prop where
  start_eq : d.start = 0
  start_lt : 0 < d.size
  exists_first : ∀ i < d.size, ∃! w, d.FirstWord i w
  ordered : ∀ i j u v, i < j → d.FirstWord i u → d.FirstWord j v → Before u v

/-- If words meet the states in order, then so do the first words. -/
theorem AccessOrdered.numberedByAccess (h : d.AccessOrdered) (hstart : d.start = 0) (hpos : 0 < d.size)
    (hreached : ∀ i < d.size, ∃ w, d.walk? d.start w = some i) : d.NumberedByAccess := by
  refine ⟨hstart, hpos, ?_, ?_⟩
  · intro i hi
    obtain ⟨w, hw⟩ := exists_firstWord (hreached i hi)
    exact ⟨w, hw, fun v hv => hv.unique hw⟩
  · intro i j u v hij hu hv
    -- Some word to `i` comes before `v`, and the first one is no later than that.
    obtain ⟨x, hxv, hx⟩ := h v j hv.leads i hij
    by_cases hxu : x = u
    · rw [← hxu]
      exact hxv
    · exact before_trans (hu.first x hx hxu) hxv

end Dfa

namespace Arena

variable {a : Arena} {pattern : String} {items : List Postfix} {n : Nfa}

/-- Both automata that are made of what is built number their states by access words, whatever the arena held before. -/
theorem numberedByAccess_toDfa (h : (a.build pattern items).1 = .ok n) :
    n.toDfa.NumberedByAccess ∧ n.toDfa.minimize.dfa.NumberedByAccess := by
  obtain ⟨e, -, hfaithful⟩ := Nfa.exists_faithful_of_build h
  have hn := hfaithful.sound
  have hd := n.wellFormed_toDfa
  have hordered := (Nfa.discovered_toDfa hn).accessOrdered rfl
  constructor
  · exact hordered.numberedByAccess rfl hd.start_lt fun i => Nfa.reached_toDfa hn
  · apply (Dfa.accessOrdered_minimize hd hordered).numberedByAccess
    · have hstart : n.toDfa.start = 0 := rfl
      rw [Dfa.start_minimize hd, hstart, Dfa.classOf_zero hd]
    · exact Nat.zero_lt_of_lt (Dfa.wellFormed_minimize hd).start_lt
    · intro i hi
      exact Dfa.reached_minimize hd (fun s => Nfa.reached_toDfa hn) hi

/-- The states after `b` and after `c` are merged, and the numbers of the others close up. -/
theorem numberedByAccess_toDfa_of_leftover_fragment : ∃ (a : Arena) (n : Nfa),
    (do let f ← character 'x'
        repetition .star f : StateM Arena Fragment) (.empty 7) = (⟨9, 10⟩, a) ∧
      (a.build "" [.operand (.char 'b'), .operand (.char 'c'), .operator (.junction .alternate),
        .operand (.char 'a'), .operator (.junction .concat)]).1 = .ok n ∧
      n.toDfa.NumberedByAccess ∧ n.toDfa.minimize.dfa.NumberedByAccess := by
  let e : Expression := .junction .concat (.junction .alternate (.operand (.char 'b')) (.operand (.char 'c')))
    (.operand (.char 'a'))
  have he : e.Forward := by decide
  have hbuild (a : Arena) := congrArg Prod.fst (a.build_postorder "" he)
  exact ⟨_, _, rfl, hbuild _, numberedByAccess_toDfa (hbuild _)⟩

end Arena

end PatternAutomata
