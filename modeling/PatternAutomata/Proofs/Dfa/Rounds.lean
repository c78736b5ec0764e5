import PatternAutomata.Proofs.Dfa.Constructed

namespace PatternAutomata

namespace Dfa

variable {d : Dfa} {partition : List (List Nat)} {block : List Nat}

/-- On each character, the members of a block all lead nowhere or all lead into one block. -/
def Stable (d : Dfa) (partition : List (List Nat)) : Prop :=
  ∀ block ∈ partition, ∀ c, (∀ s ∈ block, d.transition? s c = none) ∨
    ∃ target ∈ partition, ∀ s ∈ block, ∃ t ∈ target, d.transition? s c = some t

theorem blockAfter_eq_none_iff {s : Nat} {c : Char} :
    d.blockAfter partition s c = none ↔ d.transition? s c = none := Option.map_eq_none_iff

theorem Divides.blockAfter_eq_some_iff (h : Divides d.size partition) (hd : d.WellFormed) {target : List Nat} {k : Nat}
    (hk : partition[k]? = some target) {s : Nat} {c : Char} :
    d.blockAfter partition s c = some k ↔ ∃ t ∈ target, d.transition? s c = some t := by
  rw [blockAfter, Option.map_eq_some_iff]
  constructor
  · rintro ⟨t, ht, hnumber⟩
    exact ⟨t, (h.mem_iff_number hk (hd.transition?_lt ht)).mpr hnumber, ht⟩
  · rintro ⟨t, hmem, ht⟩
    exact ⟨t, ht, h.number_eq hk hmem⟩

theorem Divides.exists_target (h : Divides d.size partition) (hd : d.WellFormed) {s k : Nat} {c : Char}
    (hk : d.blockAfter partition s c = some k) : ∃ target, partition[k]? = some target := by
  obtain ⟨t, ht, rfl⟩ := Option.map_eq_some_iff.mp hk
  obtain ⟨target, htarget, hmem⟩ := h.exists_block (hd.transition?_lt ht)
  obtain ⟨l, hl⟩ := List.getElem?_of_mem htarget
  rw [h.number_eq hl hmem]
  exact ⟨target, hl⟩

/-- A partition is stable exactly if the members of each block go to blocks of the same number. -/
theorem Divides.stable_iff (h : Divides d.size partition) (hd : d.WellFormed) :
    d.Stable partition ↔ ∀ block ∈ partition, ∀ s ∈ block, ∀ t ∈ block, ∀ c,
      d.blockAfter partition s c = d.blockAfter partition t c := by
  constructor
  · intro hstable block hblock s hs t ht c
    rcases hstable block hblock c with hnone | ⟨target, htarget, hall⟩
    · rw [blockAfter_eq_none_iff.mpr (hnone s hs), blockAfter_eq_none_iff.mpr (hnone t ht)]
    · obtain ⟨k, hk⟩ := List.getElem?_of_mem htarget
      -- The target block has one number, and all members of this block go there.
      have hafter {u : Nat} (hu : u ∈ block) : d.blockAfter partition u c = some k :=
        (h.blockAfter_eq_some_iff hd hk).mpr (hall u hu)
      rw [hafter hs, hafter ht]
  · intro hagree block hblock c
    obtain ⟨s, hs⟩ := List.exists_mem_of_ne_nil _ (h.nonempty block hblock)
    cases hafter : d.blockAfter partition s c with
    | none =>
      refine .inl fun t ht => ?_
      have heq := hagree block hblock s hs t ht c
      rw [hafter] at heq
      exact blockAfter_eq_none_iff.mp heq.symm
    | some k =>
      obtain ⟨target, hk⟩ := h.exists_target hd hafter
      refine .inr ⟨target, List.mem_of_getElem? hk, fun t ht => ?_⟩
      have heq := hagree block hblock s hs t ht c
      rw [hafter] at heq
      exact (h.blockAfter_eq_some_iff hd hk).mp heq.symm

theorem length_splitBlock_eq_one_iff (h : block ≠ []) :
    (d.splitBlock (blockIndex d.size partition) block).length = 1 ↔
      ∀ s ∈ block, ∀ t ∈ block, ∀ c, d.blockAfter partition s c = d.blockAfter partition t c := by
  rw [splitBlock_eq, length_groups_eq_one_iff h]
  constructor
  · intro hsame s hs t ht
    exact (signature_eq_iff partition hs ht).mp (hsame s hs t ht)
  · intro hsame s hs t ht
    exact (signature_eq_iff partition hs ht).mpr (hsame s hs t ht)

/-- No block is cut exactly if the partition is stable. A block is cut by the characters on its own edges, and they
stand for all characters. -/
theorem Divides.whole_iff_stable (h : Divides d.size partition) (hd : d.WellFormed) :
    (∀ block ∈ partition, (d.splitBlock (blockIndex d.size partition) block).length = 1) ↔ d.Stable partition := by
  rw [h.stable_iff hd]
  constructor
  · intro hwhole block hblock
    exact (length_splitBlock_eq_one_iff (h.nonempty block hblock)).mp (hwhole block hblock)
  · intro hagree block hblock
    exact (length_splitBlock_eq_one_iff (h.nonempty block hblock)).mpr (hagree block hblock)

inductive Refined (d : Dfa) : List (List Nat) → Prop
  | first : Refined d d.firstPartition
  | round {partition : List (List Nat)} (h : Refined d partition) : Refined d (d.refine partition)

theorem Refined.divides (h : d.Refined partition) : Divides d.size partition := by
  induction h with
  | first => exact divides_firstPartition d
  | round _ ih => exact ih.refine

/-- What one round does: it cuts each block, where it stands, into parts. The partition comes back as it was exactly if
each block is one part, and that is so exactly if the partition is stable. -/
structure Round (d : Dfa) (partition : List (List Nat)) : Prop where
  divides : Divides d.size partition
  cut : ∃ parts, List.Forall₂ CutInto partition parts ∧ d.refine partition = parts.flatten ∧
    (d.refine partition = partition ↔ ∀ blocks ∈ parts, blocks.length = 1)
  stable_iff : d.refine partition = partition ↔ d.Stable partition

theorem Divides.round (h : Divides d.size partition) (hd : d.WellFormed) : d.Round partition := by
  refine ⟨h, ⟨partition.map (d.splitBlock (blockIndex d.size partition)), ?_, rfl, ?_⟩, ?_⟩
  · rw [List.forall₂_map_right_iff, List.forall₂_same]
    intro block hblock
    exact h.cutInto_splitBlock hblock
  · rw [h.refine_eq_iff, List.forall_mem_map]
  · rw [h.refine_eq_iff, h.whole_iff_stable hd]

/-- Refinement ends within as many rounds as there are states, and every round on the way only cuts blocks. -/
theorem Constructed.endsAfter_rounds (h : d.Constructed) (hpos : 0 < d.size) :
    (∃ rounds ≤ d.size, d.EndsAfter (d.refineAll d.size d.firstPartition) rounds d.firstPartition) ∧
      ∀ partition, d.Refined partition → d.Round partition := by
  refine ⟨endsAfter_firstPartition hpos, ?_⟩
  intro partition hpartition
  exact hpartition.divides.round (h.wellFormed hpos)

/-- All states accept, and each round cuts the last one of the chain off. -/
theorem Constructed.endsAfter_rounds_of_chain : ∃ d : Dfa,
    d = .ofEdges "p" ["p", "q", "r"] [⟨"p", 'a', "q"⟩, ⟨"q", 'a', "r"⟩] ∧ d.Constructed ∧ 0 < d.size ∧
      (∃ rounds ≤ d.size, d.EndsAfter (d.refineAll d.size d.firstPartition) rounds d.firstPartition) ∧
      ∀ partition, d.Refined partition → d.Round partition := by
  have h (start : String) (accepting : List String) (edges : List NamedEdge) :
      (Dfa.ofEdges start accepting edges).Constructed := .ofEdges start accepting edges
  have hpos (start : String) (accepting : List String) (edges : List NamedEdge) :
      0 < (Dfa.ofEdges start accepting edges).size := (wellFormed_ofEdges start accepting edges).start_lt
  exact ⟨_, rfl, h .., hpos .., (h ..).endsAfter_rounds (hpos ..)⟩

-- Its first two rounds both change something, so that the last of as many rounds as states is needed.
example : let d : Dfa := .ofEdges "p" ["p", "q", "r"] [⟨"p", 'a', "q"⟩, ⟨"q", 'a', "r"⟩]
    d.size = 3 ∧ d.refine d.firstPartition ≠ d.firstPartition ∧
      d.refine (d.refine d.firstPartition) ≠ d.refine d.firstPartition := by decide +kernel

end Dfa

end PatternAutomata
