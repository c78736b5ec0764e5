import Mathlib.Data.List.Nodup
import Mathlib.Data.List.Perm.Basic
import PatternAutomata.Dfa.Minimal
import PatternAutomata.Proofs.Dfa.Walk

namespace PatternAutomata

namespace Dfa

/-- The numbers below `size` in increasing blocks, none of them empty. -/
structure Divides (size : Nat) (partition : List (List Nat)) : Prop where
  perm : partition.flatten.Perm (List.range size)
  increasing : ∀ block ∈ partition, block.Pairwise (· < ·)
  nonempty : ∀ block ∈ partition, block ≠ []

def Together (partition : List (List Nat)) (s t : Nat) : Prop := ∃ block ∈ partition, s ∈ block ∧ t ∈ block

def number (size : Nat) (partition : List (List Nat)) (s : Nat) : Nat := (blockIndex size partition)[s]?.getD 0

variable {size s t k l : Nat} {partition partition' : List (List Nat)} {block block' : List Nat}

namespace Divides

theorem exists_block (h : Divides size partition) (hs : s < size) : ∃ block ∈ partition, s ∈ block := by
  have hmem : s ∈ partition.flatten := h.perm.mem_iff.mpr (List.mem_range.mpr hs)
  exact List.mem_flatten.mp hmem

theorem lt_size (h : Divides size partition) (hblock : block ∈ partition) (hs : s ∈ block) : s < size := by
  have hmem : s ∈ partition.flatten := List.mem_flatten.mpr ⟨block, hblock, hs⟩
  exact List.mem_range.mp (h.perm.mem_iff.mp hmem)

theorem index_unique (h : Divides size partition) (hk : partition[k]? = some block) (hl : partition[l]? = some block')
    (hs : s ∈ block) (hs' : s ∈ block') : k = l := by
  have hnodup : partition.flatten.Nodup := h.perm.nodup_iff.mpr List.nodup_range
  have hdisjoint := (List.nodup_flatten.mp hnodup).2
  obtain ⟨hklt, rfl⟩ := List.getElem?_eq_some_iff.mp hk
  obtain ⟨hllt, rfl⟩ := List.getElem?_eq_some_iff.mp hl
  rw [List.pairwise_iff_getElem] at hdisjoint
  rcases Nat.lt_trichotomy k l with hlt | heq | hgt
  · exact absurd hs' (hdisjoint k l hklt hllt hlt hs)
  · exact heq
  · exact absurd hs (hdisjoint l k hllt hklt hgt hs')

theorem of_perm (h : Divides size partition) (hperm : partition'.Perm partition) : Divides size partition' :=
  ⟨hperm.flatten.trans h.perm, fun block hblock => h.increasing block (hperm.mem_iff.mp hblock),
    fun block hblock => h.nonempty block (hperm.mem_iff.mp hblock)⟩

theorem length_le (h : Divides size partition) : partition.length ≤ size := by
  have hle : ∀ blocks : List (List Nat), (∀ block ∈ blocks, block ≠ []) → blocks.length ≤ blocks.flatten.length := by
    intro blocks
    induction blocks with
    | nil => simp
    | cons block blocks ih =>
      intro hne
      obtain ⟨hblock, hrest⟩ := List.forall_mem_cons.mp hne
      have hpos := List.length_pos_of_ne_nil hblock
      have := ih hrest
      rw [List.flatten_cons, List.length_append, List.length_cons]
      omega
  have hlen := h.perm.length_eq
  rw [List.length_range] at hlen
  rw [← hlen]
  exact hle partition h.nonempty

end Divides

theorem Together.of_perm (hperm : partition'.Perm partition) : Together partition' s t ↔ Together partition s t := by
  unfold Together
  simp only [hperm.mem_iff]

theorem getElem?_foldl_set (block : List Nat) (table : Array Nat) (k s : Nat) :
    (block.foldl (fun table s => table.setIfInBounds s k) table)[s]? =
      if s ∈ block ∧ s < table.size then some k else table[s]? := by
  induction block generalizing table with
  | nil => simp
  | cons t block ih =>
    rw [List.foldl_cons, ih, Array.size_setIfInBounds, Array.getElem?_setIfInBounds]
    by_cases hs : s < table.size
    · by_cases hst : s = t
      · rw [← hst]
        simp [hs]
      · simp [hst, Ne.symm hst]
    · simp [hs]
      omega

theorem size_foldl_set (block : List Nat) (table : Array Nat) (k : Nat) :
    (block.foldl (fun table s => table.setIfInBounds s k) table).size = table.size := by
  induction block generalizing table with
  | nil => rfl
  | cons t block ih => rw [List.foldl_cons, ih, Array.size_setIfInBounds]

theorem getElem?_foldl_blocks (blocks : List (List Nat × Nat)) (table : Array Nat) (hs : s < table.size)
    (hone : ∀ e ∈ blocks, s ∈ e.1 → e.2 = k) (h : table[s]? = some k ∨ ∃ e ∈ blocks, s ∈ e.1) :
    (blocks.foldl (fun table block => block.1.foldl (fun table s => table.setIfInBounds s block.2) table) table)[s]? =
      some k := by
  induction blocks generalizing table with
  | nil => exact h.resolve_right fun ⟨_, he, _⟩ => List.not_mem_nil he
  | cons e blocks ih =>
    obtain ⟨he, hrest⟩ := List.forall_mem_cons.mp hone
    rw [List.foldl_cons]
    apply ih _ _ hrest
    · rw [getElem?_foldl_set]
      by_cases hmem : s ∈ e.1
      · rw [if_pos ⟨hmem, hs⟩, he hmem]
        exact .inl rfl
      · rw [if_neg fun h => hmem h.1]
        refine h.imp_right ?_
        rintro ⟨e', he', hs'⟩
        rcases List.mem_cons.mp he' with rfl | he'
        · exact absurd hs' hmem
        · exact ⟨e', he', hs'⟩
    · rw [size_foldl_set]
      exact hs

theorem Divides.number_eq (h : Divides size partition) (hk : partition[k]? = some block) (hs : s ∈ block) :
    number size partition s = k := by
  have hblock := List.mem_of_getElem? hk
  have htable : s < (Array.replicate size 0).size := by
    rw [Array.size_replicate]
    exact h.lt_size hblock hs
  have hone : ∀ e ∈ partition.zipIdx, s ∈ e.1 → e.2 = k := by
    intro e he hmem
    have hindex : partition[e.2]? = some e.1 := List.mem_zipIdx_iff_getElem?.mp he
    exact h.index_unique hindex hk hmem hs
  have hsome : ∃ e ∈ partition.zipIdx, s ∈ e.1 := ⟨(block, k), List.mem_zipIdx_iff_getElem?.mpr hk, hs⟩
  rw [number, blockIndex, getElem?_foldl_blocks _ _ htable hone (.inr hsome)]
  rfl

theorem Divides.mem_iff_number (h : Divides size partition) (hk : partition[k]? = some block) (hs : s < size) :
    s ∈ block ↔ number size partition s = k := by
  constructor
  · exact h.number_eq hk
  · rintro rfl
    obtain ⟨block', hblock', hmem⟩ := h.exists_block hs
    obtain ⟨l, hl⟩ := List.getElem?_of_mem hblock'
    rw [h.number_eq hl hmem, hl] at hk
    exact Option.some.inj hk ▸ hmem

/-- Members of one block have one number, and members of different blocks have different ones. -/
theorem Divides.together_iff (h : Divides size partition) (hs : s < size) (ht : t < size) :
    Together partition s t ↔ number size partition s = number size partition t := by
  constructor
  · rintro ⟨block, hblock, hs, ht⟩
    obtain ⟨k, hk⟩ := List.getElem?_of_mem hblock
    rw [h.number_eq hk hs, h.number_eq hk ht]
  · intro heq
    obtain ⟨block, hblock, hsb⟩ := h.exists_block hs
    obtain ⟨k, hk⟩ := List.getElem?_of_mem hblock
    exact ⟨block, hblock, hsb, (h.mem_iff_number hk ht).mpr (heq ▸ h.number_eq hk hsb)⟩

/-- The parts hold the members of the block once each, in increasing order within a part. -/
structure CutInto (block : List Nat) (parts : List (List Nat)) : Prop where
  perm : parts.flatten.Perm block
  nonempty : ∀ part ∈ parts, part ≠ []
  increasing : ∀ part ∈ parts, part.Pairwise (· < ·)

/-- Cutting the blocks of a partition makes a partition. -/
theorem Divides.flatMap (h : Divides size partition) {divide : List Nat → List (List Nat)}
    (hcut : ∀ block ∈ partition, CutInto block (divide block)) : Divides size (partition.flatMap divide) := by
  have hperm : (partition.flatMap divide).flatten.Perm partition.flatten := by
    rw [← List.flatMap_id, ← List.flatMap_id, List.flatMap_assoc]
    apply List.Perm.flatMap_left
    intro block hblock
    rw [List.flatMap_id]
    exact (hcut block hblock).perm
  refine ⟨hperm.trans h.perm, ?_, ?_⟩
  · intro part hpart
    obtain ⟨block, hblock, hpart⟩ := List.mem_flatMap.mp hpart
    exact (hcut block hblock).increasing part hpart
  · intro part hpart
    obtain ⟨block, hblock, hpart⟩ := List.mem_flatMap.mp hpart
    exact (hcut block hblock).nonempty part hpart

/-- Cutting leaves each of the blocks whole, or there are more of them afterwards. -/
theorem whole_or_lt {divide : List Nat → List (List Nat)} (hne : ∀ block ∈ partition, divide block ≠ []) :
    (∀ block ∈ partition, (divide block).length = 1) ∨ partition.length < (partition.flatMap divide).length := by
  induction partition with
  | nil => exact .inl fun _ h => absurd h List.not_mem_nil
  | cons block blocks ih =>
    obtain ⟨hblock, hrest⟩ := List.forall_mem_cons.mp hne
    have hpos := List.length_pos_of_ne_nil hblock
    rw [List.flatMap_cons, List.length_append, List.length_cons, List.forall_mem_cons]
    rcases ih hrest with hwhole | hlt
    · have hlen : (blocks.flatMap divide).length = blocks.length := by
        rw [List.length_flatMap, List.map_congr_left hwhole, List.map_const', List.sum_replicate_nat, mul_one]
      by_cases hone : (divide block).length = 1
      · exact .inl ⟨hone, hwhole⟩
      · omega
    · omega

section Groups

variable {κ : Type} [BEq κ] [LawfulBEq κ] {key : Nat → κ}

/-- What is left once stands in the order in which it first comes. -/
theorem pairwise_eraseDups (keys : List κ) : keys.eraseDups.Pairwise fun k l => keys.idxOf k < keys.idxOf l := by
  induction keys using List.reverseRecOn with
  | nil => exact List.Pairwise.nil
  | append_singleton keys last ih =>
    have hold {k : κ} (hk : k ∈ keys.eraseDups) : (keys ++ [last]).idxOf k = keys.idxOf k :=
      List.idxOf_append_of_mem (List.mem_eraseDups.mp hk)
    have hpairs : keys.eraseDups.Pairwise fun k l => (keys ++ [last]).idxOf k < (keys ++ [last]).idxOf l :=
      ih.imp_of_mem fun hk hl hkl => by rwa [hold hk, hold hl]
    rw [List.eraseDups_append]
    by_cases hlast : last ∈ keys
    · have hnone : [last].removeAll keys = [] := by simp [List.removeAll, hlast]
      rw [hnone, List.eraseDups_nil, List.append_nil]
      exact hpairs
    · have hone : [last].removeAll keys = [last] := by simp [List.removeAll, hlast]
      rw [hone, List.eraseDups_cons, List.filter_nil, List.eraseDups_nil, List.pairwise_append]
      refine ⟨hpairs, List.pairwise_singleton _ _, ?_⟩
      intro k hk l hl
      obtain rfl := List.mem_singleton.mp hl
      rw [hold hk, List.idxOf_append_of_notMem hlast]
      exact Nat.lt_add_right _ (List.idxOf_lt_length_iff.mpr (List.mem_eraseDups.mp hk))

theorem nodup_eraseDups (keys : List κ) : keys.eraseDups.Nodup := by
  refine (pairwise_eraseDups keys).imp ?_
  rintro k _ hlt rfl
  exact lt_irrefl _ hlt

def groups (key : Nat → κ) (block : List Nat) : List (List Nat) :=
  (block.map key).eraseDups.map fun k => block.filter (key · == k)

theorem mem_groups {group : List Nat} :
    group ∈ groups key block ↔ ∃ s ∈ block, group = block.filter (key · == key s) := by
  rw [groups, List.mem_map]
  simp only [List.mem_eraseDups, List.mem_map]
  constructor
  · rintro ⟨_, ⟨s, hs, rfl⟩, rfl⟩
    exact ⟨s, hs, rfl⟩
  · rintro ⟨s, hs, rfl⟩
    exact ⟨key s, ⟨s, hs, rfl⟩, rfl⟩

theorem together_groups_iff : Together (groups key block) s t ↔ s ∈ block ∧ t ∈ block ∧ key s = key t := by
  unfold Together
  simp only [mem_groups]
  constructor
  · rintro ⟨_, ⟨u, hu, rfl⟩, hs, ht⟩
    rw [List.mem_filter, beq_iff_eq] at hs ht
    exact ⟨hs.1, ht.1, hs.2.trans ht.2.symm⟩
  · rintro ⟨hs, ht, heq⟩
    refine ⟨_, ⟨s, hs, rfl⟩, ?_, ?_⟩
    · rw [List.mem_filter, beq_iff_eq]
      exact ⟨hs, rfl⟩
    · rw [List.mem_filter, beq_iff_eq]
      exact ⟨ht, heq.symm⟩

theorem flatten_groups_perm (h : block.Nodup) : (groups key block).flatten.Perm block := by
  have hnodup : (groups key block).flatten.Nodup := by
    rw [List.nodup_flatten]
    constructor
    · intro group hgroup
      obtain ⟨s, -, rfl⟩ := mem_groups.mp hgroup
      exact h.filter _
    · rw [groups, List.pairwise_map]
      apply (nodup_eraseDups (block.map key)).imp
      intro k l hkl s hs hs'
      rw [List.mem_filter, beq_iff_eq] at hs hs'
      exact hkl (hs.2.symm.trans hs'.2)
  rw [List.perm_ext_iff_of_nodup hnodup h]
  intro s
  rw [List.mem_flatten]
  constructor
  · rintro ⟨group, hgroup, hs⟩
    obtain ⟨t, -, rfl⟩ := mem_groups.mp hgroup
    exact (List.mem_filter.mp hs).1
  · intro hs
    refine ⟨_, mem_groups.mpr ⟨s, hs, rfl⟩, ?_⟩
    rw [List.mem_filter, beq_iff_eq]
    exact ⟨hs, rfl⟩

theorem cutInto_groups (h : block.Pairwise (· < ·)) : CutInto block (groups key block) := by
  refine ⟨flatten_groups_perm h.nodup, ?_, ?_⟩
  · intro group hgroup
    obtain ⟨s, hs, rfl⟩ := mem_groups.mp hgroup
    apply List.ne_nil_of_mem (a := s)
    rw [List.mem_filter, beq_iff_eq]
    exact ⟨hs, rfl⟩
  · intro group hgroup
    obtain ⟨s, -, rfl⟩ := mem_groups.mp hgroup
    exact h.filter _

theorem groups_ne_nil (h : block ≠ []) : groups key block ≠ [] := by
  obtain ⟨s, hs⟩ := List.exists_mem_of_ne_nil _ h
  exact List.ne_nil_of_mem (mem_groups.mpr ⟨s, hs, rfl⟩)

theorem groups_eq_singleton (h : (groups key block).length = 1) : groups key block = [block] := by
  obtain ⟨group, hgroup⟩ := List.length_eq_one_iff.mp h
  obtain ⟨s, -, rfl⟩ := mem_groups.mp (hgroup ▸ List.mem_singleton_self group)
  rw [hgroup, List.singleton_inj, List.filter_eq_self]
  intro t ht
  have hmem : block.filter (key · == key t) ∈ groups key block := mem_groups.mpr ⟨t, ht, rfl⟩
  rw [hgroup, List.mem_singleton] at hmem
  have hself : t ∈ block.filter (key · == key t) := by
    rw [List.mem_filter, beq_iff_eq]
    exact ⟨ht, rfl⟩
  rw [hmem] at hself
  exact (List.mem_filter.mp hself).2

theorem length_groups_eq_one_iff (h : block ≠ []) :
    (groups key block).length = 1 ↔ ∀ s ∈ block, ∀ t ∈ block, key s = key t := by
  constructor
  · intro hlen s hs t ht
    have htogether : Together (groups key block) s t := by
      rw [groups_eq_singleton hlen]
      exact ⟨block, List.mem_singleton_self block, hs, ht⟩
    exact (together_groups_iff.mp htogether).2.2
  · intro hkey
    cases block with
    | nil => exact absurd rfl h
    | cons s block =>
      have hnone : (block.map key).filter (fun k => !k == key s) = [] := by
        rw [List.filter_eq_nil_iff]
        intro k hk
        obtain ⟨t, ht, rfl⟩ := List.mem_map.mp hk
        simp [hkey t (List.mem_cons_of_mem s ht) s List.mem_cons_self]
      rw [groups, List.map_cons, List.eraseDups_cons, hnone, List.eraseDups_nil]
      rfl

end Groups

variable {d : Dfa}

theorem splitBlock_eq (d : Dfa) (blockOf : Array Nat) (block : List Nat) :
    d.splitBlock blockOf block = groups (d.signature blockOf (d.symbolsOf block)) block := by
  unfold splitBlock groups
  simp only [List.map_map, List.filter_map, Function.comp_def, List.map_id']

def blockAfter (d : Dfa) (partition : List (List Nat)) (s : Nat) (c : Char) : Option Nat :=
  (d.transition? s c).map (number d.size partition)

theorem mem_symbolsOf (hs : s ∈ block) {c : Char} (h : d.transition? s c ≠ none) : c ∈ d.symbolsOf block := by
  rw [symbolsOf, mem_ascending, List.mem_flatMap]
  refine ⟨s, hs, ?_⟩
  unfold transition? at h
  cases hst : d.states[s]? with
  | none =>
    rw [hst] at h
    exact absurd rfl h
  | some st =>
    rw [hst, Option.bind_some] at h
    rw [Option.map_some, Option.getD_some]
    by_contra hnot
    apply h
    rw [List.lookup_eq_none_iff]
    intro e he
    rw [bne_iff_ne]
    rintro rfl
    exact hnot (List.mem_map_of_mem he)

/-- Members of a block have equal signatures exactly if each character takes them to the same block. -/
theorem signature_eq_iff (partition : List (List Nat)) (hs : s ∈ block) (ht : t ∈ block) :
    d.signature (blockIndex d.size partition) (d.symbolsOf block) s =
        d.signature (blockIndex d.size partition) (d.symbolsOf block) t ↔
      ∀ c, d.blockAfter partition s c = d.blockAfter partition t c := by
  unfold signature
  rw [List.map_inj_left]
  constructor
  · intro h c
    by_cases hc : c ∈ d.symbolsOf block
    · exact h c hc
    · -- On a character that no member moves on, all of them go nowhere.
      have hnone {u : Nat} (hu : u ∈ block) : d.transition? u c = none := by
        by_contra hsome
        exact hc (mem_symbolsOf hu hsome)
      rw [blockAfter, blockAfter, hnone hs, hnone ht]
  · intro h c _
    exact h c

theorem together_refine_iff :
    Together (d.refine partition) s t ↔
      Together partition s t ∧ ∀ c, d.blockAfter partition s c = d.blockAfter partition t c := by
  have hsplit : Together (d.refine partition) s t ↔
      ∃ block ∈ partition, Together (d.splitBlock (blockIndex d.size partition) block) s t := by
    unfold Together refine
    simp only [List.mem_flatMap]
    constructor
    · rintro ⟨group, ⟨block, hblock, hgroup⟩, hmem⟩
      exact ⟨block, hblock, group, hgroup, hmem⟩
    · rintro ⟨block, hblock, group, hgroup, hmem⟩
      exact ⟨group, ⟨block, hblock, hgroup⟩, hmem⟩
  rw [hsplit]
  constructor
  · rintro ⟨block, hblock, htogether⟩
    rw [splitBlock_eq, together_groups_iff] at htogether
    obtain ⟨hs, ht, hkey⟩ := htogether
    exact ⟨⟨block, hblock, hs, ht⟩, (signature_eq_iff partition hs ht).mp hkey⟩
  · rintro ⟨⟨block, hblock, hs, ht⟩, hafter⟩
    refine ⟨block, hblock, ?_⟩
    rw [splitBlock_eq, together_groups_iff]
    exact ⟨hs, ht, (signature_eq_iff partition hs ht).mpr hafter⟩

theorem Divides.cutInto_splitBlock (h : Divides d.size partition) (hblock : block ∈ partition) :
    CutInto block (d.splitBlock (blockIndex d.size partition) block) := by
  rw [splitBlock_eq]
  exact cutInto_groups (h.increasing block hblock)

theorem Divides.refine (h : Divides d.size partition) : Divides d.size (d.refine partition) :=
  h.flatMap fun _ => h.cutInto_splitBlock

theorem Divides.whole_or_lt_refine (h : Divides d.size partition) :
    (∀ block ∈ partition, (d.splitBlock (blockIndex d.size partition) block).length = 1) ∨
      partition.length < (d.refine partition).length := by
  apply whole_or_lt
  intro block hblock
  rw [splitBlock_eq]
  exact groups_ne_nil (h.nonempty block hblock)

/-- A round changes nothing exactly if it splits no block. -/
theorem Divides.refine_eq_iff (h : Divides d.size partition) :
    d.refine partition = partition ↔
      ∀ block ∈ partition, (d.splitBlock (blockIndex d.size partition) block).length = 1 := by
  constructor
  · intro heq
    refine h.whole_or_lt_refine.resolve_right ?_
    rw [heq]
    exact lt_irrefl _
  · intro hwhole
    have hself : ∀ block ∈ partition, d.splitBlock (blockIndex d.size partition) block = [block] := by
      intro block hblock
      have hlen := hwhole block hblock
      rw [splitBlock_eq] at hlen ⊢
      exact groups_eq_singleton hlen
    exact (List.flatMap_congr hself).trans (List.flatMap_singleton' partition)

/-- From a partition, refining until nothing changes ends in `last` with the given number of rounds, the one that
changes nothing included. -/
inductive EndsAfter (d : Dfa) (last : List (List Nat)) : Nat → List (List Nat) → Prop
  | stop (h : d.refine last = last) : EndsAfter d last 1 last
  | round {partition : List (List Nat)} {rounds : Nat} (hne : d.refine partition ≠ partition)
      (h : EndsAfter d last rounds (d.refine partition)) : EndsAfter d last (rounds + 1) partition

theorem EndsAfter.refine_eq {last : List (List Nat)} {rounds : Nat} (h : d.EndsAfter last rounds partition) :
    d.refine last = last := by
  induction h with
  | stop h => exact h
  | round _ _ ih => exact ih

/-- With enough rounds for as many blocks as there are states, refinement ends. -/
theorem Divides.endsAfter_refineAll (h : Divides d.size partition) {bound : Nat}
    (hbound : d.size < partition.length + bound) :
    ∃ rounds ≤ bound, d.EndsAfter (d.refineAll bound partition) rounds partition := by
  induction bound generalizing partition with
  | zero =>
    have := h.length_le
    omega
  | succ bound ih =>
    rw [refineAll]
    split
    · next heq => exact ⟨1, by omega, .stop heq⟩
    · next hne =>
      -- A round that changes something adds a block, and there are no more blocks than states.
      have hlt := h.whole_or_lt_refine.resolve_left fun hwhole => hne (h.refine_eq_iff.mpr hwhole)
      obtain ⟨rounds, hle, hends⟩ := ih h.refine (by omega)
      exact ⟨rounds + 1, Nat.succ_le_succ hle, .round hne hends⟩

/-- What rounds preserve holds of the last partition. -/
theorem refineAll_induction {P : List (List Nat) → Prop} (hstep : ∀ partition, P partition → P (d.refine partition))
    (rounds : Nat) (h : P partition) : P (d.refineAll rounds partition) := by
  induction rounds generalizing partition with
  | zero => exact h
  | succ rounds ih =>
    rw [refineAll]
    split
    · exact h
    · exact ih (hstep partition h)

theorem mem_firstPartition : block ∈ d.firstPartition ↔ block ≠ [] ∧
    (block = (List.range d.size).filter d.isAccepting ∨ block = (List.range d.size).filter (not ∘ d.isAccepting)) := by
  rw [firstPartition, List.partition_eq_filter_filter, List.mem_filter, Bool.not_eq_true', List.isEmpty_eq_false_iff,
    and_comm, List.mem_cons, List.mem_singleton]

theorem divides_firstPartition (d : Dfa) : Divides d.size d.firstPartition := by
  refine ⟨?_, ?_, fun block h => (mem_firstPartition.mp h).1⟩
  · have hflatten : d.firstPartition.flatten =
        (List.range d.size).filter d.isAccepting ++ (List.range d.size).filter (not ∘ d.isAccepting) := by
      rw [firstPartition, List.partition_eq_filter_filter]
      dsimp only
      rw [List.flatten_filter_not_isEmpty]
      simp
    rw [hflatten]
    exact List.filter_append_perm d.isAccepting (List.range d.size)
  · intro block h
    rcases (mem_firstPartition.mp h).2 with rfl | rfl
    · exact List.pairwise_lt_range.filter _
    · exact List.pairwise_lt_range.filter _

theorem together_firstPartition_iff (hs : s < d.size) (ht : t < d.size) :
    Together d.firstPartition s t ↔ d.isAccepting s = d.isAccepting t := by
  have hmem {u : Nat} {p : Nat → Bool} (hu : u < d.size) : u ∈ (List.range d.size).filter p ↔ p u = true := by
    rw [List.mem_filter, List.mem_range, and_iff_right hu]
  unfold Together
  simp only [mem_firstPartition]
  constructor
  · rintro ⟨block, ⟨-, rfl | rfl⟩, hsb, htb⟩
    · rw [(hmem hs).mp hsb, (hmem ht).mp htb]
    · have hs' := (hmem hs).mp hsb
      have ht' := (hmem ht).mp htb
      rw [Function.comp_apply, Bool.not_eq_true'] at hs' ht'
      rw [hs', ht']
  · intro heq
    have hblock {p : Nat → Bool} (hp : p s = true) (hp' : p t = true) : (List.range d.size).filter p ≠ [] ∧
        s ∈ (List.range d.size).filter p ∧ t ∈ (List.range d.size).filter p :=
      ⟨List.ne_nil_of_mem ((hmem hs).mpr hp), (hmem hs).mpr hp, (hmem ht).mpr hp'⟩
    cases hacc : d.isAccepting s with
    | true =>
      have hall := hblock hacc (heq ▸ hacc)
      exact ⟨_, ⟨hall.1, .inl rfl⟩, hall.2⟩
    | false =>
      have hall := hblock (p := not ∘ d.isAccepting) (by simp [hacc]) (by simp [← heq, hacc])
      exact ⟨_, ⟨hall.1, .inr rfl⟩, hall.2⟩

theorem Indistinguishable.isAccepting_eq (h : d.Indistinguishable s t) : d.isAccepting s = d.isAccepting t :=
  Option.some.inj (h [])

theorem Indistinguishable.blockAfter_eq (hd : d.WellFormed) (hpartition : Divides d.size partition)
    (hcoarse : ∀ s < d.size, ∀ t < d.size, d.Indistinguishable s t → Together partition s t)
    (h : d.Indistinguishable s t) (c : Char) : d.blockAfter partition s c = d.blockAfter partition t c := by
  -- Successors are told apart by a word only if `s` and `t` are, by `c` and that word.
  have hafter (w : List Char) : ((d.transition? s c).bind fun u => d.walk? u w).map d.isAccepting =
      ((d.transition? t c).bind fun u => d.walk? u w).map d.isAccepting := h (c :: w)
  unfold blockAfter
  cases hs : d.transition? s c with
  | none =>
    cases ht : d.transition? t c with
    | none => rfl
    | some t' =>
      rw [hs, ht] at hafter
      cases hafter []
  | some s' =>
    cases ht : d.transition? t c with
    | none =>
      rw [hs, ht] at hafter
      cases hafter []
    | some t' =>
      rw [hs, ht] at hafter
      have hs' := hd.transition?_lt hs
      have ht' := hd.transition?_lt ht
      have htogether := hcoarse s' hs' t' ht' hafter
      rw [Option.map_some, Option.map_some, (hpartition.together_iff hs' ht').mp htogether]

/-- A stable partition that keeps accepting states apart from the others tells as much as all words do. -/
theorem Divides.indistinguishable_of_stable (hd : d.WellFormed) (h : Divides d.size partition)
    (hstable : d.refine partition = partition)
    (haccepting : ∀ s t, Together partition s t → d.isAccepting s = d.isAccepting t)
    (htogether : Together partition s t) :
    d.Indistinguishable s t := by
  intro w
  induction w generalizing s t with
  | nil => exact congrArg some (haccepting s t htogether)
  | cons c w ih =>
    rw [← hstable] at htogether
    have hafter := (together_refine_iff.mp htogether).2 c
    rw [walk?, walk?]
    unfold blockAfter at hafter
    cases hs : d.transition? s c with
    | none =>
      rw [hs, Option.map_none] at hafter
      rw [Option.map_eq_none_iff.mp hafter.symm]
    | some s' =>
      rw [hs, Option.map_some] at hafter
      obtain ⟨t', ht, hnumber⟩ := Option.map_eq_some_iff.mp hafter.symm
      rw [ht]
      exact ih ((h.together_iff (hd.transition?_lt hs) (hd.transition?_lt ht)).mpr hnumber.symm)

theorem length_firstPartition_pos (h : 0 < d.size) : 0 < d.firstPartition.length := by
  obtain ⟨block, hblock, -⟩ := (divides_firstPartition d).exists_block h
  exact List.length_pos_of_mem hblock

theorem endsAfter_firstPartition (h : 0 < d.size) :
    ∃ rounds ≤ d.size, d.EndsAfter (d.refineAll d.size d.firstPartition) rounds d.firstPartition := by
  apply (divides_firstPartition d).endsAfter_refineAll
  have := length_firstPartition_pos h
  omega

/-- The blocks of the last partition, in the order of their first members. -/
theorem divides_classes (d : Dfa) : Divides d.size d.classes :=
  (refineAll_induction (fun _ h => Divides.refine h) _ (divides_firstPartition d)).of_perm (List.mergeSort_perm _ _)

/-- A partition on the way: it keeps together what no word tells apart, and apart what the empty word does. -/
structure Approximates (d : Dfa) (partition : List (List Nat)) : Prop where
  divides : Divides d.size partition
  coarse : ∀ s < d.size, ∀ t < d.size, d.Indistinguishable s t → Together partition s t
  accepting : ∀ s t, Together partition s t → d.isAccepting s = d.isAccepting t

theorem approximates_firstPartition (d : Dfa) : Approximates d d.firstPartition := by
  have hfirst := divides_firstPartition d
  refine ⟨hfirst, ?_, ?_⟩
  · intro s hs t ht h
    exact (together_firstPartition_iff hs ht).mpr h.isAccepting_eq
  · intro s t h
    have ⟨block, hblock, hsb, htb⟩ := h
    exact (together_firstPartition_iff (hfirst.lt_size hblock hsb) (hfirst.lt_size hblock htb)).mp h

theorem Approximates.refine (hd : d.WellFormed) (h : Approximates d partition) :
    Approximates d (d.refine partition) := by
  refine ⟨h.divides.refine, ?_, ?_⟩
  · intro s hs t ht hst
    exact together_refine_iff.mpr ⟨h.coarse s hs t ht hst, hst.blockAfter_eq hd h.divides h.coarse⟩
  · intro s t hst
    exact h.accepting s t (together_refine_iff.mp hst).1

/-- The classes are those of the states that no word tells apart. -/
theorem together_classes_iff (hd : d.WellFormed) (hs : s < d.size) (ht : t < d.size) :
    Together d.classes s t ↔ d.Indistinguishable s t := by
  have hpos : 0 < d.size := by omega
  obtain ⟨_, -, hends⟩ := endsAfter_firstPartition hpos
  have hlast : Approximates d (d.refineAll d.size d.firstPartition) :=
    refineAll_induction (fun _ h => h.refine hd) d.size (approximates_firstPartition d)
  rw [classes, Together.of_perm (List.mergeSort_perm _ _)]
  constructor
  · exact hlast.divides.indistinguishable_of_stable hd hends.refine_eq hlast.accepting
  · exact hlast.coarse s hs t ht

end Dfa

end PatternAutomata
