import PatternAutomata.Proofs.Alphabet
import PatternAutomata.Proofs.Dfa.Access
import PatternAutomata.Proofs.Earliest
import PatternAutomata.Proofs.Enumeration

namespace PatternAutomata

namespace Dfa

variable {d : Dfa} {i j : Nat} {c : Char} {v : List Char} {w : String}

def foreign? (d : Dfa) : Option Char := foreignCandidates.find? fun c => !d.alphabet.contains c

theorem sampleAlphabet_eq (d : Dfa) : d.sampleAlphabet = d.alphabet ++ d.foreign?.toList := rfl

/-- The candidates are the visible characters of ASCII and one other. -/
theorem mem_foreignCandidates : c ∈ foreignCandidates ↔ '!' ≤ c ∧ c ≤ '~' ∨ c = 'ß' := by
  rw [foreignCandidates, List.mem_append, List.mem_singleton]
  refine or_congr_left ?_
  rw [List.mem_map]
  constructor
  · rintro ⟨n, hn, rfl⟩
    obtain ⟨hlo, hhi⟩ := List.mem_range'_1.mp hn
    have hvalid : n.isValidChar := .inl (by omega)
    have hchar : Char.ofNat n = Char.ofNatAux n hvalid := dif_pos hvalid
    rw [hchar]
    exact ⟨hlo, Nat.le_of_lt_succ hhi⟩
  · rintro ⟨hlo, hhi⟩
    have hlt : c.toNat < 0x21 + 94 := Nat.lt_succ_of_le hhi
    exact ⟨c.toNat, List.mem_range'_1.mpr ⟨hlo, hlt⟩, Char.ofNat_toNat c⟩

theorem not_mem_alphabet_of_foreign? (h : d.foreign? = some c) : c ∉ d.alphabet := by
  have := List.find?_some h
  simpa using this

theorem exists_foreign?_iff : (∃ c, d.foreign? = some c) ↔ ∃ c ∈ foreignCandidates, c ∉ d.alphabet := by
  rw [← Option.isSome_iff_exists, foreign?, List.find?_isSome]
  simp

theorem nodup_sampleAlphabet (d : Dfa) : d.sampleAlphabet.Nodup := by
  rw [sampleAlphabet_eq, List.nodup_append]
  refine ⟨(ascending_sorted _).imp fun h => h.ne, ?_, ?_⟩
  · cases d.foreign? <;> simp
  · rintro a ha b hb rfl
    exact not_mem_alphabet_of_foreign? (Option.mem_toList.mp hb) ha

theorem mem_extensions_iff (hd : d.WellFormed) {p : Nat × String} {edge : Unit × Nat × String} :
    edge ∈ d.extensions p ↔ ∃ c, d.transition? p.1 c = some edge.2.1 ∧ edge.2.2 = p.2.push c := by
  rw [extensions, List.mem_map]
  cases hs : d.states[p.1]? with
  | none => simp [transition?, hs]
  | some s =>
    simp only [transition?, hs, Option.bind_some, lookup_eq_some_iff (hd.sorted p.1 s hs)]
    constructor
    · rintro ⟨e, he, rfl⟩
      exact ⟨e.1, he, rfl⟩
    · rintro ⟨c, he, hword⟩
      exact ⟨(c, edge.2.1), he, Prod.ext rfl (Prod.ext rfl hword.symm)⟩

/-- States in the order of the words that lead there. -/
def FoundBefore (p q : Nat × String) : Prop := Before p.2.toList q.2.toList

/-- Words are found in order: what comes later is extended to what comes later. -/
theorem respects_extensions (hd : d.WellFormed) :
    Expansion.Respects FoundBefore d.extensions [(d.start, "")] := by
  refine ⟨List.pairwise_singleton _ _, ?_, ?_, ?_⟩
  · intro r hr p edge hedge
    obtain rfl := List.mem_singleton.mp hr
    obtain ⟨c, -, hword⟩ := (mem_extensions_iff hd).mp hedge
    rw [FoundBefore, hword, String.toList_push]
    exact List.Shortlex.of_length_lt (by simp)
  · intro p q hpq edge hedge edge' hedge'
    obtain ⟨b, -, hword⟩ := (mem_extensions_iff hd).mp hedge
    obtain ⟨c, -, hword'⟩ := (mem_extensions_iff hd).mp hedge'
    rw [FoundBefore, hword, hword', String.toList_push, String.toList_push]
    exact before_concat_of_before hpq b c
  · intro p
    rw [extensions, List.map_map, List.pairwise_map]
    cases hs : d.states[p.1]? with
    | none => exact List.Pairwise.nil
    | some s =>
      refine (List.pairwise_map.mp (hd.sorted p.1 s hs)).imp ?_
      intro e e' hlt
      show Before (p.2.push e.1).toList (p.2.push e'.1).toList
      rw [String.toList_push, String.toList_push]
      exact before_concat p.2.toList hlt

/-- The search begins with the empty word. -/
theorem accessed_eq (hd : d.WellFormed) :
    d.accessed = Expansion.ofRoots Prod.fst d.extensions d.size [(d.start, "")] := by
  rw [accessed, if_neg (Nat.ne_of_gt (Nat.zero_lt_of_lt hd.start_lt))]

theorem explored_accessed (hd : d.WellFormed) : Expansion.Explored d.extensions [(d.start, "")] d.accessed := by
  rw [accessed_eq hd]
  exact Expansion.explored_ofRoots ..

/-- The word found with a state leads there. -/
theorem walk?_of_accessed (hd : d.WellFormed) {p : Nat × String} (hp : d.accessed.found.values[i]? = some p) :
    d.walk? d.start p.2.toList = some p.1 := by
  refine (explored_accessed hd).induction (P := fun p => d.walk? d.start p.2.toList = some p.1) ?_ ?_ hp
  · intro r hr
    obtain rfl := List.mem_singleton.mp hr
    rfl
  · intro p hp edge hedge
    obtain ⟨c, hc, hword⟩ := (mem_extensions_iff hd).mp hedge
    rw [hword, String.toList_push, walk?_concat, hp]
    exact hc

/-- The search ends with every state expanded that it has found. -/
theorem rows_size_accessed (hd : d.WellFormed) : d.accessed.rows.size = d.accessed.found.values.size := by
  rw [accessed_eq hd]
  apply Expansion.rows_size_ofRoots (U := Finset.range d.size)
  · intro r hr
    obtain rfl := List.mem_singleton.mp hr
    exact Finset.mem_range.mpr hd.start_lt
  · intro p _ edge hedge
    obtain ⟨c, hc, -⟩ := (mem_extensions_iff hd).mp hedge
    exact Finset.mem_range.mpr (hd.transition?_lt hc)
  · exact (Finset.card_range d.size).le

/-- A state that a word leads to is found with that word or an earlier one. -/
theorem exists_accessed (hd : d.WellFormed) (hv : d.walk? d.start v = some j) : ∃ (i : Nat) (p : Nat × String),
    d.accessed.found.values[i]? = some p ∧ p.1 = j ∧ (p.2.toList = v ∨ Before p.2.toList v) := by
  have hordered : d.accessed.Ordered FoundBefore d.extensions [(d.start, "")] := by
    rw [accessed_eq hd]
    exact Expansion.ordered_ofRoots (respects_extensions hd) d.size
  induction v using List.reverseRecOn generalizing j with
  | nil =>
    obtain rfl : d.start = j := Option.some.inj hv
    obtain ⟨i, p, hp, hstate, hword⟩ := hordered.root _ (List.mem_singleton_self _)
    exact ⟨i, p, hp, hstate, hword.imp_left fun h => by rw [h]; rfl⟩
  | append_singleton v c ih =>
    rw [walk?_concat] at hv
    obtain ⟨k, hk, hc⟩ := Option.bind_eq_some_iff.mp hv
    obtain ⟨i, p, hp, rfl, hword⟩ := ih hk
    -- The state before the last character has been expanded, and its word is no later than the rest of this one.
    have hlt : i < d.accessed.rows.size := by
      rw [rows_size_accessed hd]
      exact (Array.getElem?_eq_some_iff.mp hp).1
    have hedge : ((), (j, p.2.push c)) ∈ d.extensions p := (mem_extensions_iff hd).mpr ⟨c, hc, rfl⟩
    obtain ⟨i', p', hp', hstate, hword'⟩ := hordered.edge i p hlt hp _ hedge
    refine ⟨i', p', hp', hstate, ?_⟩
    have hnext : p'.2.toList = p.2.toList ++ [c] ∨ Before p'.2.toList (p.2.toList ++ [c]) := by
      rw [← String.toList_push]
      exact hword'.imp_left fun h => by rw [h]
    rcases hword with rfl | hbefore
    · exact hnext
    · have hlater := before_concat_of_before hbefore c c
      rcases hnext with heq | hbefore'
      · exact .inr (heq ▸ hlater)
      · exact .inr (before_trans hbefore' hlater)

theorem WellFormed.mem_accessWords_iff (hd : d.WellFormed) :
    w ∈ d.accessWords ↔ ∃ i < d.size, d.FirstWord i w.toList := by
  rw [mem_accessWords]
  constructor
  · rintro ⟨i, p, hp, rfl⟩
    have hleads := walk?_of_accessed hd hp
    refine ⟨p.1, hd.walk?_lt hd.start_lt hleads, hleads, ?_⟩
    intro v hv hne
    obtain ⟨j, q, hq, hstate, hword⟩ := exists_accessed hd hv
    obtain rfl := d.accessed.found.index_unique hp hq hstate.symm
    obtain rfl := Option.some.inj (hp.symm.trans hq)
    exact hword.resolve_left fun h => hne h.symm
  · rintro ⟨i, -, hfirst⟩
    obtain ⟨j, p, hp, hstate, hword⟩ := exists_accessed hd hfirst.leads
    have hleads := walk?_of_accessed hd hp
    rw [hstate] at hleads
    refine ⟨j, p, hp, String.toList_inj.mp ?_⟩
    by_contra hne
    exact before_wf.asymmetric _ _ (hfirst.first _ hleads hne) (hword.resolve_left hne)

theorem accessWords_of_size_eq_zero (h : d.size = 0) : d.accessWords = [] := by
  refine List.eq_nil_iff_forall_not_mem.mpr ?_
  intro w hw
  obtain ⟨i, p, hp, -⟩ := mem_accessWords.mp hw
  have hexplored : Expansion.Explored d.extensions [] d.accessed := by
    rw [accessed, if_pos h]
    exact Expansion.explored_ofRoots ..
  exact hexplored.induction (P := fun _ => False) (by simp) (fun _ h => h.elim) hp

/-- The access words are the first words of the states that are reached. -/
theorem Constructed.mem_accessWords_iff (h : d.Constructed) :
    w ∈ d.accessWords ↔ ∃ i < d.size, d.FirstWord i w.toList := by
  rcases Nat.eq_zero_or_pos d.size with hsize | hpos
  · simp [accessWords_of_size_eq_zero hsize, hsize]
  · exact (h.wellFormed hpos).mem_accessWords_iff

theorem Constructed.mem_alphabet_iff (h : d.Constructed) : c ∈ d.alphabet ↔ ∃ i j, d.transition? i c = some j := by
  rcases Nat.eq_zero_or_pos d.size with hsize | hpos
  · rw [alphabet_of_size_eq_zero hsize]
    simp only [List.not_mem_nil, false_iff]
    rintro ⟨i, j, hj⟩
    have := lt_size_of_transition? hj
    omega
  · exact Dfa.mem_alphabet_iff (h.wellFormed hpos)

theorem exists_firstWord_string (h : ∃ v, d.walk? d.start v = some i) : ∃ p : String, d.FirstWord i p.toList := by
  obtain ⟨v, hv⟩ := exists_firstWord h
  exact ⟨String.ofList v, by rwa [String.toList_ofList]⟩

theorem Constructed.push_mem_samples (h : d.Constructed) (hi : i < d.size) {p : String} (hp : d.FirstWord i p.toList)
    (hc : c ∈ d.sampleAlphabet) : p.push c ∈ d.samples :=
  mem_samples.mpr (.inr (.inr ⟨p, h.mem_accessWords_iff.mpr ⟨i, hi, hp⟩, c, hc, rfl⟩))

/-- The samples are what they are meant to be: the first words over the alphabet with a foreign character, and the first
word of each state that is reached, alone and with one more character. So at every such state each character of the
sample alphabet is tried, whether it leads on or not. -/
structure Exercised (d : Dfa) : Prop where
  alphabet_eq : d.sampleAlphabet = d.alphabet ++ d.foreign?.toList
  alphabet_sorted : d.alphabet.Pairwise (· < ·)
  mem_alphabet_iff : ∀ c, c ∈ d.alphabet ↔ ∃ i j, d.transition? i c = some j
  foreign : ∀ c, d.foreign? = some c → c ∉ d.alphabet
  mem_iff : ∀ w, w ∈ d.samples ↔ AmongFirst d.sampleAlphabet 4096 w ∨
    ∃ i < d.size, ∃ p : String, d.FirstWord i p.toList ∧ (w = p ∨ ∃ c ∈ d.sampleAlphabet, w = p.push c)
  tried : ∀ i < d.size, (∃ v, d.walk? d.start v = some i) → ∃ p : String, d.FirstWord i p.toList ∧ p ∈ d.samples ∧
    ∀ c ∈ d.sampleAlphabet, p.push c ∈ d.samples ∧ d.walk? d.start (p.push c).toList = d.transition? i c

theorem Constructed.exercised (h : d.Constructed) : d.Exercised := by
  refine ⟨d.sampleAlphabet_eq, ascending_sorted _, fun c => h.mem_alphabet_iff,
    fun c => not_mem_alphabet_of_foreign?, ?_, ?_⟩
  · intro w
    rw [mem_samples, mem_firstWords_iff d.nodup_sampleAlphabet, sampleLimit]
    simp only [h.mem_accessWords_iff]
    refine or_congr_right ?_
    constructor
    · rintro (⟨i, hi, hw⟩ | ⟨p, ⟨i, hi, hp⟩, c, hc, rfl⟩)
      · exact ⟨i, hi, w, hw, .inl rfl⟩
      · exact ⟨i, hi, p, hp, .inr ⟨c, hc, rfl⟩⟩
    · rintro ⟨i, hi, p, hp, rfl | ⟨c, hc, rfl⟩⟩
      · exact .inl ⟨i, hi, hp⟩
      · exact .inr ⟨p, ⟨i, hi, hp⟩, c, hc, rfl⟩
  · intro i hi hreached
    obtain ⟨p, hp⟩ := exists_firstWord_string hreached
    refine ⟨p, hp, mem_samples.mpr (.inr (.inl (h.mem_accessWords_iff.mpr ⟨i, hi, hp⟩))), ?_⟩
    intro c hc
    refine ⟨h.push_mem_samples hi hp hc, ?_⟩
    rw [String.toList_push, walk?_concat, hp.leads, Option.bind_some]

/-- The states `p` and `q` go round, and `x` is never entered. -/
theorem Constructed.exercised_of_circle : ∃ d : Dfa,
    d = .ofEdges "p" ["q"] [⟨"p", 'b', "q"⟩, ⟨"q", 'a', "p"⟩, ⟨"x", '!', "q"⟩] ∧ d.Constructed ∧ d.Exercised := by
  have h (start : String) (accepting : List String) (edges : List NamedEdge) :
      (Dfa.ofEdges start accepting edges).Constructed := .ofEdges start accepting edges
  exact ⟨_, rfl, h .., (h ..).exercised⟩

/-- Some sample leads to the state and goes on with a character that is not in the alphabet. -/
def TriesForeign (d : Dfa) (i : Nat) : Prop :=
  ∃ (p : String) (c : Char), d.walk? d.start p.toList = some i ∧ c ∉ d.alphabet ∧ p.push c ∈ d.samples

theorem TriesForeign.exists_foreign? (h : d.TriesForeign i) : ∃ c, d.foreign? = some c := by
  obtain ⟨p, c, -, hc, hsample⟩ := h
  have hmem : c ∈ d.sampleAlphabet := writtenIn_of_mem_samples hsample c (by simp)
  rw [sampleAlphabet_eq] at hmem
  exact ⟨c, Option.mem_toList.mp ((List.mem_append.mp hmem).resolve_left hc)⟩

/-- At a state that is reached a character outside the alphabet is tried exactly if one of the candidates, the visible
characters of ASCII and `ß`, is outside. -/
theorem Constructed.triesForeign_iff (h : d.Constructed) (hi : i < d.size)
    (hreached : ∃ v, d.walk? d.start v = some i) :
    d.TriesForeign i ↔ ∃ c, ('!' ≤ c ∧ c ≤ '~' ∨ c = 'ß') ∧ c ∉ d.alphabet := by
  simp only [← mem_foreignCandidates]
  rw [← exists_foreign?_iff]
  constructor
  · exact TriesForeign.exists_foreign?
  · rintro ⟨c, hc⟩
    obtain ⟨p, hp⟩ := exists_firstWord_string hreached
    have hmem : c ∈ d.sampleAlphabet := by
      rw [sampleAlphabet_eq]
      exact List.mem_append_right _ (Option.mem_toList.mpr hc)
    exact ⟨p, c, hp.leads, not_mem_alphabet_of_foreign? hc, h.push_mem_samples hi hp hmem⟩

/-- The first candidates are in use, and a later one is not. -/
theorem Constructed.triesForeign_of_two_edges : ∃ d : Dfa,
    d = .ofEdges "p" [] [⟨"p", '!', "q"⟩, ⟨"q", '"', "p"⟩] ∧ d.Constructed ∧ 1 < d.size ∧
      (∃ v, d.walk? d.start v = some 1) ∧
      (d.TriesForeign 1 ↔ ∃ c, ('!' ≤ c ∧ c ≤ '~' ∨ c = 'ß') ∧ c ∉ d.alphabet) := by
  refine ⟨_, rfl, .ofEdges .., by decide +kernel, ⟨['!'], by decide +kernel⟩, ?_⟩
  exact Constructed.triesForeign_iff (.ofEdges ..) (by decide +kernel) ⟨['!'], by decide +kernel⟩

/-- A pattern may use up all candidates, and then nothing outside its alphabet is tried. -/
theorem foreign_not_tried : ∃ stages, compile "[!-~ß]" = .ok stages ∧ stages.minimal.dfa.Constructed ∧
    ∃ i < stages.minimal.dfa.size, (∃ v, stages.minimal.dfa.walk? stages.minimal.dfa.start v = some i) ∧
      ¬ stages.minimal.dfa.TriesForeign i := by
  obtain ⟨n, -, h⟩ := exists_compile_of_isOk "[!-~ß]" (by decide +kernel)
  have hmade : n.toDfa.minimize.dfa.Constructed := .minimize (.toDfa n)
  refine ⟨_, h, hmade, _, (wellFormed_minimize n.wellFormed_toDfa).start_lt, ⟨[], rfl⟩, ?_⟩
  intro htried
  obtain ⟨c, hc, hnot⟩ := exists_foreign?_iff.mp htried.exists_foreign?
  refine hnot ((Stages.mem_alphabet_minimal_iff h).mpr ?_)
  have hrange : ∃ t ∈ Token.split 0 "[!-~ß]".toList, t.kind = .operand (.range '!' '~') := by decide +kernel
  have hchar : ∃ t ∈ Token.split 0 "[!-~ß]".toList, t.kind = .operand (.char 'ß') := by decide +kernel
  rcases mem_foreignCandidates.mp hc with hvisible | rfl
  · obtain ⟨t, ht, hkind⟩ := hrange
    exact ⟨t, ht, _, hkind, by simpa [Operand.contains] using hvisible⟩
  · obtain ⟨t, ht, hkind⟩ := hchar
    exact ⟨t, ht, _, hkind, rfl⟩

end Dfa

end PatternAutomata
