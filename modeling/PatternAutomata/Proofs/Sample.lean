import PatternAutomata.Proofs.Discovery
import PatternAutomata.Disagreement

namespace PatternAutomata

namespace Dfa

def WrittenIn (alphabet : List Char) (w : String) : Prop := ∀ c ∈ w.toList, c ∈ alphabet

theorem writtenIn_empty (alphabet : List Char) : WrittenIn alphabet "" := by simp [WrittenIn]

theorem WrittenIn.push {alphabet : List Char} {w : String} (h : WrittenIn alphabet w) {c : Char} (hc : c ∈ alphabet) :
    WrittenIn alphabet (w.push c) := by
  intro a ha
  rw [String.toList_push, List.mem_append, List.mem_singleton] at ha
  rcases ha with ha | rfl
  · exact h a ha
  · exact hc

theorem writtenIn_of_mem_wordsFrom {alphabet : List Char} {rounds count : Nat} {layer : List String}
    (hlayer : ∀ v ∈ layer, WrittenIn alphabet v) {w : String} (hw : w ∈ wordsFrom alphabet rounds count layer) :
    WrittenIn alphabet w := by
  induction rounds generalizing count layer with
  | zero => cases hw
  | succ rounds ih =>
    rw [wordsFrom] at hw
    split at hw
    · exact hlayer w (List.mem_of_mem_take hw)
    · split at hw
      · cases hw
      · rcases List.mem_append.mp hw with hw | hw
        · exact hlayer w hw
        · apply ih _ hw
          intro v hv
          obtain ⟨u, hu, hv⟩ := List.mem_flatMap.mp hv
          obtain ⟨c, hc, rfl⟩ := List.mem_map.mp hv
          exact (hlayer u hu).push hc

/-- A layer that is not too long is used up. -/
theorem wordsFrom_succ {alphabet : List Char} {rounds count : Nat} {layer : List String} (hcount : layer.length < count)
    (hlayer : layer ≠ []) : wordsFrom alphabet (rounds + 1) count layer = layer ++
      wordsFrom alphabet rounds (count - layer.length) (layer.flatMap fun w => alphabet.map w.push) := by
  rw [wordsFrom, if_neg (Nat.not_le.mpr hcount), if_neg (by simpa using hlayer)]

variable {d : Dfa}

theorem mem_alphabet {c : Char} : c ∈ d.alphabet ↔ ∃ s ∈ d.states.toList, ∃ e ∈ s.edges, e.1 = c := by
  rw [alphabet, mem_ascending]
  simp only [List.mem_flatMap, List.mem_map]

theorem mem_sampleAlphabet_of_mem_alphabet {c : Char} (h : c ∈ d.alphabet) : c ∈ d.sampleAlphabet :=
  List.mem_append_left _ h

/-- Where the walk goes on from a state and the word that leads there. -/
def extensions (d : Dfa) (p : Nat × String) : List (Unit × Nat × String) :=
  ((d.states[p.1]?.map (·.edges)).getD []).map fun e => ((), (e.2, p.2.push e.1))

def accessed (d : Dfa) : Expansion (Prod.fst : Nat × String → Nat) Unit :=
  Expansion.ofRoots Prod.fst d.extensions d.size (if d.size = 0 then [] else [(d.start, "")])

theorem mem_accessWords {w : String} :
    w ∈ d.accessWords ↔ ∃ (i : Nat) (p : Nat × String), d.accessed.found.values[i]? = some p ∧ p.2 = w := by
  have hwords : d.accessWords = d.accessed.found.values.toList.map Prod.snd := rfl
  rw [hwords, List.mem_map]
  simp only [Array.mem_toList_iff, Array.mem_iff_getElem?]
  exact ⟨fun ⟨p, ⟨i, hp⟩, hw⟩ => ⟨i, p, hp, hw⟩, fun ⟨i, p, hp, hw⟩ => ⟨p, ⟨i, hp⟩, hw⟩⟩

theorem writtenIn_of_mem_accessWords {w : String} (h : w ∈ d.accessWords) : WrittenIn d.alphabet w := by
  obtain ⟨i, p, hp, rfl⟩ := mem_accessWords.mp h
  refine (Expansion.explored_ofRoots d.extensions d.size _).induction (P := fun p => WrittenIn d.alphabet p.2) ?_ ?_ hp
  · intro p hp
    split at hp
    · cases hp
    · obtain rfl := List.mem_singleton.mp hp
      exact writtenIn_empty _
  · intro p hp edge hedge
    obtain ⟨e, he, rfl⟩ := List.mem_map.mp hedge
    refine hp.push (mem_alphabet.mpr ?_)
    cases hs : d.states[p.1]? with
    | none => simp [hs] at he
    | some s =>
      rw [hs] at he
      exact ⟨s, Array.mem_toList_iff.mpr (Array.mem_of_getElem? hs), e, he, rfl⟩

theorem empty_mem_accessWords (h : d.size ≠ 0) : "" ∈ d.accessWords := by
  have hexplored : Expansion.Explored d.extensions [(d.start, "")] d.accessed := by
    rw [accessed, if_neg h]
    exact Expansion.explored_ofRoots ..
  obtain ⟨i, p, hp, -⟩ := d.accessed.found.mem_numbers_iff.mp (hexplored.roots_met _ List.mem_cons_self)
  -- What is found first comes from nothing else.
  have hfirst := Array.getElem?_eq_getElem (Nat.zero_lt_of_lt (Array.getElem?_eq_some_iff.mp hp).1)
  refine mem_accessWords.mpr ⟨0, _, hfirst, ?_⟩
  rcases hexplored.origin 0 _ hfirst with hroot | ⟨j, _, -, hj, -⟩
  · exact congrArg Prod.snd (List.mem_singleton.mp hroot)
  · exact absurd hj (Nat.not_lt_zero j)

theorem mem_samples {w : String} : w ∈ d.samples ↔ w ∈ firstWords d.sampleAlphabet sampleLimit ∨ w ∈ d.accessWords ∨
    ∃ p ∈ d.accessWords, ∃ c ∈ d.sampleAlphabet, p.push c = w := by
  rw [samples, mem_ascending]
  simp only [List.mem_append, List.mem_flatMap, List.mem_map, or_assoc]

theorem writtenIn_of_mem_samples {w : String} (h : w ∈ d.samples) : WrittenIn d.sampleAlphabet w := by
  have haccess {p : String} (hp : p ∈ d.accessWords) : WrittenIn d.sampleAlphabet p :=
    fun c hc => mem_sampleAlphabet_of_mem_alphabet (writtenIn_of_mem_accessWords hp c hc)
  rcases mem_samples.mp h with hw | hw | ⟨p, hp, c, hc, rfl⟩
  · refine writtenIn_of_mem_wordsFrom ?_ hw
    intro v hv
    obtain rfl := List.mem_singleton.mp hv
    exact writtenIn_empty _
  · exact haccess hw
  · exact (haccess hp).push hc

theorem empty_mem_samples (d : Dfa) : "" ∈ d.samples := by
  refine mem_samples.mpr (.inl ?_)
  rw [firstWords, sampleLimit, wordsFrom_succ (by simp) (by simp)]
  exact List.mem_append_left _ (List.mem_singleton_self _)

theorem alphabet_of_size_eq_zero (h : d.size = 0) : d.alphabet = [] := by
  have hstates : d.states.toList = [] := by simpa [size] using h
  rw [alphabet, hstates]
  rfl

theorem length_sampleAlphabet_le (h : d.size = 0) : d.sampleAlphabet.length ≤ 1 := by
  rw [sampleAlphabet, alphabet_of_size_eq_zero h, List.nil_append]
  exact Option.length_toList_le

theorem singleton_mem_samples {c : Char} (hc : c ∈ d.sampleAlphabet) : String.ofList [c] ∈ d.samples := by
  have hpush : "".push c = String.ofList [c] := rfl
  rw [mem_samples]
  by_cases h : d.size = 0
  · -- Without states there are no access words, but then one more layer is not cut off either.
    have hlength := length_sampleAlphabet_le h
    have hmem : String.ofList [c] ∈ [""].flatMap fun w => d.sampleAlphabet.map w.push :=
      List.mem_flatMap.mpr ⟨"", List.mem_singleton_self _, List.mem_map.mpr ⟨c, hc, hpush⟩⟩
    left
    rw [firstWords, sampleLimit, wordsFrom_succ (by simp) (by simp), wordsFrom_succ]
    · exact List.mem_append_right _ (List.mem_append_left _ hmem)
    · simp
      omega
    · exact List.ne_nil_of_mem hmem
  · exact .inr (.inr ⟨"", empty_mem_accessWords h, c, hc, hpush⟩)

/-- The samples of one character at most. -/
theorem mem_samples_iff_of_length_le {w : List Char} (hw : w.length ≤ 1) :
    String.ofList w ∈ d.samples ↔ ∀ c ∈ w, c ∈ d.sampleAlphabet := by
  constructor
  · intro h c hc
    exact writtenIn_of_mem_samples h c (by simpa using hc)
  · intro h
    match w with
    | [] => exact empty_mem_samples d
    | [c] => exact singleton_mem_samples (h c (List.mem_singleton_self c))

end Dfa

end PatternAutomata
