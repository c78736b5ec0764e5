import PatternAutomata.Proofs.Batch
import PatternAutomata.Proofs.Pattern.Conventional
import PatternAutomata.Proofs.Regex.Marked
import PatternAutomata.Proofs.Sample

namespace PatternAutomata

namespace Oracle

/-- Where the oracle takes the text, it is right about every expression that the text writes. -/
def Sound (oracle : Oracle) (text : List Char) : Prop :=
  ∀ accepts, oracle text = .ok accepts → ∀ r, Regex.Writes .alternatives text r →
    ∀ w, accepts w = true ↔ w ∈ r.language

/-- The oracle takes the text, and is right about it. -/
structure Decides (oracle : Oracle) (text : List Char) : Prop where
  taken : (oracle text).isOk = true
  sound : oracle.Sound text

theorem Decides.exists_accepts {oracle : Oracle} {text : List Char} (h : oracle.Decides text) :
    ∃ accepts, oracle text = .ok accepts := by
  cases haccepts : oracle text with
  | error e =>
    have htaken := h.taken
    rw [haccepts] at htaken
    cases htaken
  | ok accepts => exact ⟨accepts, rfl⟩

end Oracle

/-- Matching by marks is right about every text that it does not refuse. -/
theorem Regex.sound_oracle (text : List Char) : Oracle.Sound Regex.oracle text := by
  intro accepts haccepts r hr w
  rw [Regex.oracle, hr.ofText?_eq] at haccepts
  dsimp only at haccepts
  split at haccepts
  · obtain rfl := Except.ok.inj haccepts
    exact Marked.accepts_ofRegex_iff r w
  · cases haccepts

variable {pattern : String} {stages : Stages}

theorem Regex.decides_oracle (pattern : String) (h : (Conventional.ofPattern? pattern).toOption.all
    (fun text => (Regex.oracle text.toList).isOk) = true) (text : String)
    (htext : Conventional.ofPattern? pattern = .ok text) : Oracle.Decides Regex.oracle text.toList := by
  rw [htext] at h
  exact ⟨h, Regex.sound_oracle _⟩

/-- The conventional text of a pattern writes an expression with the words of the pattern. -/
theorem Conventional.exists_writes (h : compile pattern = .ok stages) : ∃ text r, ofPattern? pattern = .ok text ∧
    Regex.Writes .alternatives text.toList r ∧ r.language = Grammar.language pattern := by
  obtain ⟨n, hn, -⟩ := compile_eq_ok_iff.mp h
  obtain ⟨e, he, hpattern, rfl⟩ := Nfa.ofPattern?_eq_ok_iff.mp hn
  obtain ⟨r, hr, hlanguage⟩ := (piece_textOf he).alone
  refine ⟨_, r, ofPattern?_eq_ok he hpattern, ?_, ?_⟩
  · rw [String.toList_ofList]
    exact .sequence hr
  · -- Both readings have the words of the one automaton.
    ext w
    rw [hlanguage, ← (Nfa.faithful_fold (.empty 0) he).accepts_iff, (Grammar.faithful_of_ofPattern? hn).accepts_iff]

theorem Stages.accepts_dfa_iff (h : compile pattern = .ok stages) (w : List Char) :
    stages.dfa.accepts w = true ↔ w ∈ Grammar.language pattern := by
  obtain ⟨n, hn, rfl⟩ := compile_eq_ok_iff.mp h
  have hfaithful := Grammar.faithful_of_ofPattern? hn
  rw [← hfaithful.accepts_iff, ← Nfa.accepts_toDfa hfaithful.sound]
  rfl

theorem Stages.accepts_minimal_iff (h : compile pattern = .ok stages) (w : List Char) :
    stages.minimal.dfa.accepts w = true ↔ w ∈ Grammar.language pattern := by
  obtain ⟨n, hn, rfl⟩ := compile_eq_ok_iff.mp h
  have hfaithful := Grammar.faithful_of_ofPattern? hn
  rw [← hfaithful.accepts_iff, ← hfaithful.accepts_minimize]
  rfl

section Disagreements

variable {oracle : Oracle}

theorem disagreementsBy_of_refused {text : String} {e : Regex.Refusal}
    (htext : Conventional.ofPattern? pattern = .ok text) (hrefused : oracle text.toList = .error e) (d : Dfa) :
    disagreementsBy oracle pattern d = .error (.refused pattern text.toList e) := by
  rw [disagreementsBy, htext]
  show ((oracle text.toList).mapError _ >>= _) = _
  rw [hrefused]
  rfl

/-- What is found are the samples where the automaton is wrong about the pattern. -/
theorem exists_disagreements {text : String} {accepts : List Char → Bool} (h : compile pattern = .ok stages)
    (htext : Conventional.ofPattern? pattern = .ok text) (hsound : oracle.Sound text.toList)
    (haccepts : oracle text.toList = .ok accepts) (d : Dfa) : ∃ words, disagreementsBy oracle pattern d = .ok words ∧
      ∀ word, word ∈ words ↔
        word ∈ d.samples ∧ ¬ (d.accepts word.toList = true ↔ word.toList ∈ Grammar.language pattern) := by
  obtain ⟨text', r, htext', hr, hlanguage⟩ := Conventional.exists_writes h
  obtain rfl := Except.ok.inj (htext.symm.trans htext')
  refine ⟨d.samples.filter fun word => d.accepts word.toList != accepts word.toList, ?_, ?_⟩
  · rw [disagreementsBy, htext]
    show ((oracle text.toList).mapError _ >>= _) = _
    rw [haccepts]
    rfl
  · intro word
    rw [List.mem_filter, bne_iff_ne, ne_eq, Bool.eq_iff_iff, hsound accepts haccepts r hr, hlanguage]

/-- An automaton that is right about all its samples is not disputed. -/
theorem disagreementsBy_eq_nil (h : compile pattern = .ok stages)
    (hdecides : ∀ text, Conventional.ofPattern? pattern = .ok text → oracle.Decides text.toList) {d : Dfa}
    (hd : ∀ word ∈ d.samples, d.accepts word.toList = true ↔ word.toList ∈ Grammar.language pattern) :
    disagreementsBy oracle pattern d = .ok [] := by
  obtain ⟨text, -, htext, -⟩ := Conventional.exists_writes h
  obtain ⟨accepts, haccepts⟩ := (hdecides text htext).exists_accepts
  obtain ⟨words, hwords, hmem⟩ := exists_disagreements h htext (hdecides text htext).sound haccepts d
  have hnone : words = [] :=
    List.eq_nil_iff_forall_not_mem.mpr fun word hword =>
      ((hmem word).mp hword).2 (hd word ((hmem word).mp hword).1)
  rw [hwords, hnone]

/-- No stage of a pattern is disputed, so a run that asks for the check goes like one that does not, and reports that
the check was passed. -/
structure Undisputed (oracle : Oracle) (pattern : String) (stages : Stages) : Prop where
  dfa : disagreementsBy oracle pattern stages.dfa = .ok []
  minimal : disagreementsBy oracle pattern stages.minimal.dfa = .ok []
  process : ∀ (m : Type → Type) [Monad m] [LawfulMonad m] (w : Workspace m) (c : Config), c.verify = true →
    Batch.processBy oracle w c pattern = (do
      let r ← Batch.process w { c with verify := false } pattern
      w.print (Batch.verdict "ORACLE" true pattern)
      pure r)

theorem stages_undisputed (h : compile pattern = .ok stages)
    (hdecides : ∀ text, Conventional.ofPattern? pattern = .ok text → oracle.Decides text.toList) :
    Undisputed oracle pattern stages := by
  have hminimal := disagreementsBy_eq_nil h hdecides fun word _ => Stages.accepts_minimal_iff h word.toList
  refine ⟨disagreementsBy_eq_nil h hdecides fun word _ => Stages.accepts_dfa_iff h word.toList, hminimal, ?_⟩
  intro m _ _ w c hverify
  rw [Batch.process_eq w rfl h, Batch.processBy, h]
  simp only [Batch.crossCheck, hverify, hminimal, if_true, List.isEmpty_nil, bind_assoc, pure_bind, Bool.and_true]

theorem stages_undisputed_of_class_in_loop : ∃ stages, compile "(a|[#-.])*^" = .ok stages ∧
    (∀ text, Conventional.ofPattern? "(a|[#-.])*^" = .ok text → Oracle.Decides Regex.oracle text.toList) ∧
    Undisputed Regex.oracle "(a|[#-.])*^" stages := by
  obtain ⟨n, -, h⟩ := exists_compile_of_isOk "(a|[#-.])*^" (by decide +kernel)
  have hdecides := Regex.decides_oracle "(a|[#-.])*^" (by decide +kernel)
  exact ⟨_, h, hdecides, stages_undisputed h hdecides⟩

/-- Of the words of one character at most, those are found that are written in the sample alphabet of the automaton and
that it is wrong about, unless the oracle refuses the text. -/
inductive FindsShortWords (oracle : Oracle) (pattern : String) (d : Dfa) : Prop
  | refused {text : String} {e : Regex.Refusal} (htext : Conventional.ofPattern? pattern = .ok text)
      (hrefused : oracle text.toList = .error e)
      (h : disagreementsBy oracle pattern d = .error (.refused pattern text.toList e))
  | found {words : List String} (h : disagreementsBy oracle pattern d = .ok words)
      (hfound : ∀ w : List Char, w.length ≤ 1 → (String.ofList w ∈ words ↔
        (∀ c ∈ w, c ∈ d.sampleAlphabet) ∧ ¬ (d.accepts w = true ↔ w ∈ Grammar.language pattern)))

theorem finds_short_words (h : compile pattern = .ok stages)
    (hsound : ∀ text, Conventional.ofPattern? pattern = .ok text → oracle.Sound text.toList) (d : Dfa) :
    FindsShortWords oracle pattern d := by
  obtain ⟨text, -, htext, -⟩ := Conventional.exists_writes h
  cases haccepts : oracle text.toList with
  | error e => exact .refused htext haccepts (disagreementsBy_of_refused htext haccepts d)
  | ok accepts =>
    obtain ⟨words, hwords, hmem⟩ := exists_disagreements h htext (hsound text htext) haccepts d
    refine .found hwords ?_
    intro w hw
    rw [hmem, Dfa.mem_samples_iff_of_length_le hw, String.toList_ofList]

theorem finds_short_words_of_one_letter : ∃ stages, compile "a|b" = .ok stages ∧
    (∀ text, Conventional.ofPattern? "a|b" = .ok text → Oracle.Sound Regex.oracle text.toList) ∧
    FindsShortWords Regex.oracle "a|b" (.ofEdges "p" ["q"] [⟨"p", 'a', "q"⟩, ⟨"q", 'b', "q"⟩]) := by
  obtain ⟨n, -, h⟩ := exists_compile_of_isOk "a|b" (by decide +kernel)
  exact ⟨_, h, fun _ _ => Regex.sound_oracle _, finds_short_words h (fun _ _ => Regex.sound_oracle _) _⟩

/-- A letter that the automaton lacks is not looked for: one without edges is wrong about it and is not caught. -/
theorem missing_letter_not_found : ∃ stages, compile "b" = .ok stages ∧ ['b'] ∈ Grammar.language "b" ∧
    (Dfa.ofEdges "p" [] []).accepts ['b'] = false ∧ disagreements "b" (.ofEdges "p" [] []) = .ok [] := by
  obtain ⟨n, hn, h⟩ := exists_compile_of_isOk "b" (by decide +kernel)
  have hletter : Grammar.Derives .alternatives (Grammar.kindsOf "b") (.operand (.char 'b')) :=
    .sequence (.factor (.atom (.operand (.char 'b'))))
  have hlanguage (w : List Char) : w ∈ Grammar.language "b" ↔ w = ['b'] := by
    rw [Grammar.language_eq hn hletter]
    simp [Expression.language, Operand.language, Operand.contains, mem_letters]
  have hdecides := Regex.decides_oracle "b" (by decide +kernel)
  refine ⟨_, h, (hlanguage _).mpr rfl, rfl, disagreementsBy_eq_nil h hdecides ?_⟩
  -- No sample has the letter, and the automaton is right to reject all others.
  intro word hword
  have halphabet : 'b' ∉ (Dfa.ofEdges "p" [] []).sampleAlphabet := by decide +kernel
  have hrejects : (Dfa.ofEdges "p" [] []).accepts word.toList = false := by cases word.toList <;> rfl
  have hne : word.toList ≠ ['b'] := by
    intro hletter
    apply halphabet
    exact Dfa.writtenIn_of_mem_samples hword 'b' (by simp [hletter])
  simp [hrejects, hlanguage, hne]

end Disagreements

end PatternAutomata
