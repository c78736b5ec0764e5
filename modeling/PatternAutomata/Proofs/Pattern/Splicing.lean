import PatternAutomata.Proofs.Pattern.Splitting
import PatternAutomata.Proofs.Pipeline

namespace PatternAutomata

open scoped Computability

namespace Grammar

open Token

def Cuts (c : Char) : Prop := isEndpoint c = false ∧ (c == '-') = false

instance (c : Char) : Decidable (Cuts c) := inferInstanceAs (Decidable (_ ∧ _))

theorem kinds_cut {c : Char} (hc : Cuts c) (vs : List Char) : kinds (c :: vs) = .single c :: kinds vs := by
  apply kinds_single
  match vs with
  | [] | [_] => rfl
  | hyphen :: d :: _ => rw [rangeAfter, hc.1, Bool.and_false, Bool.false_and]

/-- A text is cut into tokens on either side of such a character. -/
theorem kinds_append_cut {c : Char} (hc : Cuts c) (us vs : List Char) :
    kinds (us ++ c :: vs) = kinds us ++ .single c :: kinds vs := by
  induction us using split_induction with
  | nil => exact kinds_cut hc vs
  | range b d after h ih =>
    have hrange : rangeAfter b ('-' :: d :: (after ++ c :: vs)) = true := h
    rw [List.cons_append, List.cons_append, List.cons_append, kinds_range hrange, kinds_range h, List.cons_append, ih]
  | single b rest h ih =>
    -- A range that begins in `us` cannot have `c` as its hyphen or as its last character.
    have hsingle : rangeAfter b (rest ++ c :: vs) = false := by
      match rest, vs with
      | [], [] => rfl
      | [], _ :: _ => simp [rangeAfter, hc.2]
      | [_], _ => simp [rangeAfter, hc.1]
      | _ :: _ :: _, _ => exact h
    rw [List.cons_append, kinds_single hsingle, kinds_single h, List.cons_append, ih]

theorem readOut_append (before ks ls : List Kind) :
    readOut before (ks ++ ls) = readOut before ks ++ readOut (before ++ ks) ls := by
  induction ks generalizing before with
  | nil => simp [readOut]
  | cons k ks ih => rw [List.cons_append, readOut, readOut, ih]; simp

/-- What is read of kinds depends on what is before them only through these two facts. -/
theorem readOut_congr {before before' : List Kind} (hclass : insideClass before = insideClass before')
    (hlast : before.getLast?.any Kind.isOperand = before'.getLast?.any Kind.isOperand) (ks : List Kind) :
    readOut before ks = readOut before' ks := by
  obtain ⟨tokens, rfl⟩ : ∃ tokens : List Token, ks = tokens.map kind := by
    refine ⟨ks.map fun k => ⟨k, 0⟩, ?_⟩
    rw [List.map_map]
    exact (List.map_id ks).symm
  rw [← kind_expandClasses, ← kind_expandClasses, hclass, hlast]

theorem insideClass_append_congr {before before' : List Kind} (h : insideClass before = insideClass before')
    (ks : List Kind) : insideClass (before ++ ks) = insideClass (before' ++ ks) := by
  induction ks using List.reverseRecOn with
  | nil => rw [List.append_nil, List.append_nil, h]
  | append_singleton ks k ih =>
    rw [← List.append_assoc, ← List.append_assoc, insideClass_concat, insideClass_concat, ih]

/-- What is read between kinds neither opens nor closes a class. -/
theorem insideClass_append_readOut (start before ks : List Kind) :
    insideClass (start ++ readOut before ks) = insideClass (start ++ ks) := by
  induction ks generalizing start before with
  | nil => rfl
  | cons k ks ih =>
    have himplied : insideClass (start ++ implied before k ++ [k]) = insideClass (start ++ [k]) := by
      unfold implied
      split
      · split
        · rw [insideClass_concat, insideClass_concat, insideClass_concat]
          simp
        · rw [List.append_nil]
      · rw [List.append_nil]
    have hleft : start ++ readOut before (k :: ks) =
        (start ++ implied before k ++ [k]) ++ readOut (before ++ [k]) ks := by
      rw [readOut]
      simp
    have hright : start ++ k :: ks = (start ++ [k]) ++ ks := by simp
    rw [hleft, hright, ih, insideClass_append_congr himplied]

/-- Whatever can be read leaves no class open. -/
theorem Derives.insideClass_eq {c : Category} {ks : List Kind} {e : Expression} (h : Derives c ks e)
    {before : List Kind} (hbefore : insideClass before = false) : insideClass (before ++ ks) = false := by
  induction h generalizing before with
  | operand v =>
    rw [insideClass_concat, hbefore]
    simp
  | @group d ks _ _ ih =>
    have hsplit : before ++ (.opening d :: ks ++ [.closing d]) = (before ++ .opening d :: ks) ++ [.closing d] := by simp
    rw [hsplit, insideClass_concat]
    -- A bracket closes the class that it opened. Parentheses do not, so there the inner kinds have to.
    cases d with
    | bracket => simp
    | paren =>
      have hopened : insideClass (before ++ [.opening .paren]) = false := by
        rw [insideClass_concat, hbefore]
        simp
      have hinner := ih hopened
      rw [List.append_assoc, List.singleton_append] at hinner
      rw [hinner]
      simp
  | atom _ ih | factor _ ih | sequence _ ih => exact ih hbefore
  | repetition r _ ih =>
    rw [← List.append_assoc, insideClass_concat, ih hbefore]
    simp
  | juxtaposition _ _ ih ih' =>
    rw [← List.append_assoc]
    exact ih' (ih hbefore)
  | concatenation _ _ ih ih' | alternation _ _ ih ih' =>
    rw [List.append_cons, ← List.append_assoc, ← List.append_assoc]
    apply ih'
    rw [insideClass_concat, ih hbefore]
    simp

/-- A kind that is no operand is read as it stands. -/
theorem readOut_cons {before : List Kind} {k : Kind} (h : k.isOperand = false) (ks : List Kind) :
    readOut before (k :: ks) = k :: readOut (before ++ [k]) ks := by
  rw [readOut, implied_of_isOperand_eq_false h]
  rfl

/-- A group is read as its content is read alone, and no class is open after it. -/
theorem readOut_group {before ks : List Kind} {e : Expression} (hbefore : insideClass before = false)
    (h : Derives .alternatives (readOut [] ks) e) :
    ∃ after, insideClass after = false ∧ ∀ rest, readOut before (.opening .paren :: (ks ++ .closing .paren :: rest)) =
      (.opening .paren :: readOut [] ks ++ [.closing .paren]) ++ readOut after rest := by
  have hopened : insideClass (before ++ [.opening .paren]) = false := by
    rw [insideClass_concat, hbefore]
    simp
  have hinner : insideClass (before ++ [.opening .paren] ++ ks) = false := by
    rw [← insideClass_append_readOut _ []]
    exact h.insideClass_eq hopened
  refine ⟨before ++ [.opening .paren] ++ ks ++ [.closing .paren], ?_, ?_⟩
  · rw [insideClass_concat, hinner]
    simp
  · intro rest
    have hcontent : readOut (before ++ [.opening .paren]) ks = readOut [] ks := by
      apply readOut_congr
      · rw [hopened]
        rfl
      · rw [List.getLast?_concat]
        rfl
    rw [readOut_cons rfl, readOut_append, hcontent, readOut_cons rfl]
    simp

/-- All operands of the pattern are usable, and the expression is a reading of it. -/
structure Reads (pattern : String) (e : Expression) : Prop where
  usable : ∀ v, .operand v ∈ kinds pattern.toList → v.Usable
  derives : Derives .alternatives (readOut [] (kinds pattern.toList)) e

theorem exists_reads {pattern : String} {stages : Stages} (h : compile pattern = .ok stages) :
    ∃ e, Reads pattern e ∧ language pattern = e.language := by
  obtain ⟨n, hn, -⟩ := compile_eq_ok_iff.mp h
  obtain ⟨husable, e, he⟩ := exists_derives_of_ofPattern? hn
  exact ⟨e, ⟨(allUsable_iff _).mp husable, he⟩, language_eq hn he⟩

/-- The pattern compiles, and its minimized automaton accepts the words of `L`. -/
def CompilesTo (pattern : String) (L : Language Char) : Prop :=
  ∃ stages, compile pattern = .ok stages ∧ ∀ w, stages.minimal.dfa.accepts w = true ↔ w ∈ L

theorem Reads.compilesTo {pattern : String} {e : Expression} (h : Reads pattern e) : CompilesTo pattern e.language := by
  obtain ⟨n, hn, hfaithful⟩ := exists_faithful ((allUsable_iff _).mpr h.usable) h.derives
  refine ⟨.ofNfa n, compile_eq_ok_iff.mpr ⟨n, hn, rfl⟩, ?_⟩
  intro w
  have hminimal : (Stages.ofNfa n).minimal.dfa.accepts w = n.accepts w := hfaithful.accepts_minimize w
  rw [hminimal, hfaithful.accepts_iff]

section Texts

variable {p q text : String} {e f : Expression}

def grouped (p : String) : List Kind := .opening .paren :: readOut [] (kinds p.toList) ++ [.closing .paren]

theorem Reads.factor (h : Reads p e) : Derives .factor (grouped p) e := .atom (.group .paren h.derives)

theorem kinds_group (p : String) (vs : List Char) :
    kinds ('(' :: (p.toList ++ ')' :: vs)) = .opening .paren :: (kinds p.toList ++ .closing .paren :: kinds vs) := by
  rw [kinds_cut (by decide), kinds_append_cut (by decide)]
  rfl

/-- A group at the start of a text: the rest is read with no class open. -/
theorem Reads.exists_after (h : Reads p e) {before : List Kind} (hbefore : insideClass before = false) :
    ∃ after, insideClass after = false ∧ ∀ vs,
      readOut before (kinds ('(' :: (p.toList ++ ')' :: vs))) = grouped p ++ readOut after (kinds vs) := by
  obtain ⟨after, hafter, hread⟩ := readOut_group hbefore h.derives
  refine ⟨after, hafter, ?_⟩
  intro vs
  rw [kinds_group, hread]
  rfl

theorem Reads.usable_group (h : Reads p e) {vs : List Char} (hvs : ∀ v, .operand v ∈ kinds vs → v.Usable) :
    ∀ v, .operand v ∈ kinds ('(' :: (p.toList ++ ')' :: vs)) → v.Usable := by
  intro v hv
  rw [kinds_group] at hv
  rcases List.mem_cons.mp hv with hv | hv
  · cases hv
  · rcases List.mem_append.mp hv with hv | hv
    · exact h.usable v hv
    · rcases List.mem_cons.mp hv with hv | hv
      · cases hv
      · exact hvs v hv

theorem Reads.group (h : Reads p e) (htext : text.toList = '(' :: (p.toList ++ [')'])) : Reads text e := by
  obtain ⟨after, -, hread⟩ := h.exists_after (show insideClass [] = false from rfl)
  constructor
  · rw [htext]
    exact h.usable_group (by simp [kinds, split])
  · rw [htext, hread]
    show Derives .alternatives (grouped p ++ []) e
    rw [List.append_nil]
    exact .sequence (.factor h.factor)

theorem Reads.concat (h : Reads p e) (h' : Reads q f)
    (htext : text.toList = '(' :: (p.toList ++ ')' :: '(' :: (q.toList ++ [')']))) :
    Reads text (.junction .concat e f) := by
  obtain ⟨between, hbetween, hread⟩ := h.exists_after (show insideClass [] = false from rfl)
  obtain ⟨after, -, hread'⟩ := h'.exists_after hbetween
  constructor
  · rw [htext]
    exact h.usable_group (h'.usable_group (by simp [kinds, split]))
  · rw [htext, hread, hread']
    show Derives .alternatives (grouped p ++ (grouped q ++ [])) _
    rw [List.append_nil]
    exact .sequence (.juxtaposition (.factor h.factor) h'.factor)

theorem Reads.alternate (h : Reads p e) (h' : Reads q f)
    (htext : text.toList = '(' :: (p.toList ++ ')' :: '|' :: '(' :: (q.toList ++ [')']))) :
    Reads text (.junction .alternate e f) := by
  obtain ⟨between, hbetween, hread⟩ := h.exists_after (show insideClass [] = false from rfl)
  have hbetween' : insideClass (between ++ [.operator (.junction .alternate)]) = false := by
    rw [insideClass_concat, hbetween]
    decide
  obtain ⟨after, -, hread'⟩ := h'.exists_after hbetween'
  have hbar (vs : List Char) : kinds ('|' :: vs) = .operator (.junction .alternate) :: kinds vs :=
    kinds_cut (by decide) vs
  constructor
  · rw [htext]
    apply h.usable_group
    rw [hbar]
    intro v hv
    rcases List.mem_cons.mp hv with hv | hv
    · cases hv
    · exact h'.usable_group (by simp [kinds, split]) v hv
  · rw [htext, hread, hbar, readOut_cons rfl, hread']
    show Derives .alternatives (grouped p ++ .operator (.junction .alternate) :: (grouped q ++ [])) _
    rw [List.append_nil]
    exact .alternation (.sequence (.factor h.factor)) (.factor h'.factor)

theorem Reads.repetition (h : Reads p e) (r : Repetition)
    (htext : text.toList = '(' :: (p.toList ++ [')', (Operator.repetition r).symbol])) :
    Reads text (.repetition r e) := by
  obtain ⟨after, -, hread⟩ := h.exists_after (show insideClass [] = false from rfl)
  have hkinds : kinds [(Operator.repetition r).symbol] = [.operator (.repetition r)] := by
    cases r <;> rfl
  constructor
  · rw [htext]
    apply h.usable_group
    rw [hkinds]
    intro v hv
    cases List.mem_singleton.mp hv
  · rw [htext, hread, hkinds, readOut_cons rfl]
    exact .sequence (.factor (.repetition r h.factor))

end Texts

/-- Patterns in parentheses may be put side by side, taken as alternatives and repeated, with the effect that
this has on languages. -/
structure Groups (p q : String) : Prop where
  group : CompilesTo ("(" ++ p ++ ")") (language p)
  concat : CompilesTo ("(" ++ p ++ ")(" ++ q ++ ")") (language p * language q)
  alternate : CompilesTo ("(" ++ p ++ ")|(" ++ q ++ ")") (language p + language q)
  star : CompilesTo ("(" ++ p ++ ")*") (language p)∗
  plus : CompilesTo ("(" ++ p ++ ")+") (language p * (language p)∗)
  optional : CompilesTo ("(" ++ p ++ ")?") (language p + 1)

theorem compilesTo_grouped {p q : String} {stages stages' : Stages} (hp : compile p = .ok stages)
    (hq : compile q = .ok stages') : Groups p q := by
  obtain ⟨e, he, hlanguage⟩ := exists_reads hp
  obtain ⟨f, hf, hlanguage'⟩ := exists_reads hq
  constructor <;> simp only [hlanguage, hlanguage']
  case group => exact (he.group (by simp)).compilesTo
  case concat => exact (he.concat hf (by simp)).compilesTo
  case alternate => exact (he.alternate hf (by simp)).compilesTo
  case star => exact (he.repetition .star (by simp [Operator.symbol])).compilesTo
  case plus => exact (he.repetition .plus (by simp [Operator.symbol])).compilesTo
  case optional => exact (he.repetition .optional (by simp [Operator.symbol])).compilesTo

theorem compilesTo_grouped_class_and_range :
    (∃ stages, compile "[ab]" = .ok stages) ∧ (∃ stages, compile "c-d" = .ok stages) ∧ Groups "[ab]" "c-d" := by
  obtain ⟨n, hn⟩ : ∃ n, Nfa.ofPattern? "[ab]" = .ok n := ⟨_, rfl⟩
  obtain ⟨m, hm⟩ : ∃ n, Nfa.ofPattern? "c-d" = .ok n := ⟨_, rfl⟩
  have hp : compile "[ab]" = .ok (.ofNfa n) := compile_eq_ok_iff.mpr ⟨n, hn, rfl⟩
  have hq : compile "c-d" = .ok (.ofNfa m) := compile_eq_ok_iff.mpr ⟨m, hm, rfl⟩
  exact ⟨⟨_, hp⟩, ⟨_, hq⟩, compilesTo_grouped hp hq⟩

end Grammar

end PatternAutomata
