import PatternAutomata.Proofs.Pattern.Reading

namespace PatternAutomata

namespace Token

/-- Tokens stand in the text one after the other, and nothing of it is left out. -/
theorem flatMap_text_split (i : Nat) (cs : List Char) : (split i cs).flatMap (·.kind.text) = cs := by
  induction cs using split_induction generalizing i with
  | nil => rfl
  | range c d after h ih =>
    rw [split_range i h, List.flatMap_cons, ih]
    rfl
  | single c rest h ih => rw [split_single i h, List.flatMap_cons, ih, Kind.text_single, List.singleton_append]

/-- At each token the text before it has been used up, and the rest is split from there. -/
theorem exists_rest_of_split {i : Nat} {cs : List Char} {before after : List Token} {t : Token}
    (h : split i cs = before ++ t :: after) : ∃ rest, cs = before.flatMap (·.kind.text) ++ rest ∧
      t.position = i + (before.flatMap (·.kind.text)).length ∧ split t.position rest = t :: after := by
  -- By the tokens before it; each takes its text off the front and moves the position on by its length.
  induction before generalizing i cs with
  | nil =>
    have hposition : t.position = i := by
      induction cs using split_induction with
      | nil => cases h
      | range c d rest hc _ =>
        rw [split_range i hc] at h
        obtain ⟨rfl, -⟩ := List.cons.inj h
        rfl
      | single c rest hc _ =>
        rw [split_single i hc] at h
        obtain ⟨rfl, -⟩ := List.cons.inj h
        rfl
    exact ⟨cs, rfl, hposition, hposition ▸ h⟩
  | cons u before ih =>
    induction cs using split_induction with
    | nil => cases h
    | range c d rest hc _ =>
      rw [split_range i hc] at h
      obtain ⟨rfl, htail⟩ := List.cons.inj h
      obtain ⟨rest', rfl, hposition, hrest⟩ := ih htail
      refine ⟨rest', rfl, ?_, hrest⟩
      rw [hposition, List.flatMap_cons, List.length_append]
      exact Nat.add_assoc ..
    | single c rest hc _ =>
      rw [split_single i hc] at h
      obtain ⟨rfl, htail⟩ := List.cons.inj h
      obtain ⟨rest', rfl, hposition, hrest⟩ := ih htail
      refine ⟨rest', ?_, ?_, hrest⟩
      · rw [List.flatMap_cons, Kind.text_single]
        rfl
      · rw [hposition, List.flatMap_cons, Kind.text_single, List.length_append]
        exact Nat.add_assoc ..

theorem getElem?_position {cs : List Char} {t : Token} {c : Char} (ht : t ∈ split 0 cs) (htext : t.kind.text = [c]) :
    cs[t.position]? = some c := by
  obtain ⟨before, after, hsplit⟩ := List.append_of_mem ht
  obtain ⟨rest, rfl, hposition, hrest⟩ := exists_rest_of_split hsplit
  have htextRest := flatMap_text_split t.position rest
  rw [hrest, List.flatMap_cons, htext] at htextRest
  rw [hposition, ← htextRest]
  simp

end Token

namespace Grammar

open Token

def kinds (cs : List Char) : List Kind := (split 0 cs).map kind

/-- Positions count characters and decide nothing. -/
theorem kind_split (i : Nat) (cs : List Char) : (split i cs).map kind = kinds cs := by
  have hposition (i j : Nat) : (split i cs).map kind = (split j cs).map kind := by
    induction cs using split_induction generalizing i j with
    | nil => rfl
    | range c d after h ih =>
      rw [split_range i h, split_range j h, List.map_cons, List.map_cons, ih (i + 3) (j + 3)]
    | single c rest h ih =>
      rw [split_single i h, split_single j h, List.map_cons, List.map_cons, ih (i + 1) (j + 1)]
  exact hposition i 0

theorem kinds_single {c : Char} {rest : List Char} (h : rangeAfter c rest = false) :
    kinds (c :: rest) = .single c :: kinds rest := by
  rw [kinds, split_single 0 h, List.map_cons, kind_split]

theorem kinds_range {c d : Char} {after : List Char} (h : rangeAfter c ('-' :: d :: after) = true) :
    kinds (c :: '-' :: d :: after) = .operand (.range c d) :: kinds after := by
  rw [kinds, split_range 0 h, List.map_cons, kind_split]

theorem allUsable_iff (cs : List Char) : AllUsable (split 0 cs) ↔ ∀ v, .operand v ∈ kinds cs → v.Usable := by
  unfold AllUsable kinds
  simp only [List.mem_map]
  constructor
  · rintro h v ⟨t, ht, hkind⟩
    exact h t ht v hkind
  · intro h t ht v hkind
    exact h v ⟨t, ht, hkind⟩

end Grammar

namespace Token

/-- Whether a range can be read at the start of the text. -/
def RangeAt (cs : List Char) : Prop :=
  ∃ first last after, cs = first :: '-' :: last :: after ∧ first ∉ reservedInRange ∧ last ∉ reservedInRange

theorem isEndpoint_iff {c : Char} : isEndpoint c = true ↔ c ∉ reservedInRange := by
  simp [isEndpoint]

theorem rangeAt_cons_iff {c : Char} {rest : List Char} : RangeAt (c :: rest) ↔ rangeAfter c rest = true := by
  constructor
  · rintro ⟨first, last, after, heq, hfirst, hlast⟩
    obtain ⟨rfl, rfl⟩ := List.cons.inj heq
    exact rangeAfter_cons_cons.mpr ⟨rfl, isEndpoint_iff.mpr hfirst, isEndpoint_iff.mpr hlast⟩
  · intro h
    match rest with
    | hyphen :: d :: after =>
      obtain ⟨rfl, hc, hd⟩ := rangeAfter_cons_cons.mp h
      exact ⟨c, d, after, rfl, isEndpoint_iff.mp hc, isEndpoint_iff.mp hd⟩

def Kind.IsRange (k : Kind) : Prop := ∃ first last, k = .operand (.range first last)

theorem Kind.not_isRange_single (c : Char) : ¬ (single c).IsRange := by
  rintro ⟨first, last, h⟩
  have htext := text_single c
  rw [h] at htext
  cases htext

theorem Kind.exists_text_eq {k : Kind} (h : ¬ k.IsRange) : ∃ c, k.text = [c] := by
  match k with
  | operand (.char c) => exact ⟨c, rfl⟩
  | operand (.range first last) => exact absurd ⟨first, last, rfl⟩ h
  | opening d => exact ⟨d.opener, rfl⟩
  | closing d => exact ⟨d.closer, rfl⟩
  | operator o => exact ⟨o.symbol, rfl⟩

/-- Tokens that stand in a text one after the other, each with the number of characters before it, with a range
wherever one can be read; every other character is of the kind that it has alone. -/
structure Splits (cs : List Char) (tokens : List Token) : Prop where
  text : tokens.flatMap (·.kind.text) = cs
  position : ∀ before t after, tokens = before ++ t :: after → t.position = (before.flatMap (·.kind.text)).length
  isRange_iff : ∀ t ∈ tokens, t.kind.IsRange ↔ RangeAt (cs.drop t.position)
  single : ∀ t ∈ tokens, ∀ c, t.kind.text = [c] → t.kind = .single c

theorem splits_split (cs : List Char) : Splits cs (split 0 cs) := by
  -- What a token is shows from the text that is left when it is split off.
  have hfirst {i : Nat} {rest : List Char} {t : Token} {after : List Token} (h : split i rest = t :: after) :
      (t.kind.IsRange ↔ RangeAt rest) ∧ ∀ c, t.kind.text = [c] → t.kind = .single c := by
    cases rest using split_induction with
    | nil => cases h
    | range c d rest hc =>
      rw [split_range i hc] at h
      obtain ⟨rfl, -⟩ := List.cons.inj h
      exact ⟨iff_of_true ⟨c, d, rfl⟩ (rangeAt_cons_iff.mpr hc), by simp [Kind.text, Operand.text]⟩
    | single c rest hc =>
      rw [split_single i hc] at h
      obtain ⟨rfl, -⟩ := List.cons.inj h
      refine ⟨iff_of_false (Kind.not_isRange_single c) ?_, ?_⟩
      · rw [rangeAt_cons_iff, hc]
        decide
      · intro d hd
        rw [Kind.text_single] at hd
        rw [List.singleton_inj.mp hd]
  refine ⟨flatMap_text_split 0 cs, ?_, ?_, ?_⟩
  · intro before t after h
    obtain ⟨rest, -, hposition, -⟩ := exists_rest_of_split h
    rw [hposition, Nat.zero_add]
  · intro t ht
    obtain ⟨before, after, h⟩ := List.append_of_mem ht
    obtain ⟨rest, rfl, hposition, hrest⟩ := exists_rest_of_split h
    rw [hposition, Nat.zero_add, List.drop_left]
    exact (hfirst hrest).1
  · intro t ht
    obtain ⟨before, after, h⟩ := List.append_of_mem ht
    obtain ⟨rest, -, -, hrest⟩ := exists_rest_of_split h
    exact (hfirst hrest).2

/-- From each token on, what splits a text is what is split off there. -/
theorem Splits.eq_split_of_append {cs : List Char} {before after : List Token} (h : Splits cs (before ++ after)) :
    after = split (before.flatMap (·.kind.text)).length (after.flatMap (·.kind.text)) := by
  induction after generalizing before with
  | nil => rfl
  | cons t after ih =>
    have hposition := h.position before t after rfl
    have hrest : cs.drop t.position = t.kind.text ++ after.flatMap (·.kind.text) := by
      rw [hposition, ← h.text, List.flatMap_append, List.drop_left, List.flatMap_cons]
    have hrange := h.isRange_iff t (by simp)
    rw [hrest] at hrange
    have hnext : Splits cs ((before ++ [t]) ++ after) := by simpa using h
    have htail := ih hnext
    rw [List.flatMap_append, List.flatMap_singleton, List.length_append, ← hposition] at htail
    rw [← hposition, List.flatMap_cons]
    obtain ⟨kind, i⟩ := t
    by_cases hkind : Kind.IsRange kind
    · have hat := hrange.mp hkind
      obtain ⟨first, last, rfl⟩ := hkind
      rw [show _ ++ _ = first :: '-' :: last :: after.flatMap (·.kind.text) from rfl] at hat ⊢
      rw [split_range _ (rangeAt_cons_iff.mp hat)]
      exact congrArg _ htail
    · obtain ⟨c, hc⟩ := Kind.exists_text_eq hkind
      have hsingle := h.single ⟨kind, i⟩ (by simp) c hc
      have hat := mt hrange.mpr hkind
      rw [hc, List.singleton_append] at hat ⊢
      rw [rangeAt_cons_iff, Bool.not_eq_true] at hat
      rw [split_single _ hat, ← hsingle]
      rw [hc] at htail
      exact congrArg _ htail

theorem splits_iff {cs : List Char} {tokens : List Token} : Splits cs tokens ↔ tokens = split 0 cs := by
  constructor
  · intro h
    have hall : Splits cs ([] ++ tokens) := h
    have heq := hall.eq_split_of_append
    rwa [h.text] at heq
  · rintro rfl
    exact splits_split cs

/-- What is reported of an operand that cannot be used: that it runs backwards or, if it does not, that it contains ε. -/
inductive Rejects (position : Nat) : Operand → PatternError.Cause → Prop
  | backward {first last : Char} (h : last < first) :
    Rejects position (.range first last) (.backwardRange first last position)
  | reserved {v : Operand} (h : v.isBackward = false) (hepsilon : v.contains epsilon = true) :
    Rejects position v (.reservedSymbol epsilon position)

theorem fault?_eq_some_iff {t : Token} {cause : PatternError.Cause} :
    t.fault? = some cause ↔ ∃ v, t.kind = .operand v ∧ Rejects t.position v cause := by
  constructor
  · intro h
    unfold fault? at h
    split at h
    · next first last hkind =>
      split_ifs at h with hback hepsilon
      · obtain rfl := Option.some.inj h
        exact ⟨_, hkind, .backward hback⟩
      · obtain rfl := Option.some.inj h
        exact ⟨_, hkind, .reserved (by simpa [Operand.isBackward] using hback) hepsilon⟩
    · next c hkind =>
      split_ifs at h with hepsilon
      obtain rfl := Option.some.inj h
      exact ⟨_, hkind, .reserved rfl (by simp [Operand.contains, hepsilon])⟩
    · cases h
  · rintro ⟨v, hkind, hrejects⟩
    unfold fault?
    rw [hkind]
    cases hrejects with
    | backward h => exact if_pos h
    | reserved h hepsilon =>
      cases v with
      | char c =>
        have hc : epsilon = c := beq_iff_eq.mp hepsilon
        exact if_pos hc.symm
      | range first last =>
        have hforward : ¬ last < first := by simpa [Operand.isBackward] using h
        show (if last < first then _ else _) = _
        rw [if_neg hforward, if_pos hepsilon]

theorem ofPattern?_eq_error_iff {pattern : String} {cause : PatternError.Cause} :
    ofPattern? pattern = .error cause ↔ (split 0 pattern.toList).findSome? fault? = some cause := by
  rw [ofPattern?_eq]
  cases (split 0 pattern.toList).findSome? fault? <;> simp

/-- Reading a pattern. There is one splitting of its text, and that is what is read if all its operands are usable;
otherwise the leftmost unusable one is reported, with the number of characters before it. -/
theorem ofPattern?_outcome (pattern : String) :
    (∃! tokens, Splits pattern.toList tokens) ∧
      (∀ tokens, ofPattern? pattern = .ok tokens ↔ Splits pattern.toList tokens ∧ AllUsable tokens) ∧
      ∀ cause, ofPattern? pattern = .error cause ↔ ∃ before t after v,
        Splits pattern.toList (before ++ t :: after) ∧ AllUsable before ∧ t.kind = .operand v ∧
          Rejects t.position v cause := by
  refine ⟨⟨split 0 pattern.toList, splits_split _, fun _ => splits_iff.mp⟩, ?_, ?_⟩
  · intro tokens
    rw [splits_iff, ofPattern?_eq_ok_iff]
  · intro cause
    rw [ofPattern?_eq_error_iff, List.findSome?_eq_some_iff]
    constructor
    · rintro ⟨before, t, after, hsplit, hfault, hbefore⟩
      obtain ⟨v, hkind, hrejects⟩ := fault?_eq_some_iff.mp hfault
      exact ⟨before, t, after, v, splits_iff.mpr hsplit.symm, fun u hu => fault?_eq_none_iff.mp (hbefore u hu), hkind,
        hrejects⟩
    · rintro ⟨before, t, after, v, hsplits, hbefore, hkind, hrejects⟩
      exact ⟨before, t, after, (splits_iff.mp hsplits).symm, fault?_eq_some_iff.mpr ⟨v, hkind, hrejects⟩,
        fun u hu => fault?_eq_none_iff.mpr (hbefore u hu)⟩

end Token

end PatternAutomata
