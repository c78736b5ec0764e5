import PatternAutomata.Proofs.Pattern.Failure

namespace PatternAutomata

namespace Token

/-- No operand begins where one has just ended. -/
def Settled : Bool → List Kind → Prop
  | _, [] => True
  | afterOperand, k :: rest => ¬ (afterOperand = true ∧ k.beginsOperand = true) ∧ Settled k.endsOperand rest

theorem settled_joinFrom (b : Bool) (tokens : List Token) : Settled b ((joinFrom b tokens).map kind) := by
  induction tokens generalizing b with
  | nil => trivial
  | cons t rest ih =>
    rw [joinFrom, seam]
    split
    · exact ⟨by simp [Kind.beginsOperand], by simp [Kind.endsOperand], ih t.kind.endsOperand⟩
    · next h => exact ⟨by simpa using h, ih t.kind.endsOperand⟩

theorem Settled.joinFrom_eq {b : Bool} {tokens : List Token} (h : Settled b (tokens.map kind)) :
    joinFrom b tokens = tokens := by
  induction tokens generalizing b with
  | nil => rfl
  | cons t rest ih =>
    obtain ⟨hnot, hrest⟩ := h
    rw [joinFrom, seam, if_neg (by simpa using hnot), ih hrest, List.nil_append]

theorem Settled.expandClasses_eq {b : Bool} {tokens : List Token} (h : Settled b (tokens.map kind)) {afterOperand : Bool}
    (hb : afterOperand = true → b = true) (inClass : Bool) : expandClasses inClass afterOperand tokens = tokens := by
  induction tokens generalizing b afterOperand inClass with
  | nil => rfl
  | cons t rest ih =>
    obtain ⟨hnot, hrest⟩ := h
    have hfalse : false = true → t.kind.endsOperand = true := by simp
    rw [expandClasses]
    split
    · rw [ih hrest hfalse]
    · rw [ih hrest hfalse]
    · next v hk =>
      have hafter : afterOperand = false := by
        rw [← Bool.not_eq_true]
        exact fun hafter => hnot ⟨hb hafter, by rw [hk]; rfl⟩
      rw [hafter, Bool.and_false, if_neg (by decide), ih hrest (by rw [hk]; exact fun _ => rfl)]
    · rw [ih hrest hfalse]

/-- What a kind of token looks like if it was read from a text. -/
def Kind.Legible (k : Kind) : Prop :=
  (∃ first last, k = .operand (.range first last) ∧ isEndpoint first = true ∧ isEndpoint last = true) ∨
    ∃ c, k = .single c

theorem Kind.single_of_isEndpoint {c : Char} (h : isEndpoint c = true) : single c = .operand (.char c) := by
  unfold single symbol?
  split
  case h_10 => rfl
  all_goals exact absurd h (by decide)

theorem legible_of_mem_split {i : Nat} {cs : List Char} {t : Token} (ht : t ∈ split i cs) : t.kind.Legible := by
  induction cs using split_induction generalizing i with
  | nil => cases ht
  | range c d after h ih =>
    rw [split_range i h] at ht
    rcases List.mem_cons.mp ht with rfl | ht
    · obtain ⟨-, hc, hd⟩ := rangeAfter_cons_cons.mp h
      exact .inl ⟨c, d, rfl, hc, hd⟩
    · exact ih ht
  | single c rest h ih =>
    rw [split_single i h] at ht
    rcases List.mem_cons.mp ht with rfl | ht
    · exact .inr ⟨c, rfl⟩
    · exact ih ht

end Token

namespace Grammar

open Token

/-- No range can be read across kinds of which no operand follows another. -/
theorem rangeAfter_eq_false {c : Char} {ks : List Kind} (h : Settled (Kind.single c).endsOperand ks)
    (hlegible : ∀ k ∈ ks, k.Legible) : rangeAfter c (ks.flatMap Kind.text) = false := by
  rw [← Bool.not_eq_true]
  intro hrange
  cases ks with
  | nil => cases hrange
  | cons k rest =>
    rw [List.flatMap_cons] at hrange
    rcases hlegible k List.mem_cons_self with ⟨first, last, rfl, hfirst, -⟩ | ⟨d, rfl⟩
    · -- A range does not begin with `-`.
      obtain ⟨rfl, -, -⟩ := rangeAfter_cons_cons.mp hrange
      exact absurd hfirst (by decide)
    · rw [Kind.text_single, List.singleton_append] at hrange
      cases htext : rest.flatMap Kind.text with
      | nil =>
        rw [htext] at hrange
        cases hrange
      | cons e after =>
        rw [htext] at hrange
        -- Here `-` would be an operand right after the operand `c`.
        obtain ⟨rfl, hc, -⟩ := rangeAfter_cons_cons.mp hrange
        rw [Kind.single_of_isEndpoint hc] at h
        exact h.1 ⟨rfl, rfl⟩

/-- Kinds of which no operand follows another are read again from what they look like. -/
theorem kinds_flatMap_text {b : Bool} {ks : List Kind} (h : Settled b ks) (hlegible : ∀ k ∈ ks, k.Legible) :
    kinds (ks.flatMap Kind.text) = ks := by
  induction ks generalizing b with
  | nil => rfl
  | cons k rest ih =>
    obtain ⟨-, hrest⟩ := h
    obtain ⟨hk, hlegible'⟩ := List.forall_mem_cons.mp hlegible
    have hread := ih hrest hlegible'
    rw [List.flatMap_cons]
    rcases hk with ⟨first, last, rfl, hfirst, hlast⟩ | ⟨c, rfl⟩
    · have hrange : rangeAfter first ('-' :: last :: rest.flatMap Kind.text) = true :=
        rangeAfter_cons_cons.mpr ⟨rfl, hfirst, hlast⟩
      exact (kinds_range hrange).trans (congrArg _ hread)
    · rw [Kind.text_single, List.singleton_append, kinds_single (rangeAfter_eq_false hrest hlegible'), hread]

end Grammar

namespace Token

def unplaced (t : Token) : Token := ⟨t.kind, 0⟩

theorem map_unplaced (tokens : List Token) : tokens.map unplaced = (tokens.map kind).map (⟨·, 0⟩) := by
  rw [List.map_map]
  rfl

end Token

namespace Postfix

def Pending.unplaced : Pending → Pending
  | opening d _ => opening d 0
  | operator o => operator o

theorem toOption_bind {ε α β : Type} (x : Except ε α) (f : α → Except ε β) :
    (x >>= f).toOption = x.toOption.bind fun a => (f a).toOption := by
  cases x <;> rfl

theorem toOption_eq_some_iff {ε α : Type} {x : Except ε α} {a : α} : x.toOption = some a ↔ x = .ok a := by
  cases x <;> simp [Except.toOption]

theorem release_unplaced (o : Operator) (stack : List Pending) :
    release o (stack.map .unplaced) = ((release o stack).1, (release o stack).2.map .unplaced) := by
  induction stack with
  | nil => rfl
  | cons p stack ih =>
    cases p with
    | opening d i => rfl
    | operator p =>
      rw [List.map_cons, Pending.unplaced, release, release, ih]
      split <;> rfl

theorem close_unplaced (d : Delimiter) (i : Nat) (previous : Option Token.Kind) (stack : List Pending) :
    (close d 0 previous (stack.map .unplaced)).toOption =
      (close d i previous stack).toOption.map (Prod.map id (List.map .unplaced)) := by
  induction stack with
  | nil => rfl
  | cons p stack ih =>
    cases p with
    | opening o j =>
      rw [List.map_cons, Pending.unplaced, close, close]
      split_ifs <;> rfl
    | operator o =>
      rw [List.map_cons, Pending.unplaced, close, close, toOption_bind, toOption_bind, ih]
      cases (close d i previous stack).toOption <;> rfl

theorem drain_unplaced (stack : List Pending) : (drain (stack.map .unplaced)).toOption = (drain stack).toOption := by
  induction stack with
  | nil => rfl
  | cons p stack ih =>
    cases p with
    | opening d i => rfl
    | operator o => rw [List.map_cons, Pending.unplaced, drain, drain, toOption_bind, toOption_bind, ih]

/-- Positions are there to be reported, and decide nothing. -/
theorem order_unplaced (previous : Option Token.Kind) (stack : List Pending) (tokens : List Token) :
    (order previous (stack.map .unplaced) (tokens.map .unplaced)).toOption = (order previous stack tokens).toOption := by
  induction tokens generalizing previous stack with
  | nil => exact drain_unplaced stack
  | cons t rest ih =>
    obtain ⟨kind, i⟩ := t
    rw [List.map_cons, order, order]
    cases kind with
    | operand v =>
      simp only [Token.unplaced, toOption_bind, ih]
    | opening d => exact ih (some (.opening d)) (.opening d i :: stack)
    | closing d =>
      simp only [Token.unplaced, toOption_bind, close_unplaced d i]
      cases (close d i previous stack).toOption with
      | none => rfl
      | some r => simp [ih]
    | operator o =>
      have hrest := ih (some (.operator o)) (.operator o :: (release o stack).2)
      rw [List.map_cons, Pending.unplaced] at hrest
      simp only [Token.unplaced, release_unplaced, toOption_bind, hrest]

theorem order_congr {tokens tokens' : List Token} (h : tokens.map Token.kind = tokens'.map Token.kind) :
    (order none [] tokens).toOption = (order none [] tokens').toOption := by
  rw [← order_unplaced none [] tokens, ← order_unplaced none [] tokens', Token.map_unplaced, Token.map_unplaced, h]

end Postfix

namespace Token

variable {pattern : String} {tokens : List Token}

def explicitPattern (tokens : List Token) : String := String.ofList ((explicit tokens).flatMap (·.kind.text))

theorem settled_explicit (tokens : List Token) : Settled false ((explicit tokens).map kind) := by
  rw [explicit, insertConcatenation_eq]
  exact settled_joinFrom false _

theorem Settled.explicit_eq (h : Settled false (tokens.map kind)) :
    expandClasses false false tokens = tokens ∧ insertConcatenation tokens = tokens ∧ explicit tokens = tokens := by
  have hexpand : expandClasses false false tokens = tokens := h.expandClasses_eq id false
  have hinsert : insertConcatenation tokens = tokens := (insertConcatenation_eq tokens).trans h.joinFrom_eq
  refine ⟨hexpand, hinsert, ?_⟩
  rw [explicit, hexpand, hinsert]

theorem legible_of_mem_explicit {i : Nat} {cs : List Char} {k : Kind} (hk : k ∈ (explicit (split i cs)).map kind) :
    k.Legible := by
  obtain ⟨t, ht, rfl⟩ := List.mem_map.mp hk
  rcases mem_explicit ht with ht | ⟨j, hj⟩
  · exact legible_of_mem_split ht
  · rw [hj]
    cases j with
    | concat => exact .inr ⟨'_', rfl⟩
    | alternate => exact .inr ⟨'|', rfl⟩

/-- What is written out is cut into the kinds that it was written from. -/
theorem kind_split_explicitPattern (h : ofPattern? pattern = .ok tokens) :
    (split 0 (explicitPattern tokens).toList).map kind = (explicit tokens).map kind := by
  obtain ⟨rfl, -⟩ := ofPattern?_eq_ok_iff.mp h
  have hkinds := Grammar.kinds_flatMap_text (settled_explicit (split 0 pattern.toList)) fun _ => legible_of_mem_explicit
  rw [List.flatMap_map] at hkinds
  rw [explicitPattern, String.toList_ofList]
  exact hkinds

theorem AllUsable.of_kinds {tokens' : List Token} (h : AllUsable tokens) (hkinds : tokens'.map kind = tokens.map kind) :
    AllUsable tokens' := by
  intro t ht v hv
  have hmem : t.kind ∈ tokens.map kind := hkinds ▸ List.mem_map_of_mem ht
  obtain ⟨u, hu, hkind⟩ := List.mem_map.mp hmem
  exact h u hu v (hkind.trans hv)

/-- Written out, a pattern is a normal form: it is cut into the same kinds as were written, no pass adds to them, it is
written out as itself, and its postfix form is that of the pattern. -/
structure ReadsAgain (pattern : String) (tokens again : List Token) : Prop where
  read : ofPattern? (explicitPattern tokens) = .ok again
  kinds : again.map kind = (explicit tokens).map kind
  expanded : expandClasses false false again = again
  joined : insertConcatenation again = again
  written : explicitPattern again = explicitPattern tokens
  order : ∀ items, Postfix.ofPattern? pattern = .ok items ↔ Postfix.ofPattern? (explicitPattern tokens) = .ok items

theorem ofPattern?_explicitPattern (h : ofPattern? pattern = .ok tokens) : ∃ again, ReadsAgain pattern tokens again := by
  have hkinds := kind_split_explicitPattern h
  obtain ⟨rfl, husable⟩ := ofPattern?_eq_ok_iff.mp h
  have hagain : AllUsable (split 0 (explicitPattern (split 0 pattern.toList)).toList) := husable.explicit.of_kinds hkinds
  have hsettled := settled_explicit (split 0 pattern.toList)
  rw [← hkinds] at hsettled
  obtain ⟨hexpand, hinsert, hexplicit⟩ := hsettled.explicit_eq
  refine ⟨_, ofPattern?_eq_ok_iff.mpr ⟨rfl, hagain⟩, hkinds, hexpand, hinsert, ?_, ?_⟩
  · rw [explicitPattern, hexplicit, flatMap_text_split, String.ofList_toList]
  · intro items
    have horder := Postfix.order_congr hkinds
    rw [Postfix.ofPattern?_eq_ok_iff, Postfix.ofPattern?_eq_ok_iff, hexplicit, ← Postfix.toOption_eq_some_iff,
      ← Postfix.toOption_eq_some_iff, horder, and_iff_right husable, and_iff_right hagain]

theorem ofPattern?_explicitPattern_of_class_and_group : ∃ tokens, ofPattern? "-[a-cé]x?(b-)" = .ok tokens ∧
    explicitPattern tokens = "-_[a-c|é]_x?_(b_-)" ∧ ∃ again, ReadsAgain "-[a-cé]x?(b-)" tokens again := by
  have htokens : ofPattern? "-[a-cé]x?(b-)" = .ok (split 0 "-[a-cé]x?(b-)".toList) := rfl
  exact ⟨_, htokens, rfl, ofPattern?_explicitPattern htokens⟩

end Token

end PatternAutomata
