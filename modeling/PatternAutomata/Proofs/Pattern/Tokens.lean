import PatternAutomata.Pattern.Token

namespace PatternAutomata

namespace Token

def Kind.single (c : Char) : Kind := (symbol? c).getD (.operand (.char c))

/-- Cuts a text whose first character has index `position`: `x-y` between two endpoints is a range, any other character
is a token of its own. -/
def split (position : Nat) : List Char → List Token
  | c :: hyphen :: d :: after =>
    if hyphen == '-' && isEndpoint c && isEndpoint d then
      ⟨.operand (.range c d), position⟩ :: split (position + 3) after
    else ⟨.single c, position⟩ :: split (position + 1) (hyphen :: d :: after)
  | c :: rest => ⟨.single c, position⟩ :: split (position + 1) rest
  | [] => []

theorem Kind.text_eq_of_symbol? {c : Char} {k : Kind} (h : symbol? c = some k) : k.text = [c] := by
  unfold symbol? at h
  split at h <;> cases h <;> rfl

theorem Kind.text_single (c : Char) : (Kind.single c).text = [c] := by
  rw [single]
  cases h : symbol? c with
  | some k => exact text_eq_of_symbol? h
  | none => rfl

/-- Whether a text begins with the rest of a range whose first character is `c`. -/
def rangeAfter (c : Char) : List Char → Bool
  | hyphen :: d :: _ => hyphen == '-' && isEndpoint c && isEndpoint d
  | _ => false

theorem rangeAfter_cons_cons {c hyphen d : Char} {after : List Char} :
    rangeAfter c (hyphen :: d :: after) = true ↔ hyphen = '-' ∧ isEndpoint c = true ∧ isEndpoint d = true := by
  rw [rangeAfter, Bool.and_eq_true, Bool.and_eq_true, beq_iff_eq, and_assoc]

theorem split_single (i : Nat) {c : Char} {rest : List Char} (h : rangeAfter c rest = false) :
    split i (c :: rest) = ⟨.single c, i⟩ :: split (i + 1) rest := by
  match rest with
  | [] => rfl
  | [_] => rfl
  | hyphen :: d :: after =>
    have hnot : ¬ (hyphen == '-' && isEndpoint c && isEndpoint d) = true := by
      rw [Bool.not_eq_true]
      exact h
    rw [split, if_neg hnot]

theorem split_range (i : Nat) {c d : Char} {after : List Char} (h : rangeAfter c ('-' :: d :: after) = true) :
    split i (c :: '-' :: d :: after) = ⟨.operand (.range c d), i⟩ :: split (i + 3) after := by
  have hrange : ('-' == '-' && isEndpoint c && isEndpoint d) = true := h
  rw [split, if_pos hrange]

/-- A text is empty, begins with a range or begins with a token of one character, and what is left is a text again. -/
@[elab_as_elim]
theorem split_induction {P : List Char → Prop} (nil : P [])
    (range : ∀ c d after, rangeAfter c ('-' :: d :: after) = true → P after → P (c :: '-' :: d :: after))
    (single : ∀ c rest, rangeAfter c rest = false → P rest → P (c :: rest)) (cs : List Char) : P cs := by
  induction hlen : cs.length using Nat.strongRecOn generalizing cs with
  | _ n ih =>
    match cs with
    | [] => exact nil
    | c :: rest =>
      cases h : rangeAfter c rest with
      | false => exact single c rest h (ih rest.length (by rw [← hlen]; simp) rest rfl)
      | true =>
        match rest with
        | hyphen :: d :: after =>
          obtain rfl := (rangeAfter_cons_cons.mp h).1
          exact range c d after h (ih after.length (by rw [← hlen]; simp; omega) after rfl)

theorem range?_cons (c : Char) (rest : List Char) : (range? (c :: rest)).isSome = rangeAfter c rest := by
  match rest with
  | [] | [_] => rfl
  | hyphen :: d :: _ =>
    rw [range?, rangeAfter]
    split <;> simp_all

theorem first?_range {c d : Char} {after : List Char} (h : rangeAfter c ('-' :: d :: after) = true) :
    first? (c :: '-' :: d :: after) = some (.operand (.range c d), 3) := by
  have hrange : ('-' == '-' && isEndpoint c && isEndpoint d) = true := h
  rw [first?, range?, if_pos hrange, Option.some_or]

theorem first?_single {c : Char} {rest : List Char} (h : rangeAfter c rest = false) :
    first? (c :: rest) = some (.single c, 1) := by
  have hnone : range? (c :: rest) = none := by
    rw [← Option.not_isSome_iff_eq_none, range?_cons, h]
    decide
  rw [first?, hnone, Option.none_or, symbol?, char?, Kind.single]
  cases Kind.symbol? c <;> rfl

/-- Whatever stands at the start of a text, a token can be read there; it takes the characters that it is written with. -/
theorem exists_first? (c : Char) (rest : List Char) :
    ∃ kind, first? (c :: rest) = some (kind, kind.text.length) ∧ kind.text <+: c :: rest := by
  cases h : rangeAfter c rest with
  | false =>
    refine ⟨.single c, ?_, ?_⟩
    · rw [Kind.text_single]
      exact first?_single h
    · rw [Kind.text_single]
      exact ⟨rest, rfl⟩
  | true =>
    match rest with
    | hyphen :: d :: after =>
      obtain rfl := (rangeAfter_cons_cons.mp h).1
      exact ⟨.operand (.range c d), first?_range h, ⟨after, rfl⟩⟩

/-- The characters that a token takes are passed over. -/
theorem read_append (i : Nat) (us vs : List Char) : read i us.length (us ++ vs) = read (i + us.length) 0 vs := by
  induction us generalizing i with
  | nil => rfl
  | cons u us ih =>
    have hstep : read i (us.length + 1) (u :: (us ++ vs)) = read (i + 1) us.length (us ++ vs) := rfl
    rw [List.length_cons, List.cons_append, hstep, ih, Nat.add_right_comm, Nat.add_assoc]

/-- One token is read, and then the rest from where it ends. -/
theorem read_cons (i : Nat) {c : Char} (us : List Char) {vs : List Char} {kind : Kind}
    (h : first? (c :: (us ++ vs)) = some (kind, us.length + 1)) :
    read i 0 (c :: (us ++ vs)) =
      match fault? ⟨kind, i⟩ with
      | some cause => .error cause
      | none => (read (i + (us.length + 1)) 0 vs).map (⟨kind, i⟩ :: ·) := by
  rw [read, h]
  have hrest := read_append (i + 1) us vs
  rw [Nat.add_right_comm, Nat.add_assoc] at hrest
  cases hfault : fault? ⟨kind, i⟩ with
  | some cause => simp only [hfault]
  | none =>
    simp only [hfault, Nat.add_sub_cancel, hrest]
    rfl

/-- Reading gives the tokens that a text is cut into, or the fault of the leftmost one that has a fault. -/
theorem read_eq (i : Nat) (cs : List Char) :
    read i 0 cs = ((split i cs).findSome? fault?).elim (.ok (split i cs)) Except.error := by
  -- One token in front: its own fault comes before all others, else those of the rest decide.
  have hcons {t : Token} {ts : List Token} {x : Except PatternError.Cause (List Token)}
      (hx : x = (ts.findSome? fault?).elim (.ok ts) Except.error) :
      (match t.fault? with | some cause => .error cause | none => x.map (t :: ·)) =
        ((t :: ts).findSome? fault?).elim (.ok (t :: ts)) Except.error := by
    rw [List.findSome?_cons, hx]
    cases t.fault? with
    | some cause => rfl
    | none => cases ts.findSome? fault? <;> rfl
  induction cs using split_induction generalizing i with
  | nil => rfl
  | range c d after h ih =>
    have hfirst : first? (c :: (['-', d] ++ after)) = some (.operand (.range c d), ['-', d].length + 1) := first?_range h
    have hread := read_cons i ['-', d] hfirst
    rw [split_range i h, ← hcons (ih (i + 3))]
    exact hread
  | single c rest h ih =>
    have hread := read_cons i [] (first?_single h)
    rw [split_single i h, ← hcons (ih (i + 1))]
    exact hread

theorem ofPattern?_eq (pattern : String) :
    ofPattern? pattern = ((split 0 pattern.toList).findSome? fault?).elim (.ok (split 0 pattern.toList)) Except.error :=
  read_eq 0 _

/-- The concatenation that is read before `t`, if an operand ends right there. -/
def seam (afterOperand : Bool) (t : Token) : List Token :=
  if afterOperand && t.kind.beginsOperand then [⟨.operator (.junction .concat), t.position⟩] else []

def joinFrom (afterOperand : Bool) : List Token → List Token
  | [] => []
  | t :: rest => seam afterOperand t ++ t :: joinFrom t.kind.endsOperand rest

def endsAfter (afterOperand : Bool) (tokens : List Token) : Bool :=
  tokens.foldl (fun _ t => t.kind.endsOperand) afterOperand

theorem insertConcatenation_eq (tokens : List Token) : insertConcatenation tokens = joinFrom false tokens := by
  induction tokens with
  | nil => rfl
  | cons t rest ih =>
    cases rest with
    | nil => simp [insertConcatenation, joinFrom, seam]
    | cons u rest =>
      rw [insertConcatenation, ih]
      by_cases h : t.kind.endsOperand && u.kind.beginsOperand <;> simp [joinFrom, seam, h]

theorem seam_of_beginsOperand_eq_false {t : Token} (h : t.kind.beginsOperand = false) (b : Bool) : seam b t = [] := by
  simp [seam, h]

@[simp] theorem seam_false (t : Token) : seam false t = [] := rfl

theorem joinFrom_append (b : Bool) (xs ys : List Token) :
    joinFrom b (xs ++ ys) = joinFrom b xs ++ joinFrom (endsAfter b xs) ys := by
  induction xs generalizing b with
  | nil => rfl
  | cons t rest ih =>
    rw [List.cons_append, joinFrom, joinFrom, ih]
    simp [endsAfter]

theorem endsAfter_concat (b : Bool) (xs : List Token) (t : Token) : endsAfter b (xs ++ [t]) = t.kind.endsOperand := by
  simp [endsAfter]

/-- No `_` is read before a token that begins no operand. -/
theorem joinFrom_concat {t : Token} (h : t.kind.beginsOperand = false) (b : Bool) (xs : List Token) :
    joinFrom b (xs ++ [t]) = joinFrom b xs ++ [t] := by
  rw [joinFrom_append]
  simp [joinFrom, seam_of_beginsOperand_eq_false h]

/-- An explicit junction is the only thing read between its operands. -/
theorem joinFrom_junction {t : Token} {j : Junction} (h : t.kind = .operator (.junction j)) (b : Bool)
    (xs ys : List Token) : joinFrom b (xs ++ t :: ys) = joinFrom b xs ++ t :: joinFrom false ys := by
  rw [joinFrom_append, joinFrom, seam_of_beginsOperand_eq_false (by rw [h]; rfl), h]
  rfl

/-- One `_` is read between neighbouring operands. -/
theorem joinFrom_juxtaposition {xs ys : List Token} {t : Token} (hx : endsAfter false xs = true)
    (ht : t.kind.beginsOperand = true) :
    joinFrom false (xs ++ t :: ys) =
      joinFrom false xs ++ ⟨.operator (.junction .concat), t.position⟩ :: joinFrom false (t :: ys) := by
  rw [joinFrom_append, hx]
  simp [joinFrom, seam, ht]

end Token

end PatternAutomata
