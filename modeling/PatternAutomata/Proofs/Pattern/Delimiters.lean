import PatternAutomata.Proofs.Pattern.Tokens
import PatternAutomata.Proofs.Pattern.Placement
import PatternAutomata.Proofs.Pattern.Splitting

namespace PatternAutomata

namespace Token

def Kind.isDelimiter : Kind → Bool
  | opening _ | closing _ => true
  | operand _ | operator _ => false

/-- The delimiters that a token leaves open of those that were, innermost first, each with its position. -/
def shift (opened : List (Delimiter × Nat)) (t : Token) : List (Delimiter × Nat) :=
  match t.kind with
  | .opening d => (d, t.position) :: opened
  | .closing _ => opened.tail
  | .operand _ | .operator _ => opened

def openAfter (tokens : List Token) : List (Delimiter × Nat) := tokens.foldl shift []

/-- Why a closing delimiter may not come next: nothing is open, or the innermost open delimiter is of the other kind, or
it is the token right before. -/
def offence? (opened : List (Delimiter × Nat)) (previous : Option Token) (t : Token) : Option PatternError.Cause :=
  match t.kind, opened with
  | .closing d, [] => some (.unmatchedClose d t.position)
  | .closing d, (o, i) :: _ =>
    if o ≠ d then some (.mismatchedDelimiter o i d t.position)
    else if previous = some ⟨.opening o, i⟩ then some (.emptyGroup o i)
    else none
  | _, _ => none

def Sound (tokens : List Token) : Prop :=
  ∀ before t after, tokens = before ++ t :: after → offence? (openAfter before) before.getLast? t = none

/-- What is wrong with the delimiters: the first closing one that offends or, if none does, the innermost one that is
open at the end. -/
inductive Flaw (tokens : List Token) : PatternError.Cause → Prop
  | offence {before after : List Token} {t : Token} {cause : PatternError.Cause} (h : tokens = before ++ t :: after)
      (hbefore : Sound before) (ht : offence? (openAfter before) before.getLast? t = some cause) : Flaw tokens cause
  | unclosed {d : Delimiter} {i : Nat} {outer : List (Delimiter × Nat)} (h : Sound tokens)
      (hopen : openAfter tokens = (d, i) :: outer) : Flaw tokens (.unclosedGroup d i)

def firstFlaw? (opened : List (Delimiter × Nat)) (previous : Option Token) : List Token → Option PatternError.Cause
  | [] => opened.head?.map fun o => .unclosedGroup o.1 o.2
  | t :: rest => (offence? opened previous t).or (firstFlaw? (shift opened t) (some t) rest)

theorem shift_of_isDelimiter_eq_false {t : Token} (h : t.kind.isDelimiter = false) (opened : List (Delimiter × Nat)) :
    shift opened t = opened := by
  unfold shift
  cases hk : t.kind <;> simp_all [Kind.isDelimiter]

/-- Only closing delimiters offend. -/
theorem offence?_eq_none {t : Token} (h : ∀ d, t.kind ≠ .closing d) (opened : List (Delimiter × Nat))
    (previous : Option Token) : offence? opened previous t = none := by
  unfold offence?
  cases hk : t.kind with
  | closing d => exact absurd hk (h d)
  | _ => rfl

theorem ne_closing_of_isDelimiter_eq_false {t : Token} (h : t.kind.isDelimiter = false) (d : Delimiter) :
    t.kind ≠ .closing d := by
  intro hk
  rw [hk] at h
  cases h

theorem openAfter_concat (tokens : List Token) (t : Token) :
    openAfter (tokens ++ [t]) = shift (openAfter tokens) t := by
  rw [openAfter, List.foldl_append]
  rfl

theorem sound_nil : Sound [] := by
  intro before t after h
  simp at h

theorem Sound.of_concat {tokens : List Token} {t : Token} (h : Sound (tokens ++ [t])) : Sound tokens := by
  rintro before u after rfl
  exact h before u (after ++ [t]) (by simp)

theorem Sound.concat {tokens : List Token} (h : Sound tokens) {t : Token}
    (ht : offence? (openAfter tokens) tokens.getLast? t = none) : Sound (tokens ++ [t]) := by
  intro before u after heq
  rcases List.eq_nil_or_concat after with rfl | ⟨after, v, rfl⟩
  · obtain ⟨rfl, hu⟩ := List.append_inj' heq rfl
    obtain rfl := List.singleton_inj.mp hu
    exact ht
  · rw [List.concat_eq_append, ← List.cons_append, ← List.append_assoc] at heq
    exact h before u after (List.append_inj' heq rfl).1

/-- The first flaw is found by going through the tokens once. -/
theorem firstFlaw?_eq {before : List Token} (h : Sound before) (rest : List Token) :
    (∀ cause, firstFlaw? (openAfter before) before.getLast? rest = some cause → Flaw (before ++ rest) cause) ∧
      (firstFlaw? (openAfter before) before.getLast? rest = none →
        Sound (before ++ rest) ∧ openAfter (before ++ rest) = []) := by
  -- The tokens gone through so far are sound, so what is found next is the first flaw of all.
  induction rest generalizing before with
  | nil =>
    rw [List.append_nil, firstFlaw?]
    cases hopen : openAfter before with
    | nil => simp [h]
    | cons o outer =>
      refine ⟨?_, by simp⟩
      rintro cause ⟨⟩
      exact .unclosed h hopen
  | cons t rest ih =>
    rw [firstFlaw?]
    cases ht : offence? (openAfter before) before.getLast? t with
    | some cause =>
      refine ⟨?_, by simp⟩
      rintro _ ⟨⟩
      exact .offence rfl h ht
    | none =>
      have hrest := ih (h.concat ht)
      rw [openAfter_concat, List.getLast?_concat, List.append_assoc] at hrest
      exact hrest

theorem firstFlaw?_append {before : List Token} (h : Sound before) (rest : List Token) :
    firstFlaw? [] none (before ++ rest) = firstFlaw? (openAfter before) before.getLast? rest := by
  induction before using List.reverseRecOn generalizing rest with
  | nil => rfl
  | append_singleton before t ih =>
    have ht : offence? (openAfter before) before.getLast? t = none := h before t [] rfl
    rw [List.append_assoc, ih h.of_concat, List.singleton_append, firstFlaw?, ht, Option.none_or, openAfter_concat,
      List.getLast?_concat]

theorem firstFlaw?_eq_some_iff {tokens : List Token} {cause : PatternError.Cause} :
    firstFlaw? [] none tokens = some cause ↔ Flaw tokens cause := by
  constructor
  · exact (firstFlaw?_eq sound_nil tokens).1 cause
  · rintro (⟨rfl, hbefore, ht⟩ | ⟨hsound, hopen⟩)
    · rw [firstFlaw?_append hbefore, firstFlaw?, ht, Option.some_or]
    · have hrun := firstFlaw?_append hsound []
      rw [List.append_nil] at hrun
      rw [hrun, firstFlaw?, hopen]
      rfl

/-- Delimiters properly nested, each closed by one of its own kind. -/
inductive Nested : List Token → Prop
  | nil : Nested []
  | plain {t : Token} (h : t.kind.isDelimiter = false) : Nested [t]
  | group {d : Delimiter} {o c : Token} {ts : List Token} (ho : o.kind = .opening d) (hc : c.kind = .closing d)
      (h : Nested ts) : Nested (o :: ts ++ [c])
  | append {ts us : List Token} (h : Nested ts) (h' : Nested us) : Nested (ts ++ us)

/-- Some opening delimiter has its closing one right after it. -/
def Hollow (tokens : List Token) : Prop :=
  ∃ before d o c after, tokens = before ++ o :: c :: after ∧ o.kind = .opening d ∧ c.kind = .closing d

/-- An empty group stays empty whatever stands around. -/
theorem Hollow.around {tokens : List Token} (h : Hollow tokens) (before after : List Token) :
    Hollow (before ++ tokens ++ after) := by
  obtain ⟨before', d, o, c, after', rfl, ho, hc⟩ := h
  exact ⟨before ++ before', d, o, c, after' ++ after, by simp, ho, hc⟩

/-- Nested stretches, with an open delimiter between each and the next. -/
inductive Leaves : List (Delimiter × Nat) → List Token → Prop
  | nested {ts : List Token} (h : Nested ts) : Leaves [] ts
  | opening {opened : List (Delimiter × Nat)} {ts us : List Token} {d : Delimiter} {i : Nat} (h : Leaves opened ts)
      (h' : Nested us) : Leaves ((d, i) :: opened) (ts ++ ⟨.opening d, i⟩ :: us)

theorem Leaves.append {opened : List (Delimiter × Nat)} {ts us : List Token} (h : Leaves opened ts) (hu : Nested us) :
    Leaves opened (ts ++ us) := by
  cases h with
  | nested h => exact .nested (h.append hu)
  | opening h h' =>
    rw [List.append_assoc, List.cons_append]
    exact .opening h (h'.append hu)

theorem Sound.leaves {tokens : List Token} (h : Sound tokens) : Leaves (openAfter tokens) tokens := by
  induction tokens using List.reverseRecOn with
  | nil => exact .nested .nil
  | append_singleton before t ih =>
    have hleaves := ih h.of_concat
    have ht : offence? (openAfter before) before.getLast? t = none := h before t [] rfl
    rw [openAfter_concat]
    obtain ⟨kind, i⟩ := t
    cases kind with
    | operand v => exact hleaves.append (.plain rfl)
    | operator o => exact hleaves.append (.plain rfl)
    | opening d => exact .opening hleaves .nil
    | closing d =>
      cases hopen : openAfter before with
      | nil =>
        rw [hopen] at ht
        cases ht
      | cons o outer =>
        obtain ⟨d', j⟩ := o
        rw [hopen] at ht hleaves
        obtain _ | ⟨hts, hus⟩ := hleaves
        -- The delimiter closes the innermost stretch, which becomes part of the one around it.
        obtain rfl : d' = d := by
          by_contra hne
          simp [offence?, hne] at ht
        rw [List.append_assoc, List.cons_append]
        exact hts.append (.group rfl rfl hus)

theorem Sound.not_hollow {tokens : List Token} (h : Sound tokens) : ¬ Hollow tokens := by
  rintro ⟨before, d, ⟨_, i⟩, c, after, rfl, rfl, hc⟩
  have hsplit : before ++ ⟨.opening d, i⟩ :: c :: after = (before ++ [⟨.opening d, i⟩]) ++ c :: after := by simp
  have hnone := h _ c after hsplit
  rw [openAfter_concat, List.getLast?_concat] at hnone
  simp [offence?, shift, hc] at hnone

theorem Nested.getLast?_ne {tokens : List Token} (h : Nested tokens) (d : Delimiter) (i : Nat) :
    tokens.getLast? ≠ some ⟨.opening d, i⟩ := by
  induction h with
  | nil => simp
  | plain h =>
    rw [List.getLast?_singleton]
    rintro ⟨⟩
    cases h
  | group _ hc _ _ =>
    rw [List.getLast?_concat]
    rintro ⟨⟩
    cases hc
  | @append ts us _ _ ih ih' =>
    rw [List.getLast?_append]
    cases hu : us.getLast? with
    | none => exact ih
    | some t =>
      rw [hu] at ih'
      exact ih'

/-- The delimiter that a group opens with is not the last token before its end, unless the group is empty. -/
theorem Nested.getLast?_or_ne {tokens : List Token} (h : Nested tokens) (hne : tokens ≠ []) (d : Delimiter) (i : Nat) :
    tokens.getLast?.or (some ⟨.opening d, i⟩) ≠ some ⟨.opening d, i⟩ := by
  have hlast := h.getLast?_ne d i
  cases ht : tokens.getLast? with
  | none => exact absurd (List.getLast?_eq_none_iff.mp ht) hne
  | some t =>
    rw [ht] at hlast
    exact hlast

/-- Nested tokens without an empty group are passed over. -/
theorem Nested.firstFlaw?_append {tokens : List Token} (h : Nested tokens) (hhollow : ¬ Hollow tokens)
    (opened : List (Delimiter × Nat)) (previous : Option Token) (rest : List Token) :
    firstFlaw? opened previous (tokens ++ rest) = firstFlaw? opened (tokens.getLast?.or previous) rest := by
  induction h generalizing opened previous rest with
  | nil => rfl
  | plain h =>
    rw [List.singleton_append, firstFlaw?, offence?_eq_none (ne_closing_of_isDelimiter_eq_false h),
      shift_of_isDelimiter_eq_false h]
    rfl
  | @group d o c ts ho hc h ih =>
    obtain ⟨_, i⟩ := o
    obtain rfl : _ = Kind.opening d := ho
    have hts : ¬ Hollow ts := fun hinner => hhollow (hinner.around [⟨.opening d, i⟩] [c])
    have hne : ts ≠ [] := by
      rintro rfl
      exact hhollow ⟨[], d, _, c, [], rfl, rfl, hc⟩
    -- The closing delimiter is compared with the token right before it, which is not its own opening one.
    have hlast := h.getLast?_or_ne hne d i
    have hcloses : offence? ((d, i) :: opened) (ts.getLast?.or (some ⟨.opening d, i⟩)) c = none := by
      generalize ts.getLast?.or (some ⟨.opening d, i⟩) = last at hlast
      simp [offence?, hc, hlast]
    have hshift : shift ((d, i) :: opened) c = opened := by simp [shift, hc]
    calc
      firstFlaw? opened previous (⟨.opening d, i⟩ :: ts ++ [c] ++ rest)
      _ = firstFlaw? ((d, i) :: opened) (some ⟨.opening d, i⟩) (ts ++ c :: rest) := by
        simp [firstFlaw?, offence?, shift]
      _ = firstFlaw? ((d, i) :: opened) (ts.getLast?.or (some ⟨.opening d, i⟩)) (c :: rest) := ih hts ..
      _ = firstFlaw? opened (some c) rest := by rw [firstFlaw?, hcloses, hshift, Option.none_or]
      _ = _ := by rw [List.getLast?_concat, Option.some_or]
  | @append ts us _ _ ih ih' =>
    have hts : ¬ Hollow ts := fun hleft => hhollow (hleft.around [] us)
    have hus : ¬ Hollow us := fun hright => hhollow (by simpa using hright.around ts [])
    rw [List.append_assoc, ih hts, ih' hus, List.getLast?_append, Option.or_assoc]

/-- Nothing is wrong with the delimiters exactly if they are nested and no group is empty. -/
theorem firstFlaw?_eq_none_iff {tokens : List Token} :
    firstFlaw? [] none tokens = none ↔ Nested tokens ∧ ¬ Hollow tokens := by
  constructor
  · intro h
    obtain ⟨hsound, hopen⟩ := (firstFlaw?_eq sound_nil tokens).2 h
    rw [List.nil_append] at hsound hopen
    have hleaves := hsound.leaves
    rw [hopen] at hleaves
    obtain ⟨hnested⟩ | _ := hleaves
    exact ⟨hnested, hsound.not_hollow⟩
  · rintro ⟨hnested, hhollow⟩
    have hrun := hnested.firstFlaw?_append hhollow [] none []
    rw [List.append_nil] at hrun
    exact hrun

end Token

namespace Postfix

open Token (firstFlaw? offence? shift joinFrom seam expandClasses)

def failure? {ε α : Type} : Except ε α → Option ε
  | .ok _ => none
  | .error e => some e

theorem failure?_bind_pure {ε α β : Type} (x : Except ε α) (f : α → β) :
    failure? (x >>= fun a => pure (f a)) = failure? x := by
  cases x <;> rfl

theorem failure?_drain (stack : List Pending) :
    failure? (drain stack) = (held stack).head?.map fun o => .unclosedGroup o.1 o.2 := by
  induction stack with
  | nil => rfl
  | cons p stack ih =>
    cases p with
    | opening d i => rfl
    | operator o => rw [drain, failure?_bind_pure, ih, held]

def Fresh (previous : Option Token) (opened : List (Delimiter × Nat)) : Prop :=
  ∀ d i, previous = some ⟨.opening d, i⟩ → opened.head? = some (d, i)

/-- A closing delimiter fails on the stack as it offends among the delimiters. -/
theorem failure?_close (d : Delimiter) (i : Nat) {previous : Option Token} {stack : List Pending}
    (hfresh : Fresh previous (held stack)) :
    failure? (close d i (previous.map Token.kind) stack) = offence? (held stack) previous ⟨.closing d, i⟩ := by
  induction stack with
  | nil => rfl
  | cons p stack ih =>
    cases p with
    | operator o =>
      rw [close, failure?_bind_pure]
      exact ih hfresh
    | opening o j =>
      -- The stack knows the token before by its kind only, but a delimiter of this kind is the one on top.
      have hprevious : previous.map Token.kind = some (.opening o) ↔ previous = some ⟨.opening o, j⟩ := by
        constructor
        · intro h
          obtain ⟨⟨_, k⟩, rfl, rfl⟩ := Option.map_eq_some_iff.mp h
          have htop := hfresh o k rfl
          simp only [held, List.head?_cons, Option.some.injEq, Prod.mk.injEq, true_and] at htop
          rw [htop]
        · rintro rfl
          rfl
      rw [close]
      simp only [hprevious, offence?, held]
      split_ifs <;> rfl

theorem Fresh.of_token {t : Token} (h : ∀ d, t.kind ≠ .opening d) (opened : List (Delimiter × Nat)) :
    Fresh (some t) opened := by
  rintro d i ⟨⟩
  exact absurd rfl (h d)

/-- Ordering fails exactly where the delimiters have a flaw, and for that reason. -/
theorem failure?_order (tokens : List Token) {previous : Option Token} {stack : List Pending}
    (hfresh : Fresh previous (held stack)) :
    failure? (order (previous.map Token.kind) stack tokens) = firstFlaw? (held stack) previous tokens := by
  induction tokens generalizing previous stack with
  | nil => exact failure?_drain stack
  | cons t rest ih =>
    obtain ⟨kind, i⟩ := t
    rw [order, firstFlaw?]
    cases kind with
    | operand v =>
      have hplain : Fresh (some ⟨.operand v, i⟩) (held stack) := .of_token (by simp) _
      rw [failure?_bind_pure]
      exact ih hplain
    | opening d =>
      have hopened : Fresh (some ⟨.opening d, i⟩) (held (.opening d i :: stack)) := by
        rintro _ _ ⟨⟩
        rfl
      exact ih hopened
    | operator o =>
      have hplain : Fresh (some ⟨.operator o, i⟩) (held (.operator o :: (release o stack).2)) := .of_token (by simp) _
      have hrest := ih hplain
      rw [held, (release_facts rfl).2] at hrest
      simp only [failure?_bind_pure]
      exact hrest
    -- Here alone the two can disagree: the stack also holds operators, which closing passes over.
    | closing d =>
      rw [← failure?_close d i hfresh]
      dsimp only
      cases hc : close d i (previous.map Token.kind) stack with
      | error cause => rfl
      | ok r =>
        obtain ⟨released, stack'⟩ := r
        have hplain : Fresh (some ⟨.closing d, i⟩) (held stack') := .of_token (by simp) _
        obtain ⟨-, j, hheld⟩ := close_facts hc
        rw [hheld]
        exact (failure?_bind_pure _ _).trans (ih hplain)

end Postfix

namespace Token

/-- An operator in front of a token that closes nothing makes no difference. -/
theorem firstFlaw?_operator (opened : List (Delimiter × Nat)) (previous : Option Token) (o : Operator) (i : Nat)
    {t : Token} (ht : ∀ d, t.kind ≠ .closing d) (rest : List Token) :
    firstFlaw? opened previous (⟨.operator o, i⟩ :: t :: rest) = firstFlaw? opened previous (t :: rest) := by
  simp only [firstFlaw?, offence?_eq_none ht, Option.none_or]
  rfl

theorem firstFlaw?_expandClasses (inClass afterOperand : Bool) (opened : List (Delimiter × Nat))
    (previous : Option Token) (tokens : List Token) :
    firstFlaw? opened previous (expandClasses inClass afterOperand tokens) = firstFlaw? opened previous tokens := by
  induction tokens generalizing inClass afterOperand opened previous with
  | nil => rfl
  | cons t rest ih =>
    rw [expandClasses]
    split
    · rw [firstFlaw?, firstFlaw?, ih]
    · rw [firstFlaw?, firstFlaw?, ih]
    · next v hv =>
      have ht : ∀ d, t.kind ≠ .closing d := by simp [hv]
      split
      · rw [firstFlaw?_operator _ _ _ _ ht, firstFlaw?, firstFlaw?, ih]
      · rw [firstFlaw?, firstFlaw?, ih]
    · rw [firstFlaw?, firstFlaw?, ih]

theorem firstFlaw?_joinFrom (b : Bool) (opened : List (Delimiter × Nat)) (previous : Option Token)
    (tokens : List Token) : firstFlaw? opened previous (joinFrom b tokens) = firstFlaw? opened previous tokens := by
  induction tokens generalizing b opened previous with
  | nil => rfl
  | cons t rest ih =>
    rw [joinFrom, seam]
    split
    · next h =>
      have ht : ∀ d, t.kind ≠ .closing d := by
        intro d hk
        simp [hk, Kind.beginsOperand] at h
      rw [List.singleton_append, firstFlaw?_operator _ _ _ _ ht, firstFlaw?, firstFlaw?, ih]
    · rw [List.nil_append, firstFlaw?, firstFlaw?, ih]

theorem firstFlaw?_explicit (opened : List (Delimiter × Nat)) (previous : Option Token) (tokens : List Token) :
    firstFlaw? opened previous (explicit tokens) = firstFlaw? opened previous tokens := by
  rw [explicit, insertConcatenation_eq, firstFlaw?_joinFrom, firstFlaw?_expandClasses]

end Token

/-- The delimiters that a cause names, each with the index at which it says that it stands. -/
def PatternError.Cause.places : PatternError.Cause → List (Nat × Char)
  | .unmatchedClose d i => [(i, d.closer)]
  | .mismatchedDelimiter o i d j => [(i, o.opener), (j, d.closer)]
  | .emptyGroup d i | .unclosedGroup d i => [(i, d.opener)]
  | .unexpectedInput _ | .backwardRange .. | .reservedSymbol .. | .missingOperand _ | .danglingOperands _ |
    .emptyPattern => []

namespace Token

variable {tokens : List Token}

theorem mem_of_mem_openAfter {d : Delimiter} {i : Nat} (h : (d, i) ∈ openAfter tokens) : ⟨.opening d, i⟩ ∈ tokens := by
  induction tokens using List.reverseRecOn with
  | nil => cases h
  | append_singleton before t ih =>
    rw [openAfter_concat] at h
    obtain ⟨kind, j⟩ := t
    cases kind with
    | operand v => exact List.mem_append_left _ (ih h)
    | operator o => exact List.mem_append_left _ (ih h)
    | closing d => exact List.mem_append_left _ (ih (List.mem_of_mem_tail h))
    | opening o =>
      rcases List.mem_cons.mp h with heq | h
      · obtain ⟨rfl, rfl⟩ := Prod.mk.inj heq
        exact List.mem_append_right _ (List.mem_singleton_self _)
      · exact List.mem_append_left _ (ih h)

/-- A closing delimiter that offends names itself and the innermost open delimiter. -/
theorem exists_place_of_offence? {opened : List (Delimiter × Nat)} {previous : Option Token} {t : Token}
    {cause : PatternError.Cause} (h : offence? opened previous t = some cause) {place : Nat × Char}
    (hplace : place ∈ cause.places) :
    (t.position = place.1 ∧ t.kind.text = [place.2]) ∨ ∃ d i, (d, i) ∈ opened ∧ place = (i, d.opener) := by
  unfold offence? at h
  split at h
  · next d hd =>
    cases h
    obtain rfl := List.mem_singleton.mp hplace
    exact .inl ⟨rfl, by rw [hd]; rfl⟩
  · next d o i outer hd =>
    split_ifs at h
    · cases h
      rcases List.mem_cons.mp hplace with rfl | hplace
      · exact .inr ⟨o, i, List.mem_cons_self, rfl⟩
      · obtain rfl := List.mem_singleton.mp hplace
        exact .inl ⟨rfl, by rw [hd]; rfl⟩
    · cases h
      obtain rfl := List.mem_singleton.mp hplace
      exact .inr ⟨o, i, List.mem_cons_self, rfl⟩
  · cases h

/-- A flaw names delimiters among the tokens, at their positions. -/
theorem Flaw.exists_token {cause : PatternError.Cause} (h : Flaw tokens cause) {place : Nat × Char}
    (hplace : place ∈ cause.places) : ∃ t ∈ tokens, t.position = place.1 ∧ t.kind.text = [place.2] := by
  cases h with
  | @offence before after t cause h _ ht =>
    subst h
    rcases exists_place_of_offence? ht hplace with hplace | ⟨d, i, hmem, rfl⟩
    · exact ⟨t, by simp, hplace⟩
    · exact ⟨_, List.mem_append_left _ (mem_of_mem_openAfter hmem), rfl, rfl⟩
  | unclosed _ hopen =>
    obtain rfl := List.mem_singleton.mp hplace
    exact ⟨_, mem_of_mem_openAfter (by rw [hopen]; exact List.mem_cons_self), rfl, rfl⟩

end Token

namespace Postfix

variable {pattern : String} {tokens : List Token}

theorem failure?_eq_none_iff {ε α : Type} {x : Except ε α} : failure? x = none ↔ ∃ a, x = .ok a := by
  cases x <;> simp [failure?]

theorem failure?_eq_some_iff {ε α : Type} {x : Except ε α} {e : ε} : failure? x = some e ↔ x = .error e := by
  cases x <;> simp [failure?]

/-- The delimiters among the tokens of a pattern decide its ordering. -/
theorem failure?_order_explicit (tokens : List Token) :
    failure? (order none [] (Token.explicit tokens)) = Token.firstFlaw? [] none tokens := by
  have hstart : Fresh none (held []) := by rintro _ _ ⟨⟩
  have hrun := failure?_order (Token.explicit tokens) hstart
  rw [Token.firstFlaw?_explicit] at hrun
  exact hrun

theorem ofPattern?_of_tokens (h : Token.ofPattern? pattern = .ok tokens) :
    ofPattern? pattern = (order none [] (Token.explicit tokens)).mapError (⟨pattern, ·⟩) := by
  rw [ofPattern?, h]
  rfl

/-- A pattern has a postfix form exactly if its delimiters are nested and no group is empty. -/
theorem exists_ofPattern?_iff (h : Token.ofPattern? pattern = .ok tokens) :
    (∃ items, ofPattern? pattern = .ok items) ↔ Token.Nested tokens ∧ ¬ Token.Hollow tokens := by
  rw [← Token.firstFlaw?_eq_none_iff, ← failure?_order_explicit, failure?_eq_none_iff, ofPattern?_of_tokens h]
  cases order none [] (Token.explicit tokens) <;> simp [Except.mapError]

/-- What is reported is the first flaw. -/
theorem ofPattern?_eq_error_iff (h : Token.ofPattern? pattern = .ok tokens) {e : PatternError} :
    ofPattern? pattern = .error e ↔ e.pattern = pattern ∧ Token.Flaw tokens e.cause := by
  obtain ⟨p, cause⟩ := e
  rw [← Token.firstFlaw?_eq_some_iff, ← failure?_order_explicit, failure?_eq_some_iff, ofPattern?_of_tokens h]
  cases order none [] (Token.explicit tokens) with
  | ok items => simp [Except.mapError]
  | error c => simp [Except.mapError, eq_comm]

/-- The delimiters of a pattern decide whether it has a postfix form: it has one exactly if they are nested, with no
group empty, and otherwise the first flaw is reported, with the indices at which the delimiters stand. -/
structure DecidedByDelimiters (pattern : String) (tokens : List Token) : Prop where
  ok_iff : (∃ items, ofPattern? pattern = .ok items) ↔ Token.Nested tokens ∧ ¬ Token.Hollow tokens
  error_iff : ∀ e, ofPattern? pattern = .error e ↔ e.pattern = pattern ∧ Token.Flaw tokens e.cause
  places : ∀ e, ofPattern? pattern = .error e → ∀ place ∈ e.cause.places, pattern.toList[place.1]? = some place.2

theorem ofPattern?_delimiters (h : Token.ofPattern? pattern = .ok tokens) : DecidedByDelimiters pattern tokens := by
  refine ⟨exists_ofPattern?_iff h, fun e => ofPattern?_eq_error_iff h, ?_⟩
  intro e he place hplace
  obtain ⟨-, hflaw⟩ := (ofPattern?_eq_error_iff h).mp he
  obtain ⟨t, ht, hposition, htext⟩ := hflaw.exists_token hplace
  obtain ⟨rfl, -⟩ := Token.ofPattern?_eq_ok_iff.mp h
  rw [← hposition]
  exact Token.getElem?_position ht htext

theorem ofPattern?_delimiters_of_crossed_groups : ∃ tokens, Token.ofPattern? "é([a-c)]" = .ok tokens ∧
    DecidedByDelimiters "é([a-c)]" tokens ∧
    ofPattern? "é([a-c)]" = .error ⟨"é([a-c)]", .mismatchedDelimiter .bracket 2 .paren 6⟩ := by
  have htokens : Token.ofPattern? "é([a-c)]" = .ok (Token.split 0 "é([a-c)]".toList) := rfl
  exact ⟨_, htokens, ofPattern?_delimiters htokens, rfl⟩

end Postfix

end PatternAutomata
