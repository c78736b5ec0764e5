import PatternAutomata.Proofs.Pattern.Grammar
import PatternAutomata.Regex.Reader

namespace PatternAutomata

namespace Regex

def language : Regex → Language Char
  | empty => 1
  | literal c => letters (· = c)
  | range first last => letters fun c => first ≤ c ∧ c ≤ last
  | group r => r.language
  | seq r s => Junction.concat.language r.language s.language
  | alt r s => Junction.alternate.language r.language s.language
  | star r => Repetition.star.language r.language
  | plus r => Repetition.plus.language r.language
  | optional r => Repetition.optional.language r.language

def repeated : Repetition → Regex → Regex
  | .star => star
  | .plus => plus
  | .optional => optional

theorem language_repeated (r : Repetition) (s : Regex) : (s.repeated r).language = r.language s.language := by
  cases r <;> rfl

def classMetacharacters : List Char := ['[', ']', '^', '-', '&', '~']

/-- The text writes one character, with a backslash if that is among the reserved ones. -/
inductive WritesChar (reserved : List Char) : List Char → Char → Prop
  | plain {c : Char} (hreserved : c ∉ reserved) (hbackslash : c ≠ '\\') : WritesChar reserved [c] c
  | escaped (c : Char) : WritesChar reserved ['\\', c] c

/-- What a text writes, from the loosest category to the tightest. -/
inductive Writes : Grammar.Category → List Char → Regex → Prop
  | literal {t : List Char} {c : Char} : WritesChar metacharacters t c → Writes .atom t (.literal c)
  | range {t u : List Char} {first last : Char} :
    WritesChar classMetacharacters t first → WritesChar classMetacharacters u last → first ≤ last →
      Writes .atom ('[' :: t ++ '-' :: u ++ [']']) (.range first last)
  | group {t : List Char} {r : Regex} :
    Writes .alternatives t r → Writes .atom ('(' :: '?' :: ':' :: t ++ [')']) (.group r)
  | atom {t : List Char} {r : Regex} : Writes .atom t r → Writes .factor t r
  | repetition (q : Repetition) {t : List Char} {r : Regex} :
    Writes .atom t r → Writes .factor (t ++ [(Operator.repetition q).symbol]) (r.repeated q)
  | nothing : Writes .sequence [] .empty
  | factor {t : List Char} {r : Regex} : Writes .factor t r → Writes .sequence t r
  | concatenation {t u : List Char} {r s : Regex} :
    Writes .factor t r → Writes .sequence u s → u ≠ [] → Writes .sequence (t ++ u) (.seq r s)
  | sequence {t : List Char} {r : Regex} : Writes .sequence t r → Writes .alternatives t r
  | alternation {t u : List Char} {r s : Regex} :
    Writes .sequence t r → Writes .alternatives u s → Writes .alternatives (t ++ '|' :: u) (.alt r s)

namespace Reading

def Reads (s : Reading) (t : List Char) (s' : Reading) : Prop := t.foldlM step s = some s'

theorem Reads.nil (s : Reading) : Reads s [] s := rfl

theorem Reads.append {s s' s'' : Reading} {t u : List Char} (h : Reads s t s') (h' : Reads s' u s'') :
    Reads s (t ++ u) s'' := by
  rw [Reads, List.foldlM_append, h]
  exact h'

theorem Reads.cons {s s' s'' : Reading} {c : Char} {t : List Char} (h : s.step c = some s') (h' : Reads s' t s'') :
    Reads s (c :: t) s'' := by
  rw [Reads, List.foldlM_cons, h]
  exact h'

theorem Reads.one {s s' : Reading} {c : Char} (h : s.step c = some s') : Reads s [c] s' := .cons h (.nil s')

variable {g : Group} {outer : List Group} {t u : List Char} {c first last : Char}

theorem step_plain (hreserved : c ∉ metacharacters) (hbackslash : c ≠ '\\') :
    step ⟨.item, g, outer⟩ c = some ⟨.item, g.push (.literal c), outer⟩ := by
  show stepItem ⟨.item, g, outer⟩ c = _
  have hcontains : ¬ metacharacters.contains c = true := by simpa using hreserved
  unfold stepItem
  split
  case h_9 => rw [if_neg hcontains]; rfl
  all_goals first | exact absurd rfl hbackslash | exact absurd (by decide) hreserved

theorem reads_literal (h : WritesChar metacharacters t c) :
    Reads ⟨.item, g, outer⟩ t ⟨.item, g.push (.literal c), outer⟩ := by
  cases h with
  | plain hreserved hbackslash => exact .one (step_plain hreserved hbackslash)
  | escaped c => exact .cons rfl (.one rfl)

/-- One end of a class, from the place before it to the place after. -/
theorem reads_end {place escaped : Place} {next : Char → Place}
    (hplace : ∀ c, step ⟨place, g, outer⟩ c = some ⟨if c = '\\' then escaped else next c, g, outer⟩)
    (hescaped : ∀ c, step ⟨escaped, g, outer⟩ c = some ⟨next c, g, outer⟩) (h : WritesChar classMetacharacters t c) :
    Reads ⟨place, g, outer⟩ t ⟨next c, g, outer⟩ := by
  cases h with
  | plain _ hbackslash =>
    apply Reads.one
    rw [hplace, if_neg hbackslash]
  | escaped c =>
    refine .cons ?_ (.one (hescaped c))
    rw [hplace, if_pos rfl]

theorem reads_range (h : WritesChar classMetacharacters t first) (h' : WritesChar classMetacharacters u last) :
    Reads ⟨.item, g, outer⟩ ('[' :: t ++ '-' :: u ++ [']']) ⟨.item, g.push (.range first last), outer⟩ := by
  have hclass : Reads ⟨.item, g, outer⟩ ('[' :: t) ⟨.classHyphen first, g, outer⟩ :=
    .cons rfl (reads_end (fun _ => rfl) (fun _ => rfl) h)
  have hhyphen : Reads ⟨.classHyphen first, g, outer⟩ ('-' :: u) ⟨.classEnd first last, g, outer⟩ :=
    .cons rfl (reads_end (fun _ => rfl) (fun _ => rfl) h')
  exact (hclass.append hhyphen).append (.one rfl)

theorem step_repetition (q : Repetition) (g : Group) (outer : List Group) (r : Regex) :
    step ⟨.item, g.push r, outer⟩ (Operator.repetition q).symbol = some ⟨.item, g.push (r.repeated q), outer⟩ := by
  cases q <;> rfl

end Reading

open Reading

/-- What reading does with a text, by its category. Items are put before those of the current alternative, which is
ended by `|`; a whole text begins with no item. -/
def ReadAs : Grammar.Category → List Char → Regex → Prop
  | .atom, t, r | .factor, t, r => ∀ g outer, Reads ⟨.item, g, outer⟩ t ⟨.item, g.push r, outer⟩
  | .sequence, t, r => ∃ items : List Regex, (t ≠ [] → items ≠ []) ∧ (Group.mk [] items).branch = r ∧
    ∀ g outer, Reads ⟨.item, g, outer⟩ t ⟨.item, ⟨g.branches, items ++ g.items⟩, outer⟩
  | .alternatives, t, r => ∃ g : Group, g.close = r ∧
    ∀ branches outer, Reads ⟨.item, ⟨branches, []⟩, outer⟩ t ⟨.item, ⟨g.branches ++ branches, g.items⟩, outer⟩

namespace ReadAs

variable {t u : List Char} {r s : Regex}

theorem group (h : ReadAs .alternatives t r) : ReadAs .atom ('(' :: '?' :: ':' :: t ++ [')']) (.group r) := by
  obtain ⟨inner, rfl, hreads⟩ := h
  intro g outer
  have hopen : Reads ⟨.item, g, outer⟩ ['(', '?', ':'] ⟨.item, .new, g :: outer⟩ := .cons rfl (.cons rfl (.one rfl))
  have hinner := hreads [] (g :: outer)
  rw [List.append_nil] at hinner
  exact (hopen.append hinner).append (.one rfl)

theorem factor (h : ReadAs .factor t r) : ReadAs .sequence t r :=
  ⟨[r], fun _ => List.cons_ne_nil _ _, rfl, h⟩

theorem concatenation (h : ReadAs .factor t r) (h' : ReadAs .sequence u s) (hu : u ≠ []) :
    ReadAs .sequence (t ++ u) (.seq r s) := by
  obtain ⟨items, hne, rfl, hreads⟩ := h'
  obtain ⟨last, before, rfl⟩ := List.exists_cons_of_ne_nil (hne hu)
  refine ⟨last :: before ++ [r], by simp, ?_, ?_⟩
  · show (before ++ [r]).foldl (fun r item => seq item r) last = _
    rw [List.foldl_append]
    rfl
  · intro g outer
    rw [List.append_assoc]
    exact (h g outer).append (hreads (g.push r) outer)

theorem sequence (h : ReadAs .sequence t r) : ReadAs .alternatives t r := by
  obtain ⟨items, -, rfl, hreads⟩ := h
  refine ⟨⟨[], items⟩, rfl, ?_⟩
  intro branches outer
  have h := hreads ⟨branches, []⟩ outer
  rwa [List.append_nil] at h

theorem alternation (h : ReadAs .sequence t r) (h' : ReadAs .alternatives u s) :
    ReadAs .alternatives (t ++ '|' :: u) (.alt r s) := by
  obtain ⟨items, -, rfl, hreads⟩ := h
  obtain ⟨rest, rfl, hrest⟩ := h'
  let first : Group := ⟨[], items⟩
  refine ⟨⟨rest.branches ++ [first.branch], rest.items⟩, ?_, ?_⟩
  · show (rest.branches ++ [first.branch]).foldl (fun r b => alt b r) rest.branch = _
    rw [List.foldl_append]
    rfl
  · intro branches outer
    have hfirst := hreads ⟨branches, []⟩ outer
    rw [List.append_nil] at hfirst
    rw [List.append_assoc]
    exact hfirst.append (.cons rfl (hrest (first.branch :: branches) outer))

end ReadAs

namespace Writes

variable {k : Grammar.Category} {t : List Char} {r s : Regex}

theorem readAs (h : Writes k t r) : ReadAs k t r := by
  induction h with
  | literal hc => exact fun g outer => reads_literal hc
  | range hfirst hlast _ => exact fun g outer => reads_range hfirst hlast
  | group _ ih => exact ih.group
  | atom _ ih => exact ih
  | repetition q _ ih => exact fun g outer => (ih g outer).append (.one (step_repetition q g outer _))
  | nothing => exact ⟨[], fun h => absurd rfl h, rfl, fun g outer => .nil _⟩
  | factor _ ih => exact ih.factor
  | concatenation _ _ hu ih ih' => exact ih.concatenation ih' hu
  | sequence _ ih => exact ih.sequence
  | alternation _ _ ih ih' => exact ih.alternation ih'

/-- The reader finds the expression that a text writes. -/
theorem ofText?_eq (h : Writes .alternatives t r) : ofText? t = some r := by
  obtain ⟨g, rfl, hreads⟩ := h.readAs
  have hwhole : t.foldlM Reading.step .start = some ⟨.item, ⟨g.branches ++ [], g.items⟩, []⟩ := hreads [] []
  rw [ofText?, hwhole, List.append_nil]

theorem unique (h : Writes .alternatives t r) (h' : Writes .alternatives t s) : r = s :=
  Option.some.inj (h.ofText?_eq.symm.trans h'.ofText?_eq)

end Writes

theorem writesChar_escape {reserved : List Char} (h : reserved.all special.contains = true) (c : Char) :
    WritesChar reserved (escape c) c := by
  rw [escape]
  split
  · exact .escaped c
  · next hspecial =>
    have hc : c ∉ special := by simpa using hspecial
    refine .plain (fun hmem => hc (List.contains_iff_mem.mp (List.all_eq_true.mp h c hmem))) ?_
    rintro rfl
    exact hc (by decide)

theorem Writes.ne_nil_of_atom {t : List Char} {r : Regex} (h : Writes .atom t r) : t ≠ [] := by
  cases h with
  | literal hc => cases hc <;> simp
  | range _ _ _ => simp
  | group _ => simp

theorem Writes.ne_nil {t : List Char} {r : Regex} (h : Writes .factor t r) : t ≠ [] := by
  cases h with
  | atom h => exact h.ne_nil_of_atom
  | repetition q _ => simp

/-- The text writes an expression for the words of `L`, and keeps to itself before whatever is put after it. -/
structure Piece (t : List Char) (L : Language Char) : Prop where
  ne_nil : t ≠ []
  alone : ∃ r, Writes .sequence t r ∧ r.language = L
  before : ∀ u s, Writes .sequence u s → u ≠ [] → ∃ r, Writes .sequence (t ++ u) r ∧ r.language = L * s.language

namespace Piece

variable {t u : List Char} {L M : Language Char}

theorem of_factor {r : Regex} (h : Writes .factor t r) : Piece t r.language :=
  ⟨h.ne_nil, ⟨r, .factor h, rfl⟩, fun _ s hs hu => ⟨.seq r s, .concatenation h hs hu, rfl⟩⟩

theorem concat (h : Piece t L) (h' : Piece u M) : Piece (t ++ u) (L * M) := by
  refine ⟨List.append_ne_nil_of_left_ne_nil h.ne_nil u, ?_, ?_⟩
  · obtain ⟨s, hs, rfl⟩ := h'.alone
    exact h.before u s hs h'.ne_nil
  · intro v s hs hv
    obtain ⟨q, hq, hqlanguage⟩ := h'.before v s hs hv
    obtain ⟨r, hr, hrlanguage⟩ := h.before _ q hq (List.append_ne_nil_of_left_ne_nil h'.ne_nil v)
    refine ⟨r, ?_, ?_⟩
    · rw [List.append_assoc]
      exact hr
    · rw [hrlanguage, hqlanguage, mul_assoc]

theorem alternate (h : Piece t L) (h' : Piece u M) : Piece ('(' :: '?' :: ':' :: (t ++ '|' :: u) ++ [')']) (L + M) := by
  obtain ⟨r, hr, rfl⟩ := h.alone
  obtain ⟨s, hs, rfl⟩ := h'.alone
  exact of_factor (.atom (.group (.alternation hr (.sequence hs))))

theorem repetition (h : Piece t L) (q : Repetition) :
    Piece ('(' :: '?' :: ':' :: t ++ [')'] ++ [(Operator.repetition q).symbol]) (q.language L) := by
  obtain ⟨r, hr, rfl⟩ := h.alone
  have hpiece := of_factor (.repetition q (.group (.sequence hr)))
  rw [language_repeated] at hpiece
  exact hpiece

end Piece

end Regex

end PatternAutomata
