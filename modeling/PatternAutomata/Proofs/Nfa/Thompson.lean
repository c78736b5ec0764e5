import PatternAutomata.Proofs.Nfa.Part
import PatternAutomata.Proofs.Pattern.Evaluation

namespace PatternAutomata

namespace Arena

def top (a : Arena) : Nat := a.firstId + a.states.size

def state? (a : Arena) (i : Nat) : Option Nfa.State := if a.firstId ≤ i then a.states[i - a.firstId]? else none

def Draws (a : Arena) (i : Nat) (l : Label) (j : Nat) : Prop := j ∈ ((a.state? i).bind (·.edges.get? l)).getD []

def Tidy (a : Arena) (bot : Nat) : Prop :=
  ∀ i s l ts, bot ≤ i → a.state? i = some s → s.edges.get? l = some ts → ts ≠ []

def Numbered (a : Arena) : Prop := ∀ i s, a.state? i = some s → s.id = i

theorem state?_eq_none {a : Arena} {i : Nat} (h : a.top ≤ i) : a.state? i = none := by
  unfold top at h
  rw [state?]
  split
  · exact Array.getElem?_eq_none (by omega)
  · rfl

theorem numbered_empty (firstId : Nat) : (empty firstId).Numbered := by
  intro i s hs
  rw [state?] at hs
  split at hs
  · cases hs
  · cases hs

theorem tidy_top (a : Arena) : a.Tidy a.top := by
  intro i s l ts hi hs
  rw [state?_eq_none hi] at hs
  cases hs

theorem not_draws_of_top_le {a : Arena} {i : Nat} (h : a.top ≤ i) (l : Label) (j : Nat) : ¬ a.Draws i l j := by
  rw [Draws, state?_eq_none h]
  exact List.not_mem_nil

/-- `b` is `a` after some steps that left the states below `lo` alone. -/
structure Extends (lo : Nat) (a b : Arena) : Prop where
  firstId_eq : b.firstId = a.firstId
  top_le : a.top ≤ b.top
  kept : ∀ i, i < lo → b.state? i = a.state? i
  tidy : ∀ bot, a.Tidy bot → b.Tidy bot
  numbered : a.Numbered → b.Numbered

namespace Extends

variable {lo : Nat} {a b c : Arena}

theorem mono {lo' : Nat} (h : Extends lo a b) (hlo : lo' ≤ lo) : Extends lo' a b :=
  ⟨h.firstId_eq, h.top_le, fun i hi => h.kept i (by omega), h.tidy, h.numbered⟩

theorem trans (h : Extends lo a b) (h' : Extends lo b c) : Extends lo a c := by
  refine ⟨h'.firstId_eq.trans h.firstId_eq, h.top_le.trans h'.top_le, ?_, fun bot ha => h'.tidy bot (h.tidy bot ha),
    fun ha => h'.numbered (h.numbered ha)⟩
  intro i hi
  rw [h'.kept i hi, h.kept i hi]

theorem draws_iff (h : Extends lo a b) {i : Nat} (hi : i < lo) (l : Label) (j : Nat) :
    b.Draws i l j ↔ a.Draws i l j := by
  rw [Draws, Draws, h.kept i hi]

theorem part {bot : Nat} {f : Fragment} {L : Language Char} (h : Extends lo a b) (hf : Part a.Draws bot lo f L) :
    Part b.Draws bot lo f L :=
  hf.congr fun _ l j _ hi => h.draws_iff hi l j

end Extends

theorem state?_connect (a : Arena) (e : Edge) (hfirst : a.firstId ≤ e.source) (i : Nat) :
    (a.connect e).state? i =
      if i = e.source then (a.state? i).map fun s => { s with edges := s.edges.push e.label e.target }
      else a.state? i := by
  have hids : (a.connect e).firstId = a.firstId := rfl
  have hstates : (a.connect e).states =
      a.states.modify (e.source - a.firstId) fun s => { s with edges := s.edges.push e.label e.target } := rfl
  rw [state?, state?, hids, hstates]
  by_cases hi : a.firstId ≤ i
  · rw [if_pos hi, if_pos hi, Array.getElem?_modify]
    have hiff : e.source - a.firstId = i - a.firstId ↔ i = e.source := by omega
    simp only [hiff]
  · rw [if_neg hi, if_neg hi, if_neg (by omega)]

theorem top_connect (a : Arena) (e : Edge) : (a.connect e).top = a.top := by
  unfold top connect
  rw [Array.size_modify]

theorem extends_connect {lo : Nat} (a : Arena) (e : Edge) (hfirst : a.firstId ≤ e.source) (hlo : lo ≤ e.source) :
    Extends lo a (a.connect e) := by
  refine ⟨rfl, (top_connect a e).ge, ?_, ?_, ?_⟩
  · intro i hi
    rw [state?_connect a e hfirst, if_neg (by omega)]
  · intro bot ha i s l ts hbot hs hts
    rw [state?_connect a e hfirst] at hs
    split at hs
    · obtain ⟨old, hold, rfl⟩ := Option.map_eq_some_iff.mp hs
      rw [Listing.get?_push] at hts
      split at hts
      · obtain rfl := Option.some.inj hts
        exact List.append_ne_nil_of_right_ne_nil _ (List.cons_ne_nil _ _)
      · exact ha i old l ts hbot hold hts
    · exact ha i s l ts hbot hs hts
  · intro ha i s hs
    rw [state?_connect a e hfirst] at hs
    split at hs
    · obtain ⟨old, hold, rfl⟩ := Option.map_eq_some_iff.mp hs
      exact ha i old hold
    · exact ha i s hs

theorem draws_connect (a : Arena) (e : Edge) (hfirst : a.firstId ≤ e.source) (htop : e.source < a.top) (i : Nat)
    (l : Label) (j : Nat) :
    (a.connect e).Draws i l j ↔ a.Draws i l j ∨ i = e.source ∧ l = e.label ∧ j = e.target := by
  rw [Draws, Draws, state?_connect a e hfirst]
  by_cases hi : i = e.source
  · have hlt : i - a.firstId < a.states.size := by
      unfold top at htop
      omega
    have hsome : a.state? i = some a.states[i - a.firstId] := by
      rw [state?, if_pos (by omega), Array.getElem?_eq_getElem hlt]
    rw [if_pos hi, hsome, Option.map_some, Option.bind_some, Option.bind_some, Listing.get?_push]
    by_cases hl : l = e.label
    · rw [if_pos hl, hl]
      simp [hi]
    · simp [hl]
  · simp [hi]

theorem extends_foldl_connect {lo : Nat} (edges : List Edge) (a : Arena) (h : ∀ e ∈ edges, a.firstId ≤ e.source)
    (hlo : ∀ e ∈ edges, lo ≤ e.source) : Extends lo a (edges.foldl connect a) := by
  induction edges generalizing a with
  | nil => exact ⟨rfl, le_rfl, fun _ _ => rfl, fun _ => id, id⟩
  | cons e edges ih =>
    obtain ⟨he, hrest⟩ := List.forall_mem_cons.mp h
    obtain ⟨helo, hrestlo⟩ := List.forall_mem_cons.mp hlo
    exact (extends_connect a e he helo).trans (ih (a.connect e) hrest hrestlo)

theorem top_foldl_connect (edges : List Edge) (a : Arena) : (edges.foldl connect a).top = a.top := by
  induction edges generalizing a with
  | nil => rfl
  | cons e edges ih => rw [List.foldl_cons, ih, top_connect]

theorem draws_foldl_connect (edges : List Edge) (a : Arena)
    (h : ∀ e ∈ edges, a.firstId ≤ e.source ∧ e.source < a.top) (i : Nat) (l : Label) (j : Nat) :
    (edges.foldl connect a).Draws i l j ↔
      a.Draws i l j ∨ ∃ e ∈ edges, i = e.source ∧ l = e.label ∧ j = e.target := by
  induction edges generalizing a with
  | nil => simp
  | cons e edges ih =>
    obtain ⟨he, hrest⟩ := List.forall_mem_cons.mp h
    have hrest' : ∀ e' ∈ edges, (a.connect e).firstId ≤ e'.source ∧ e'.source < (a.connect e).top := by
      intro e' he'
      rw [top_connect]
      exact hrest e' he'
    rw [List.foldl_cons, ih (a.connect e) hrest', draws_connect a e he.1 he.2]
    simp only [List.mem_cons, exists_eq_or_imp, or_assoc]

def twoMore (a : Arena) : Arena := { a with states := (a.states.push ⟨a.top, .empty⟩).push ⟨a.top + 1, .empty⟩ }

theorem top_twoMore (a : Arena) : a.twoMore.top = a.top + 2 := by
  have hstates : a.twoMore.states.size = a.states.size + 2 := by
    rw [twoMore, Array.size_push, Array.size_push]
  show a.firstId + a.twoMore.states.size = a.firstId + a.states.size + 2
  omega

theorem state?_twoMore (a : Arena) (i : Nat) : a.twoMore.state? i =
    if a.firstId ≤ i then ((a.states.push ⟨a.top, .empty⟩).push ⟨a.top + 1, .empty⟩)[i - a.firstId]? else none := rfl

theorem state?_twoMore_of_lt {a : Arena} {i : Nat} (hi : i < a.top) : a.twoMore.state? i = a.state? i := by
  rw [state?_twoMore, state?]
  unfold top at hi
  split
  · rw [Array.getElem?_push, Array.getElem?_push, Array.size_push, if_neg (by omega), if_neg (by omega)]
  · rfl

/-- A new state has the id of its place and no edges. -/
theorem state?_twoMore_of_le {a : Arena} {i : Nat} (hi : a.top ≤ i) {s : Nfa.State} (h : a.twoMore.state? i = some s) :
    s = ⟨i, .empty⟩ := by
  rw [state?_twoMore, Array.getElem?_push, Array.getElem?_push, Array.size_push] at h
  unfold top at hi h
  rw [if_pos (by omega)] at h
  split at h
  · obtain rfl : i = a.firstId + a.states.size + 1 := by omega
    exact (Option.some.inj h).symm
  · split at h
    · obtain rfl : i = a.firstId + a.states.size := by omega
      exact (Option.some.inj h).symm
    · rw [Array.getElem?_eq_none (by omega)] at h
      cases h

theorem extends_twoMore (a : Arena) : Extends a.top a a.twoMore := by
  refine ⟨rfl, by rw [top_twoMore]; omega, fun i hi => state?_twoMore_of_lt hi, ?_, ?_⟩
  · intro bot ha i s l ts hbot hs hts
    by_cases hi : i < a.top
    · rw [state?_twoMore_of_lt hi] at hs
      exact ha i s l ts hbot hs hts
    · obtain rfl := state?_twoMore_of_le (by omega) hs
      cases hts
  · intro ha i s hs
    by_cases hi : i < a.top
    · rw [state?_twoMore_of_lt hi] at hs
      exact ha i s hs
    · obtain rfl := state?_twoMore_of_le (by omega) hs
      rfl

theorem draws_twoMore (a : Arena) (i : Nat) (l : Label) (j : Nat) : a.twoMore.Draws i l j ↔ a.Draws i l j := by
  by_cases hi : i < a.top
  · exact (extends_twoMore a).draws_iff hi l j
  · refine iff_of_false ?_ (not_draws_of_top_le (by omega) l j)
    intro h
    cases hs : a.twoMore.state? i with
    | none =>
      rw [Draws, hs] at h
      cases h
    | some s =>
      obtain rfl := state?_twoMore_of_le (by omega) hs
      rw [Draws, hs] at h
      cases h

section Enclose

variable {edges : Nat → Nat → List Edge} {a : Arena} {lo : Nat}

theorem enclose_snd (edges : Nat → Nat → List Edge) (a : Arena) :
    (enclose edges a).2 = (edges a.top (a.top + 1)).foldl connect a.twoMore := rfl

theorem top_enclose (edges : Nat → Nat → List Edge) (a : Arena) : (enclose edges a).2.top = a.top + 2 := by
  rw [enclose_snd, top_foldl_connect, top_twoMore]

variable (hlo : a.firstId ≤ lo) (h : ∀ e ∈ edges a.top (a.top + 1), lo ≤ e.source ∧ e.source < a.top + 2)
include hlo h

theorem extends_enclose (htop : lo ≤ a.top) : Extends lo a (enclose edges a).2 := by
  rw [enclose_snd]
  apply ((extends_twoMore a).mono htop).trans
  apply extends_foldl_connect
  · intro e he
    exact hlo.trans (h e he).1
  · intro e he
    exact (h e he).1

theorem draws_enclose (i : Nat) (l : Label) (j : Nat) :
    (enclose edges a).2.Draws i l j ↔
      a.Draws i l j ∨ ∃ e ∈ edges a.top (a.top + 1), i = e.source ∧ l = e.label ∧ j = e.target := by
  rw [enclose_snd, draws_foldl_connect, draws_twoMore]
  intro e he
  rw [top_twoMore]
  exact ⟨hlo.trans (h e he).1, (h e he).2⟩

end Enclose

theorem firstId_le_top (a : Arena) : a.firstId ≤ a.top := Nat.le_add_right _ _

/-- `b` is `a` with the states of one part more at its end, the part `f` for the words of `L`. -/
structure Grown (a b : Arena) (f : Fragment) (L : Language Char) : Prop where
  grows : Extends a.top a b
  part : Part b.Draws a.top b.top f L

theorem grown_character (c : Char) (a : Arena) :
    Grown a (character c a).2 (character c a).1 (letters (· = c)) := by
  have hsource : ∀ e ∈ [Edge.mk a.top (.char c) (a.top + 1)], a.top ≤ e.source ∧ e.source < a.top + 2 := by simp
  refine ⟨extends_enclose a.firstId_le_top hsource le_rfl, ?_⟩
  rw [character, top_enclose]
  apply Part.character
  intro i l j hlo _
  rw [draws_enclose a.firstId_le_top hsource]
  have hold := not_draws_of_top_le hlo l j
  simp [hold]

/-- The edges of a repetition lead into the fragment and out of it, past it where no pass is needed, and back where
more than one is allowed. -/
theorem exists_repetition_edges (r : Repetition) (f : Fragment) :
    ∃ edges : Nat → Nat → List Edge, repetition r f = enclose edges ∧ ∀ entry exit e, e ∈ edges entry exit ↔
      e.label = .empty ∧ (e.source = entry ∧ (e.target = f.entry ∨ e.target = exit ∧ r ≠ .plus) ∨
        e.source = f.exit ∧ (e.target = exit ∨ e.target = entry ∧ r ≠ .optional)) := by
  refine ⟨_, rfl, ?_⟩
  rintro entry exit ⟨source, label, target⟩
  cases r <;> simp <;> tauto

namespace Grown

variable {a b c : Arena} {f g : Fragment} {L M : Language Char}

theorem firstId_le_top (h : Grown a b f L) : b.firstId ≤ a.top := h.grows.firstId_eq.trans_le a.firstId_le_top

theorem repetition (h : Grown a b f L) (r : Repetition) :
    Grown a (Arena.repetition r f b).2 (Arena.repetition r f b).1 (r.language L) := by
  have hfirst := h.firstId_le_top
  have htop := h.grows.top_le
  have hexit := h.part.exit_mem
  obtain ⟨edges, hrun, hedges⟩ := exists_repetition_edges r f
  have hsource : ∀ e ∈ edges b.top (b.top + 1), a.top ≤ e.source ∧ e.source < b.top + 2 := by
    intro e he
    have := ((hedges _ _ e).mp he).2
    omega
  rw [hrun]
  refine ⟨h.grows.trans (extends_enclose hfirst hsource htop), ?_⟩
  rw [top_enclose]
  apply Part.repetition r h.part
  · intro i l j hi
    exact not_draws_of_top_le hi l j
  · intro i l j _ _
    rw [draws_enclose hfirst hsource]
    apply or_congr_right
    constructor
    · rintro ⟨e, he, rfl, rfl, rfl⟩
      exact (hedges _ _ e).mp he
    · intro hnew
      exact ⟨⟨i, l, j⟩, (hedges _ _ ⟨i, l, j⟩).mpr hnew, rfl, rfl, rfl⟩

theorem concat (h : Grown a b f L) (h' : Grown b c g M) :
    Grown a (Arena.concat f g c).2 (Arena.concat f g c).1 (L * M) := by
  have hexit := h.part.exit_mem
  have hfirst : c.firstId ≤ f.exit := by
    have := h.firstId_le_top
    have := h'.grows.firstId_eq
    omega
  have hlast : f.exit < c.top := hexit.2.trans_le h'.grows.top_le
  refine ⟨(h.grows.trans (h'.grows.mono h.grows.top_le)).trans (extends_connect c _ hfirst hexit.1), ?_⟩
  rw [Arena.concat, top_connect]
  apply Part.concat (h'.grows.part h.part) h'.part
  intro i l j _ _
  exact draws_connect c _ hfirst hlast i l j

theorem alternate (h : Grown a b f L) (h' : Grown b c g M) :
    Grown a (Arena.alternate f g c).2 (Arena.alternate f g c).1 (L + M) := by
  have hfirst : c.firstId ≤ a.top := h'.grows.firstId_eq.trans_le h.firstId_le_top
  have htop := h.grows.top_le
  have htop' := h'.grows.top_le
  have hexit := h.part.exit_mem
  have hexit' := h'.part.exit_mem
  have hsource : ∀ e ∈ [Edge.mk c.top .empty f.entry, ⟨c.top, .empty, g.entry⟩, ⟨f.exit, .empty, c.top + 1⟩,
      ⟨g.exit, .empty, c.top + 1⟩], a.top ≤ e.source ∧ e.source < c.top + 2 := by
    simp
    omega
  refine ⟨(h.grows.trans (h'.grows.mono htop)).trans (extends_enclose hfirst hsource (htop.trans htop')), ?_⟩
  rw [Arena.alternate, top_enclose]
  apply Part.alternate (h'.grows.part h.part) h'.part
  · intro i l j hi
    exact not_draws_of_top_le hi l j
  · intro i l j _ _
    rw [draws_enclose hfirst hsource]
    simp
    tauto

end Grown

def Adds (m : StateM Arena Fragment) (L : Language Char) : Prop := ∀ a, Grown a (m a).2 (m a).1 L

theorem adds_character (c : Char) : Adds (character c) (letters (· = c)) := grown_character c

variable {m m' : StateM Arena Fragment} {L M : Language Char}

theorem adds_repetition (r : Repetition) (h : Adds m L) : Adds (do let f ← m; repetition r f) (r.language L) := by
  intro a
  exact (h a).repetition r

theorem adds_junction (j : Junction) (h : Adds m L) (h' : Adds m' M) :
    Adds (do let f ← m; let g ← m'; construction.junction j f g) (j.language L M) := by
  intro a
  cases j with
  | concat => exact (h a).concat (h' (m a).2)
  | alternate => exact (h a).alternate (h' (m a).2)

/-- Alternatives for further characters, each added to all before it. -/
theorem adds_alternatives (cs : List Char) (h : Adds m L) :
    Adds (do let f ← m; cs.foldlM (fun f c => do alternate f (← character c)) f) (L + letters (· ∈ cs)) := by
  induction cs generalizing m L with
  | nil =>
    have hlanguage : L + letters (· ∈ []) = L := by
      ext w
      simp [Language.mem_add, mem_letters]
    rw [hlanguage]
    exact h
  | cons c cs ih =>
    have hlanguage : L + letters (· = c) + letters (· ∈ cs) = L + letters (· ∈ c :: cs) := by
      simp only [List.mem_cons, letters_or, add_assoc]
    have hnext := ih (adds_junction .alternate h (adds_character c))
    rw [← hlanguage]
    exact hnext

theorem adds_operand {v : Operand} (hv : v.isBackward = false) : Adds (operand v) v.language := by
  cases v with
  | char c =>
    rw [Operand.language_char]
    exact adds_character c
  | range first last =>
    have hle : first ≤ last := by simpa [Operand.isBackward] using hv
    -- The first character makes a part of its own, each further one an alternative around all before it.
    have hlanguage : (Operand.range first last).language =
        letters (· = first) + letters (· ∈ (charsBetween first last).drop 1) := by
      have hsplit (c : Char) : (Operand.range first last).contains c = true ↔
          c = first ∨ c ∈ (charsBetween first last).drop 1 := by
        rw [Operand.contains, Bool.and_eq_true, decide_eq_true_eq, decide_eq_true_eq, ← mem_charsBetween,
          charsBetween_eq_cons hle, List.mem_cons]
        rfl
      rw [← letters_or]
      simp only [Operand.language, hsplit]
    rw [hlanguage]
    exact adds_alternatives _ (adds_character first)

/-- The construction adds, for every expression, the states of one part for its language. -/
theorem adds_fold {e : Expression} (he : e.Forward) : Adds (construction.fold e) e.language := by
  induction e with
  | operand v => exact adds_operand (he v (by simp [Expression.operands]))
  | repetition r e ih => exact adds_repetition r (ih he)
  | junction j e f ihe ihf => exact adds_junction j (ihe he.left) (ihf he.right)

theorem build_postorder (a : Arena) (pattern : String) {e : Expression} (he : e.Forward) :
    a.build pattern e.postorder =
      (.ok ((construction.fold e a).2.toNfa (construction.fold e a).1), (construction.fold e a).2) := by
  rw [build, construction.build_postorder pattern he]
  rfl

/-- Automata are built from the postorders of forward expressions and from nothing else. -/
theorem build_eq_ok_iff {a : Arena} {pattern : String} {items : List Postfix} {n : Nfa} :
    (a.build pattern items).1 = .ok n ↔ ∃ e : Expression, e.Forward ∧ items = e.postorder ∧
      n = (construction.fold e a).2.toNfa (construction.fold e a).1 := by
  constructor
  · intro hbuild
    obtain ⟨f, hf⟩ : ∃ f, (construction.build pattern items a).1 = .ok f := by
      cases hf : (construction.build pattern items a).1 with
      | error err =>
        have : (a.build pattern items).1 = .error err := by
          show (construction.build pattern items a).1.map _ = _
          rw [hf]
          rfl
        rw [this] at hbuild
        cases hbuild
      | ok f => exact ⟨f, rfl⟩
    obtain ⟨e, he, rfl⟩ := construction.exists_postorder_of_build pattern hf
    rw [build_postorder _ _ he] at hbuild
    exact ⟨e, he, rfl, (Except.ok.inj hbuild).symm⟩
  · rintro ⟨e, he, rfl, rfl⟩
    rw [build_postorder _ _ he]

end Arena

namespace Nfa

/-- The states from `lo` on are one part from the start to the terminal, a part for the words of `L`. -/
structure Faithful (n : Nfa) (lo : Nat) (L : Language Char) : Prop where
  sound : n.Sound lo
  part : Part n.Edge lo (n.firstId + n.size) ⟨n.start, n.terminal⟩ L

theorem Faithful.accepts_iff {n : Nfa} {lo : Nat} {L : Language Char} (h : n.Faithful lo L) {w : List Char} :
    n.accepts w = true ↔ w ∈ L := by
  rw [Nfa.accepts_iff]
  exact h.part.word_iff w

/-- The automaton of an expression, built after whatever the arena holds. -/
theorem faithful_fold (a : Arena) {e : Expression} (he : e.Forward) :
    ((Arena.construction.fold e a).2.toNfa (Arena.construction.fold e a).1).Faithful a.top e.language := by
  obtain ⟨hext, hpart⟩ := Arena.adds_fold he a
  generalize Arena.construction.fold e a = out at hext hpart
  obtain ⟨f, b⟩ := out
  dsimp only at hext hpart ⊢
  have hfirst : b.firstId ≤ a.top := hext.firstId_eq.trans_le a.firstId_le_top
  refine ⟨⟨⟨hpart.entry_mem.1, hfirst.trans hpart.entry_mem.1, hpart.entry_mem.2⟩, ?_, ?_⟩, hpart⟩
  · intro i l j hlo hedge
    have hhi : i < b.top := by
      by_contra hi
      exact Arena.not_draws_of_top_le (by omega) l j hedge
    have hj := hpart.closed i l j hlo hhi hedge
    exact ⟨hj.1, hfirst.trans hj.1, hj.2⟩
  · exact hext.tidy a.top a.tidy_top

/-- Whatever the arena held, what is built on it is an automaton for the words of an expression. -/
theorem exists_faithful_of_build {a : Arena} {pattern : String} {items : List Postfix} {n : Nfa}
    (h : (a.build pattern items).1 = .ok n) : ∃ e : Expression, items = e.postorder ∧ n.Faithful a.top e.language := by
  obtain ⟨e, he, hitems, rfl⟩ := Arena.build_eq_ok_iff.mp h
  exact ⟨e, hitems, faithful_fold a he⟩

/-- Patterns are compiled from the postorders of forward expressions. -/
theorem ofPattern?_eq_ok_iff {pattern : String} {n : Nfa} :
    ofPattern? pattern = .ok n ↔ ∃ e : Expression, e.Forward ∧ Postfix.ofPattern? pattern = .ok e.postorder ∧
      n = (Arena.construction.fold e (.empty 0)).2.toNfa (Arena.construction.fold e (.empty 0)).1 := by
  cases hitems : Postfix.ofPattern? pattern with
  | error err =>
    have hrun : ofPattern? pattern = .error err := by rw [ofPattern?, hitems]; rfl
    simp [hrun]
  | ok items =>
    have hrun : ofPattern? pattern = ((Arena.empty 0).build pattern items).1 := by rw [ofPattern?, hitems]; rfl
    rw [hrun, Arena.build_eq_ok_iff]
    simp only [Except.ok.injEq]

end Nfa

end PatternAutomata
