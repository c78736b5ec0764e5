import PatternAutomata.Proofs.Table.Recognition

namespace PatternAutomata

open scoped List

namespace Listing

variable {κ α : Type}

def pairs (l : Listing κ (List α)) : List (κ × α) := l.entries.flatMap fun e => e.2.map (e.1, ·)

theorem mem_pairs {l : Listing κ (List α)} {k : κ} {a : α} : (k, a) ∈ l.pairs ↔ ∃ as, (k, as) ∈ l.entries ∧ a ∈ as := by
  simp only [pairs, List.mem_flatMap, List.mem_map, Prod.exists, Prod.mk.injEq]
  constructor
  · rintro ⟨_, as, hentry, _, ha, rfl, rfl⟩
    exact ⟨as, hentry, ha⟩
  · rintro ⟨as, hentry, ha⟩
    exact ⟨k, as, hentry, a, ha, rfl, rfl⟩

/-- Pushing a value adds one pair and keeps the others. -/
theorem pairs_push [DecidableEq κ] (l : Listing κ (List α)) (k : κ) (a : α) :
    (l.push k a).pairs ~ l.pairs ++ [(k, a)] := by
  obtain ⟨entries, hnodup⟩ := l
  show (putEntry k ((entries.lookup k).getD [] ++ [a]) entries).flatMap _ ~ entries.flatMap _ ++ [(k, a)]
  clear hnodup
  induction entries with
  | nil => exact .refl _
  | cons e rest ih =>
    obtain ⟨k', as⟩ := e
    rw [putEntry, lookup_cons, List.flatMap_cons]
    by_cases hk : k' = k
    · subst hk
      rw [if_pos rfl, if_pos rfl, Option.getD_some, List.flatMap_cons, List.map_append, List.append_assoc,
        List.append_assoc]
      exact (List.perm_append_comm).append_left _
    · rw [if_neg hk, if_neg fun he => hk he.symm, List.flatMap_cons, List.append_assoc]
      exact ih.append_left _

end Listing

/-- The edges out of a state are one that reads a character, or at most two that read nothing. -/
def Slender (edges : List (Label × Nat)) : Prop :=
  (∃ c j, edges = [(.char c, j)]) ∨ (edges.length ≤ 2 ∧ ∀ e ∈ edges, e.1 = .empty)

theorem slender_nil : Slender [] := .inr ⟨Nat.zero_le 2, by simp⟩

theorem Slender.perm {edges edges' : List (Label × Nat)} (h : Slender edges) (hperm : edges' ~ edges) :
    Slender edges' := by
  rcases h with ⟨c, j, rfl⟩ | ⟨hlength, hempty⟩
  · exact .inl ⟨c, j, List.perm_singleton.mp hperm⟩
  · exact .inr ⟨hperm.length_eq.trans_le hlength, fun e he => hempty e (hperm.mem_iff.mp he)⟩

namespace Arena

variable {a b c : Arena} {f g : Fragment} {L M : Language Char}

def out (a : Arena) (i : Nat) : List (Label × Nat) := ((a.state? i).map (·.edges.pairs)).getD []

theorem mem_out {i j : Nat} {l : Label} : (l, j) ∈ a.out i ↔ a.Draws i l j := by
  rw [out, Draws]
  cases a.state? i with
  | none => simp
  | some s =>
    simp only [Option.map_some, Option.getD_some, Option.bind_some, Listing.mem_pairs, ← Listing.get?_eq_some_iff]
    cases s.edges.get? l <;> simp

theorem top_empty (firstId : Nat) : (empty firstId).top = firstId := rfl

theorem out_eq_nil_of_top_le {i : Nat} (h : a.top ≤ i) : a.out i = [] := by
  rw [out, state?_eq_none h]
  rfl

theorem Extends.out_eq {lo : Nat} (h : Extends lo a b) {i : Nat} (hi : i < lo) : b.out i = a.out i := by
  rw [out, out, h.kept i hi]

def drawn (edges : List Edge) (i : Nat) : List (Label × Nat) :=
  (edges.filter (·.source = i)).map fun e => (e.label, e.target)

theorem out_connect (a : Arena) (e : Edge) (hfirst : a.firstId ≤ e.source) (htop : e.source < a.top) (i : Nat) :
    (a.connect e).out i ~ a.out i ++ drawn [e] i := by
  rw [out, out, state?_connect a e hfirst]
  by_cases hi : i = e.source
  · subst hi
    have hlt : e.source - a.firstId < a.states.size := by
      unfold top at htop
      omega
    have hsome : a.state? e.source = some a.states[e.source - a.firstId] := by
      rw [state?, if_pos hfirst, Array.getElem?_eq_getElem hlt]
    rw [if_pos rfl, hsome]
    simpa [drawn] using Listing.pairs_push a.states[e.source - a.firstId].edges e.label e.target
  · have hne : e.source ≠ i := fun h => hi h.symm
    rw [if_neg hi]
    simp [drawn, hne]

theorem out_foldl_connect (edges : List Edge) (a : Arena)
    (h : ∀ e ∈ edges, a.firstId ≤ e.source ∧ e.source < a.top) (i : Nat) :
    (edges.foldl connect a).out i ~ a.out i ++ drawn edges i := by
  induction edges generalizing a with
  | nil => simp [drawn]
  | cons e edges ih =>
    obtain ⟨he, hrest⟩ := List.forall_mem_cons.mp h
    have hrest' : ∀ e' ∈ edges, (a.connect e).firstId ≤ e'.source ∧ e'.source < (a.connect e).top := by
      intro e' he'
      rw [top_connect]
      exact hrest e' he'
    have hdrawn : drawn (e :: edges) i = drawn [e] i ++ drawn edges i := by
      rw [drawn, drawn, drawn, ← List.map_append, ← List.filter_append, List.singleton_append]
    calc
      (edges.foldl connect (a.connect e)).out i
      _ ~ (a.connect e).out i ++ drawn edges i := ih (a.connect e) hrest'
      _ ~ (a.out i ++ drawn [e] i) ++ drawn edges i := (out_connect a e he.1 he.2 i).append_right _
      _ = a.out i ++ drawn (e :: edges) i := by rw [List.append_assoc, hdrawn]

theorem out_twoMore (a : Arena) (i : Nat) : a.twoMore.out i = a.out i := by
  by_cases hi : i < a.top
  · exact (extends_twoMore a).out_eq hi
  · rw [out_eq_nil_of_top_le (Nat.le_of_not_lt hi), out]
    cases hs : a.twoMore.state? i with
    | none => rfl
    | some s =>
      rw [state?_twoMore_of_le (Nat.le_of_not_lt hi) hs]
      rfl

theorem out_enclose (edges : Nat → Nat → List Edge)
    (h : ∀ e ∈ edges a.top (a.top + 1), a.firstId ≤ e.source ∧ e.source < a.top + 2) (i : Nat) :
    (enclose edges a).2.out i ~ a.out i ++ drawn (edges a.top (a.top + 1)) i := by
  rw [enclose_snd, ← out_twoMore a]
  apply out_foldl_connect
  intro e he
  rw [top_twoMore]
  exact h e he

theorem exists_edge_of_drawn_ne_nil {edges : List Edge} {i : Nat} (h : drawn edges i ≠ []) :
    ∃ e ∈ edges, e.source = i := by
  obtain ⟨d, hd⟩ := List.exists_mem_of_ne_nil _ h
  obtain ⟨e, he, -⟩ := List.mem_map.mp hd
  obtain ⟨hmem, hsource⟩ := List.mem_filter.mp he
  exact ⟨e, hmem, of_decide_eq_true hsource⟩

/-- Empty moves may be drawn wherever there are no edges yet, up to two from each state. -/
theorem slender_draw {old new : List (Label × Nat)} {edges : List Edge} {i : Nat} (hold : Slender old)
    (hnew : new ~ old ++ drawn edges i) (hempty : ∀ e ∈ edges, e.label = .empty) (hlength : (drawn edges i).length ≤ 2)
    (hfree : ∀ e ∈ edges, e.source = i → old = []) : Slender new := by
  by_cases hdrawn : drawn edges i = []
  · rw [hdrawn, List.append_nil] at hnew
    exact hold.perm hnew
  · obtain ⟨e, he, hsource⟩ := exists_edge_of_drawn_ne_nil hdrawn
    rw [hfree e he hsource, List.nil_append] at hnew
    refine Slender.perm (.inr ⟨hlength, ?_⟩) hnew
    intro p hp
    obtain ⟨d, hd, rfl⟩ := List.mem_map.mp hp
    exact hempty d (List.mem_filter.mp hd).1

end Arena

namespace Postfix

/-- How many states an item adds: two for each character and each alternation of an operand, two for each operator
but `_`. -/
def stateCount : Postfix → Nat
  | operand v => 2 * v.chars.length + 2 * (v.chars.length - 1)
  | operator (.junction .concat) => 0
  | operator _ => 2

theorem stateCount_range {first last : Char} (h : first ≤ last) :
    (operand (.range first last)).stateCount = 2 + 4 * ((charsBetween first last).drop 1).length := by
  rw [stateCount, Operand.chars, charsBetween_eq_cons h, List.drop_one, List.tail_cons, List.length_cons]
  omega

def stateTotal : List Postfix → Nat
  | [] => 0
  | i :: rest => i.stateCount + stateTotal rest

theorem stateTotal_append (xs ys : List Postfix) : stateTotal (xs ++ ys) = stateTotal xs + stateTotal ys := by
  induction xs with
  | nil => simp [stateTotal]
  | cons i rest ih => rw [List.cons_append, stateTotal, stateTotal, ih, Nat.add_assoc]

end Postfix

namespace Arena

variable {a b c : Arena} {f g : Fragment} {L M : Language Char}

/-- `b` is `a` with one part more at its end, a part of `count` slender states. -/
structure Shaped (a b : Arena) (f : Fragment) (count : Nat) : Prop where
  grown : ∃ L, Grown a b f L
  slender : ∀ i, a.top ≤ i → Slender (b.out i)
  top_eq : b.top = a.top + count

theorem Grown.out_exit (h : Grown a b f L) : b.out f.exit = [] := by
  rw [List.eq_nil_iff_forall_not_mem]
  rintro ⟨l, j⟩ hmem
  exact h.part.sink l j (mem_out.mp hmem)

theorem shaped_character (ch : Char) (a : Arena) : Shaped a (character ch a).2 (character ch a).1 2 := by
  refine ⟨⟨_, grown_character ch a⟩, ?_, top_enclose _ a⟩
  intro i hi
  have hfirst := a.firstId_le_top
  have hout := a.out_enclose (fun entry exit => [⟨entry, .char ch, exit⟩]) (by simp; omega) i
  rw [out_eq_nil_of_top_le hi, List.nil_append] at hout
  refine Slender.perm ?_ hout
  by_cases htop : a.top = i
  · exact .inl ⟨ch, a.top + 1, by simp [drawn, htop]⟩
  · simpa [drawn, htop] using slender_nil

/-- A repetition draws empty moves only, up to two each from its entry and from the exit of the fragment. -/
theorem exists_repetition_draws (r : Repetition) (f : Fragment) :
    ∃ edges : Nat → Nat → List Edge, repetition r f = enclose edges ∧ ∀ entry exit, f.exit ≠ entry →
      (∀ e ∈ edges entry exit, e.label = .empty ∧ (e.source = entry ∨ e.source = f.exit)) ∧
        ∀ i, (drawn (edges entry exit) i).length ≤ 2 := by
  refine ⟨_, rfl, ?_⟩
  intro entry exit hne
  refine ⟨by cases r <;> simp, ?_⟩
  intro i
  by_cases hentry : entry = i
  · subst hentry
    cases r <;> simp [drawn, hne]
  · by_cases hexit : f.exit = i
    · cases r <;> simp [drawn, hentry, hexit]
    · cases r <;> simp [drawn, hentry, hexit]

namespace Shaped

variable {count count' : Nat}

theorem repetition (h : Shaped a b f count) (r : Repetition) :
    Shaped a (Arena.repetition r f b).2 (Arena.repetition r f b).1 (count + 2) := by
  obtain ⟨⟨L, hgrown⟩, hslender, htop⟩ := h
  have hexit := hgrown.part.exit_mem
  have hfirst := hgrown.firstId_le_top
  obtain ⟨edges, hrun, hedges⟩ := exists_repetition_draws r f
  obtain ⟨hdraws, hlength⟩ := hedges b.top (b.top + 1) hexit.2.ne
  have hsource : ∀ e ∈ edges b.top (b.top + 1), b.firstId ≤ e.source ∧ e.source < b.top + 2 := by
    intro e he
    have := (hdraws e he).2
    omega
  refine ⟨⟨_, hgrown.repetition r⟩, ?_, by rw [hrun, top_enclose, htop, Nat.add_assoc]⟩
  intro i hi
  rw [hrun]
  refine slender_draw (hslender i hi) (b.out_enclose edges hsource i) (fun e he => (hdraws e he).1) (hlength i) ?_
  rintro e he rfl
  rcases (hdraws e he).2 with hsource | hsource <;> rw [hsource]
  · exact out_eq_nil_of_top_le le_rfl
  · exact hgrown.out_exit

/-- The exit of the left part still has no edges when the right part has been added. -/
theorem out_exit_left (h : Shaped a b f count) (h' : Shaped b c g count') : c.out f.exit = [] := by
  obtain ⟨L, hgrown⟩ := h.grown
  obtain ⟨M, hgrown'⟩ := h'.grown
  rw [hgrown'.grows.out_eq hgrown.part.exit_mem.2]
  exact hgrown.out_exit

/-- The states of the left part stay slender. -/
theorem slender_left (h : Shaped a b f count) (h' : Shaped b c g count') {i : Nat} (hi : a.top ≤ i) :
    Slender (c.out i) := by
  obtain ⟨M, hgrown'⟩ := h'.grown
  by_cases hmid : i < b.top
  · rw [hgrown'.grows.out_eq hmid]
    exact h.slender i hi
  · exact h'.slender i (Nat.le_of_not_lt hmid)

theorem concat (h : Shaped a b f count) (h' : Shaped b c g count') :
    Shaped a (Arena.concat f g c).2 (Arena.concat f g c).1 (count + count') := by
  obtain ⟨L, hgrown⟩ := h.grown
  obtain ⟨M, hgrown'⟩ := h'.grown
  have hexit := hgrown.part.exit_mem
  have hfirst := hgrown.firstId_le_top
  have hids := hgrown'.grows.firstId_eq
  have htop := h.top_eq
  have htop' := h'.top_eq
  refine ⟨⟨_, hgrown.concat hgrown'⟩, ?_, by rw [Arena.concat, top_connect]; omega⟩
  intro i hi
  have hout := c.out_connect ⟨f.exit, .empty, g.entry⟩ (by simp; omega) (by simp; omega) i
  refine slender_draw (h.slender_left h' hi) hout (by simp) ?_ ?_
  · exact (List.length_map _).trans_le ((List.length_filter_le _ _).trans (by simp))
  · intro e he hsource
    obtain rfl := List.mem_singleton.mp he
    rw [← hsource]
    exact h.out_exit_left h'

theorem alternate (h : Shaped a b f count) (h' : Shaped b c g count') :
    Shaped a (Arena.alternate f g c).2 (Arena.alternate f g c).1 (count + count' + 2) := by
  obtain ⟨L, hgrown⟩ := h.grown
  obtain ⟨M, hgrown'⟩ := h'.grown
  have hexit := hgrown.part.exit_mem
  have hexit' := hgrown'.part.exit_mem
  have hfirst := hgrown.firstId_le_top
  have hids := hgrown'.grows.firstId_eq
  have htop := h.top_eq
  have htop' := h'.top_eq
  refine ⟨⟨_, hgrown.alternate hgrown'⟩, ?_, by rw [Arena.alternate, top_enclose]; omega⟩
  intro i hi
  have hout := c.out_enclose (fun entry exit => [⟨entry, .empty, f.entry⟩, ⟨entry, .empty, g.entry⟩,
    ⟨f.exit, .empty, exit⟩, ⟨g.exit, .empty, exit⟩]) (by simp; omega) i
  -- The entry and the two exits are different states.
  have hne : f.exit ≠ g.exit := by omega
  have hne' : c.top ≠ f.exit := by omega
  have hne'' : c.top ≠ g.exit := by omega
  refine slender_draw (h.slender_left h' hi) hout (by simp) ?_ ?_
  · by_cases hentry : c.top = i
    · subst hentry
      simp [drawn, hne'.symm, hne''.symm]
    · by_cases hleft : f.exit = i
      · subst hleft
        simp [drawn, hentry, hne.symm]
      · exact (List.length_map _).trans_le (by simp [hentry, hleft, List.filter_cons]; split <;> simp)
  · intro e he hsource
    simp only [List.mem_cons, List.not_mem_nil, or_false] at he
    rw [← hsource]
    rcases he with rfl | rfl | rfl | rfl
    · exact out_eq_nil_of_top_le le_rfl
    · exact out_eq_nil_of_top_le le_rfl
    · exact h.out_exit_left h'
    · exact hgrown'.out_exit

theorem junction (h : Shaped a b f count) (h' : Shaped b c g count') (j : Junction) :
    Shaped a (construction.junction j f g c).2 (construction.junction j f g c).1
      (count + count' + (Postfix.operator (.junction j)).stateCount) := by
  cases j with
  | concat => exact h.concat h'
  | alternate => exact h.alternate h'

end Shaped

section Induction

variable {P : StateM Arena Fragment → Nat → Prop} (hcharacter : ∀ ch, P (character ch) 2)
  (hjunction : ∀ j m m' count count', P m count → P m' count' →
    P (do let f ← m; let g ← m'; construction.junction j f g)
      (count + count' + (Postfix.operator (.junction j)).stateCount))
include hcharacter hjunction

/-- Each further character is one more character and one more alternation. -/
theorem alternatives_induction (cs : List Char) {m : StateM Arena Fragment} {count : Nat} (hm : P m count) :
    P (do let f ← m; cs.foldlM (fun f ch => do alternate f (← character ch)) f) (count + 4 * cs.length) := by
  induction cs generalizing m count with
  | nil => exact hm
  | cons ch cs ih =>
    have hnext := ih (hjunction .alternate m (character ch) count 2 hm (hcharacter ch))
    have hcount : count + 4 * (ch :: cs).length = count + 2 + 2 + 4 * cs.length := by
      rw [List.length_cons]
      omega
    rw [hcount]
    exact hnext

/-- What holds of single characters and is kept by repetitions and junctions holds of the construction of every
expression, with the number of states that its items add up to. -/
theorem fold_induction (hrepetition : ∀ r m count, P m count → P (do let f ← m; repetition r f) (count + 2))
    {e : Expression} (he : e.Forward) : P (construction.fold e) (Postfix.stateTotal e.postorder) := by
  induction e with
  | operand v =>
    cases v with
    | char ch => exact hcharacter ch
    | range first last =>
      have hforward := he (.range first last) (by simp [Expression.operands])
      have hle : first ≤ last := by simpa [Operand.isBackward] using hforward
      rw [Expression.postorder, Postfix.stateTotal, Postfix.stateTotal, Postfix.stateCount_range hle]
      exact alternatives_induction hcharacter hjunction _ (hcharacter first)
  | repetition r e ih =>
    rw [Expression.postorder, Postfix.stateTotal_append]
    exact hrepetition r _ _ (ih he)
  | junction j e f ihe ihf =>
    rw [Expression.postorder, Postfix.stateTotal_append, Postfix.stateTotal_append]
    exact hjunction j _ _ _ _ (ihe he.left) (ihf he.right)

end Induction

theorem shaped_fold (a : Arena) {e : Expression} (he : e.Forward) :
    Shaped a (construction.fold e a).2 (construction.fold e a).1 (Postfix.stateTotal e.postorder) := by
  refine fold_induction (P := fun m count => ∀ a, Shaped a (m a).2 (m a).1 count) shaped_character ?_ ?_ he a
  · intro j m m' count count' hm hm' a
    exact (hm a).junction (hm' (m a).2) j
  · intro r m count hm a
    exact (hm a).repetition r

end Arena

namespace Nfa

variable {n : Nfa} {firstId i j : Nat} {l : Label}

/-- The edges out of a state, each with its label; none for an id of no state. -/
def out (n : Nfa) (i : Nat) : List (Label × Nat) := (n.edgesOf i).pairs

theorem mem_out : (l, j) ∈ n.out i ↔ n.Edge i l j := Listing.mem_pairs.trans edge_iff.symm

/-- States that carry consecutive ids from `firstId` on, as many as the items add up to. Each reads one character or has
up to two empty moves, and lies between the start and the terminal, where nothing begins; so the table lists them all. -/
structure WellShaped (n : Nfa) (firstId : Nat) (items : List Postfix) : Prop where
  firstId_eq : n.firstId = firstId
  limit : n.firstId + n.size ≤ Arena.idLimit
  id_eq : ∀ i s, n.states[i]? = some s → s.id = n.firstId + i
  target : ∀ i l j, (l, j) ∈ n.out i → n.firstId ≤ j ∧ j < n.firstId + n.size
  slender : ∀ i, Slender (n.out i)
  start_mem : n.firstId ≤ n.start ∧ n.start < n.firstId + n.size
  terminal_mem : n.firstId ≤ n.terminal ∧ n.terminal < n.firstId + n.size
  terminal : n.out n.terminal = []
  reached : ∀ i, n.firstId ≤ i → i < n.firstId + n.size → ∃ w, Route n.Edge n.start w i
  leads : ∀ i, n.firstId ≤ i → i < n.firstId + n.size → ∃ w, Route n.Edge i w n.terminal
  size_eq : n.size = Postfix.stateTotal items
  listed : n.table.states.keys ~ n.states.toList.map fun s => stateName s.id

theorem out_toNfa (a : Arena) (f : Fragment) (i : Nat) : (a.toNfa f).out i = a.out i := by
  show (((a.state? i).map State.edges).getD .empty).pairs = ((a.state? i).map fun s => s.edges.pairs).getD []
  cases a.state? i <;> rfl

theorem ofPostfix?_eq_ok_iff {a : Arena} {pattern : String} {items : List Postfix} :
    ofPostfix? a pattern items = .ok (.ok n) ↔ ∃ e : Expression, e.Forward ∧ items = e.postorder ∧
      (Arena.construction.fold e a).2.top ≤ Arena.idLimit ∧
      n = (Arena.construction.fold e a).2.toNfa (Arena.construction.fold e a).1 := by
  have hrun : ofPostfix? a pattern items = .ok (.ok n) ↔
      (a.build pattern items).1 = .ok n ∧ (a.build pattern items).2.top ≤ Arena.idLimit := by
    rw [ofPostfix?]
    generalize a.build pattern items = built
    obtain ⟨r, b⟩ := built
    simp only [Arena.overflows, Arena.top, decide_eq_true_eq]
    split_ifs with hlimit
    · simp [hlimit]
    · simp [Nat.le_of_not_lt hlimit]
  rw [hrun, Arena.build_eq_ok_iff]
  constructor
  · rintro ⟨⟨e, he, rfl, rfl⟩, hlimit⟩
    rw [Arena.build_postorder a pattern he] at hlimit
    exact ⟨e, he, rfl, hlimit, rfl⟩
  · rintro ⟨e, he, rfl, hlimit, rfl⟩
    refine ⟨⟨e, he, rfl, rfl⟩, ?_⟩
    rw [Arena.build_postorder a pattern he]
    exact hlimit

/-- The table of a sound automaton whose states are all reached lists all of them. -/
theorem Sound.keys_table_perm (h : n.Sound n.firstId)
    (hreached : ∀ i, n.firstId ≤ i → i < n.firstId + n.size → ∃ w, Route n.Edge n.start w i) :
    n.table.states.keys ~ (List.range n.size).map fun i => stateName (n.firstId + i) := by
  have hkeys : n.table.states.keys = n.reachable.map stateName := by
    rw [Listing.keys, h.entries_table, List.map_map]
    rfl
  have hids : n.reachable ~ (List.range n.size).map (n.firstId + ·) := by
    rw [List.perm_ext_iff_of_nodup n.nodup_reachable (List.nodup_range.map fun _ _ => Nat.add_left_cancel)]
    intro i
    rw [mem_reachable h, List.mem_map]
    constructor
    · rintro ⟨w, hw⟩
      obtain ⟨-, hfirst, hlast⟩ := h.mem_of_route h.start_mem hw
      exact ⟨i - n.firstId, List.mem_range.mpr (by omega), by omega⟩
    · rintro ⟨k, hk, rfl⟩
      rw [List.mem_range] at hk
      exact hreached _ (by omega) (by omega)
  rw [hkeys]
  simpa [List.map_map, Function.comp_def] using hids.map stateName

theorem map_id_states (h : ∀ i s, n.states[i]? = some s → s.id = n.firstId + i) :
    n.states.toList.map State.id = (List.range n.size).map (n.firstId + ·) := by
  apply List.ext_getElem?
  intro i
  rw [List.getElem?_map, List.getElem?_map, Array.getElem?_toList]
  by_cases hi : i < n.size
  · have hs := Array.getElem?_eq_getElem hi
    rw [hs, Option.map_some, h i _ hs, List.getElem?_range hi, Option.map_some]
  · rw [Array.getElem?_eq_none (Nat.le_of_not_lt hi), List.getElem?_eq_none (by simpa using hi)]
    rfl

/-- What an empty arena has grown into is well shaped. -/
theorem wellShaped_fold {e : Expression} (he : e.Forward)
    (hlimit : (Arena.construction.fold e (.empty firstId)).2.top ≤ Arena.idLimit) :
    ((Arena.construction.fold e (.empty firstId)).2.toNfa (Arena.construction.fold e (.empty firstId)).1).WellShaped
      firstId e.postorder := by
  have hfaithful := faithful_fold (.empty firstId) he
  have hshaped := Arena.shaped_fold (.empty firstId) he
  rw [Arena.top_empty] at hfaithful
  -- From here on only what the facts above say of the arena counts, not how it was built.
  generalize Arena.construction.fold e (.empty firstId) = built at *
  obtain ⟨f, b⟩ := built
  obtain ⟨L, hgrows, -⟩ := hshaped.grown
  obtain rfl : b.firstId = firstId := hgrows.firstId_eq
  have hid : ∀ i s, b.states[i]? = some s → s.id = b.firstId + i := by
    intro i s hs
    apply hgrows.numbered (Arena.numbered_empty b.firstId)
    rw [Arena.state?, if_pos (Nat.le_add_right _ _), Nat.add_sub_cancel_left]
    exact hs
  have hnil {i : Nat} (hi : ∀ l j, ¬ (b.toNfa f).Edge i l j) : (b.toNfa f).out i = [] := by
    rw [List.eq_nil_iff_forall_not_mem]
    rintro ⟨l, j⟩ hmem
    exact hi l j (mem_out.mp hmem)
  refine ⟨rfl, hlimit, hid, ?_, ?_, hfaithful.part.entry_mem, hfaithful.part.exit_mem, hnil hfaithful.part.sink,
    hfaithful.part.reached, hfaithful.part.leads, Nat.add_left_cancel hshaped.top_eq, ?_⟩
  · intro i l j hmem
    have hedge := mem_out.mp hmem
    obtain ⟨hfirst, hlast⟩ := mem_range_of_edge hedge
    exact hfaithful.part.closed i l j hfirst hlast hedge
  · intro i
    by_cases hi : b.firstId ≤ i
    · rw [out_toNfa]
      exact hshaped.slender i hi
    · rw [hnil fun l j hedge => hi (mem_range_of_edge hedge).1]
      exact slender_nil
  · have hnames : (b.toNfa f).states.toList.map (fun s => stateName s.id) =
        (List.range (b.toNfa f).size).map fun i => stateName ((b.toNfa f).firstId + i) := by
      have hids := congrArg (List.map stateName) (map_id_states (n := b.toNfa f) hid)
      rwa [List.map_map, List.map_map] at hids
    rw [hnames]
    exact hfaithful.sound.keys_table_perm hfaithful.part.reached

/-- Whatever is built on a fresh arena is well shaped. -/
theorem wellShaped_of_ofPostfix? {pattern : String} {items : List Postfix}
    (h : ofPostfix? (.empty firstId) pattern items = .ok (.ok n)) : n.WellShaped firstId items := by
  obtain ⟨e, he, rfl, hlimit, rfl⟩ := ofPostfix?_eq_ok_iff.mp h
  exact wellShaped_fold he hlimit

/-- Two states for each of three characters and two alternations, two for the repetition: the last of the twelve ids is
the last id that there is. -/
theorem wellShaped_of_last_ids : ∃ n, ofPostfix? (.empty 0xfffffffffffffff4) "[a-c]*"
    [.operand (.range 'a' 'c'), .operator (.repetition .star)] = .ok (.ok n) ∧
    n.WellShaped 0xfffffffffffffff4 [.operand (.range 'a' 'c'), .operator (.repetition .star)] := by
  let e : Expression := .repetition .star (.operand (.range 'a' 'c'))
  have he : e.Forward := by decide
  have hlimit : (Arena.construction.fold e (.empty 0xfffffffffffffff4)).2.top ≤ Arena.idLimit := by
    rw [(Arena.shaped_fold _ he).top_eq]
    decide
  have hbuild : ofPostfix? (.empty 0xfffffffffffffff4) "[a-c]*" e.postorder = .ok (.ok _) :=
    ofPostfix?_eq_ok_iff.mpr ⟨e, he, rfl, hlimit, rfl⟩
  exact ⟨_, hbuild, wellShaped_of_ofPostfix? hbuild⟩

end Nfa

end PatternAutomata
