import Mathlib.Tactic.SplitIfs
import PatternAutomata.Table.Export

namespace PatternAutomata

/-- No text of one value is the beginning of a text of another. -/
def Delimited {α : Type} (f : α → List Char) : Prop := ∀ a b x y, f a ++ x = f b ++ y → a = b ∧ x = y

/-- A row of such texts is one itself if it is closed by what begins none of them. -/
theorem Delimited.flatMap {α : Type} {f : α → List Char} (hf : Delimited f) {stop : List Char}
    (hstop : ∀ a x y, f a ++ x ≠ stop ++ y) : Delimited fun as : List α => as.flatMap f ++ stop := by
  intro as bs x y h
  simp only [List.append_assoc] at h
  induction as generalizing bs with
  | nil =>
    cases bs with
    | nil => exact ⟨rfl, List.append_cancel_left h⟩
    | cons b bs =>
      rw [List.flatMap_nil, List.flatMap_cons, List.append_assoc] at h
      exact absurd h.symm (hstop b _ _)
  | cons a as ih =>
    cases bs with
    | nil =>
      rw [List.flatMap_nil, List.flatMap_cons, List.append_assoc] at h
      exact absurd h (hstop a _ _)
    | cons b bs =>
      rw [List.flatMap_cons, List.flatMap_cons, List.append_assoc, List.append_assoc] at h
      obtain ⟨rfl, hrest⟩ := hf a b _ _ h
      obtain ⟨rfl, hxy⟩ := ih bs hrest
      exact ⟨rfl, hxy⟩

namespace Dot

theorem escape_eq (c : Char) : escape c = if c = '\\' ∨ c = '\x22' then ['\\', c] else [c] := by
  unfold escape
  split
  · rfl
  · rfl
  · next hslash hquote => rw [if_neg (not_or.mpr ⟨hslash, hquote⟩)]

theorem delimited_escape : Delimited escape := by
  intro a b x y h
  rw [escape_eq, escape_eq] at h
  split_ifs at h with ha hb hb
  · simpa using h
  · obtain ⟨rfl, -⟩ := List.cons.inj h
    exact absurd (.inl rfl) hb
  · obtain ⟨rfl, -⟩ := List.cons.inj h
    exact absurd (.inl rfl) ha
  · simpa using h

/-- A quote within a name never stands where the name could end. -/
theorem escape_append_ne_quote (c : Char) (x y : List Char) : escape c ++ x ≠ ['\x22'] ++ y := by
  intro h
  rw [escape_eq] at h
  split_ifs at h with hc
  · cases (List.cons.inj h).1
  · exact hc (.inr (List.cons.inj h).1)

theorem delimited_quoted : Delimited fun s => (quoted s).toList := by
  intro s t x y h
  have htext (s : String) : (quoted s).toList = '\x22' :: (s.toList.flatMap escape ++ ['\x22']) := by
    simp [quoted]
  simp only [htext, List.cons_append] at h
  obtain ⟨hlist, hxy⟩ := delimited_escape.flatMap escape_append_ne_quote _ _ _ _ (List.cons.inj h).2
  exact ⟨String.toList_inj.mp hlist, hxy⟩

theorem delimited_shape : Delimited fun accepting : Bool => (if accepting then "doublecircle" else "circle").toList := by
  intro a b x y h
  cases a <;> cases b
  · exact ⟨rfl, List.append_cancel_left h⟩
  · simp at h
  · simp at h
  · exact ⟨rfl, List.append_cancel_left h⟩

theorem delimited_node : Delimited fun e : String × Bool => (node e.1 e.2).toList := by
  rintro ⟨name, accepting⟩ ⟨name', accepting'⟩ x y h
  simp only [node, String.toList_append, List.append_assoc] at h
  have hname := List.append_cancel_left h
  obtain ⟨rfl, hafter⟩ := delimited_quoted name name' _ _ hname
  have hshape := List.append_cancel_left hafter
  obtain ⟨rfl, hclose⟩ := delimited_shape accepting accepting' _ _ hshape
  exact ⟨rfl, List.append_cancel_left hclose⟩

theorem delimited_edge : Delimited fun e : String × String × String => (edge e.1 e.2.1 e.2.2).toList := by
  rintro ⟨source, target, symbol⟩ ⟨source', target', symbol'⟩ x y h
  simp only [edge, String.toList_append, List.append_assoc] at h
  have hsource := List.append_cancel_left h
  obtain ⟨rfl, harrow⟩ := delimited_quoted source source' _ _ hsource
  have htarget := List.append_cancel_left harrow
  obtain ⟨rfl, hlabel⟩ := delimited_quoted target target' _ _ htarget
  have hsymbol := List.append_cancel_left hlabel
  obtain ⟨rfl, hclose⟩ := delimited_quoted symbol symbol' _ _ hsymbol
  exact ⟨rfl, List.append_cancel_left hclose⟩

end Dot

namespace Table

variable {t u : Table}

def nodes (t : Table) : List (String × Bool) := t.states.entries.map fun e => (e.1, e.2.accepting)

/-- The arrow into the start comes after the states and is not taken for one. -/
theorem node_append_ne_entry (e : String × Bool) (x y : List Char) :
    (Dot.node e.1 e.2).toList ++ x ≠ "    __start -> ".toList ++ y := by
  simp [Dot.node, Dot.quoted]

/-- The closing brace comes after the edges and is not taken for one. -/
theorem edge_append_ne_close (e : String × String × String) (x y : List Char) :
    (Dot.edge e.1 e.2.1 e.2.2).toList ++ x ≠ "\x7d\n".toList ++ y := by
  simp [Dot.edge]

theorem toList_toDot (t : Table) : t.toDot.toList =
    "digraph \x7b\n    rankdir=LR;\n    __start [shape=none, label=\"\"];\n".toList ++
      (t.nodes.flatMap (fun e => (Dot.node e.1 e.2).toList) ++ "    __start -> ".toList ++
        ((Dot.quoted t.start).toList ++ (";\n".toList ++
          (t.edges.flatMap (fun e => (Dot.edge e.1 e.2.1 e.2.2).toList) ++ "\x7d\n".toList)))) := by
  unfold toDot nodes
  simp only [String.toList_append, String.toList_join, List.flatMap_map, List.append_assoc]

/-- Two tables have the same drawing exactly if they have the same start, the same states in the same order with the
same acceptance, and the same edges in the same order. -/
theorem toDot_eq_iff : t.toDot = u.toDot ↔ t.start = u.start ∧ t.nodes = u.nodes ∧ t.edges = u.edges := by
  rw [← String.toList_inj, toList_toDot, toList_toDot]
  constructor
  · intro h
    have hlist := List.append_cancel_left h
    obtain ⟨hnodes, hentry⟩ := Dot.delimited_node.flatMap node_append_ne_entry t.nodes u.nodes _ _ hlist
    obtain ⟨hstart, hafter⟩ := Dot.delimited_quoted t.start u.start _ _ hentry
    have hlines := congrArg (· ++ []) (List.append_cancel_left hafter)
    obtain ⟨hedges, -⟩ := Dot.delimited_edge.flatMap edge_append_ne_close t.edges u.edges [] [] hlines
    exact ⟨hstart, hnodes, hedges⟩
  · rintro ⟨hstart, hnodes, hedges⟩
    rw [hstart, hnodes, hedges]

end Table

end PatternAutomata
