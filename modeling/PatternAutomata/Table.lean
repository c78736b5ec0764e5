import PatternAutomata.Ascending
import PatternAutomata.Listing

namespace PatternAutomata

/-- Where a symbol leads. One name and a list of one name are different entries. -/
inductive Targets
  | one (name : String)
  | many (names : List String)
deriving DecidableEq

def Targets.names : Targets → List String
  | one name => [name]
  | many names => names

structure Table.State where
  accepting : Bool
  moves : Listing String Targets
deriving DecidableEq

structure Table where
  start : String
  states : Listing String Table.State
deriving DecidableEq

namespace Table

def new (start : String) : Table := ⟨start, .empty⟩

def size (t : Table) : Nat := t.states.size

/-- Adds a state or changes the acceptance of one that is there, and gives it further moves. A symbol
that the state has keeps its place and takes the new targets. -/
def define (t : Table) (name : String) (accepting : Bool) (moves : List (String × Targets)) : Table :=
  let before := ((t.states.get? name).map (·.moves)).getD .empty
  { t with states := t.states.insert name ⟨accepting, moves.foldl (fun l m => l.insert m.1 m.2) before⟩ }

theorem start_define (t : Table) (name : String) (accepting : Bool) (moves : List (String × Targets)) :
    (t.define name accepting moves).start = t.start := rfl

/-- A new state comes last. -/
theorem entries_define {t : Table} {name : String} (h : name ∉ t.states.keys) (accepting : Bool)
    (moves : List (String × Targets)) :
    (t.define name accepting moves).states.entries = t.states.entries ++ [(name, ⟨accepting, .ofList moves⟩)] := by
  rw [define, Listing.get?_eq_none_iff.mpr h]
  exact Listing.putEntry_of_not_mem h

/-- States with names of their own are listed as they are defined. -/
theorem entries_foldl_define {ι : Type} (name : ι → String) (accepting : ι → Bool)
    (moves : ι → List (String × Targets)) {xs : List ι} {t : Table} (h : (t.states.keys ++ xs.map name).Nodup) :
    (xs.foldl (fun t x => t.define (name x) (accepting x) (moves x)) t).states.entries =
      t.states.entries ++ xs.map fun x => (name x, ⟨accepting x, .ofList (moves x)⟩) := by
  induction xs generalizing t with
  | nil => rw [List.foldl_nil, List.map_nil, List.append_nil]
  | cons x xs ih =>
    rw [List.map_cons, List.append_cons] at h
    have hnew : name x ∉ t.states.keys := by
      intro hmem
      have hleft := List.nodup_append.mp (List.nodup_append.mp h).1
      exact hleft.2.2 _ hmem _ (List.mem_singleton_self _) rfl
    have hentries := entries_define hnew (accepting x) (moves x)
    rw [List.foldl_cons, ih, hentries, List.append_assoc]
    · rfl
    · rw [Listing.keys, hentries, List.map_append]
      exact h

theorem start_foldl_define {ι : Type} (name : ι → String) (accepting : ι → Bool)
    (moves : ι → List (String × Targets)) (xs : List ι) (t : Table) :
    (xs.foldl (fun t x => t.define (name x) (accepting x) (moves x)) t).start = t.start := by
  induction xs generalizing t with
  | nil => rfl
  | cons x xs ih => rw [List.foldl_cons, ih, start_define]

/-- A table is what its states define in their order. -/
theorem foldl_define_entries (t : Table) :
    t.states.entries.foldl (fun u e => u.define e.1 e.2.accepting e.2.moves.entries) (.new t.start) = t := by
  have hentries := entries_foldl_define Prod.fst (fun e : String × State => e.2.accepting)
    (fun e => e.2.moves.entries) (t := .new t.start) t.states.nodup_keys
  have hstart := start_foldl_define Prod.fst (fun e : String × State => e.2.accepting)
    (fun e => e.2.moves.entries) t.states.entries (.new t.start)
  simp only [Listing.ofList_entries] at hentries
  exact congr (congrArg mk hstart) (Listing.eq_of_entries_eq (hentries.trans (List.map_id _)))

def isAccepting (t : Table) (name : String) : Bool := (t.states.get? name).any (·.accepting)

def acceptingNames (t : Table) : List String :=
  ascending ((t.states.entries.filter (·.2.accepting)).map Prod.fst)

def moves (t : Table) (name : String) : Listing String Targets :=
  ((t.states.get? name).map (·.moves)).getD .empty

def symbols (t : Table) (name : String) : List String := ascending (t.moves name).keys

def targets (t : Table) (name symbol : String) : List String :=
  (((t.moves name).get? symbol).map Targets.names).getD []

/-- Every edge as source, target and symbol, in listing order. -/
def edges (t : Table) : List (String × String × String) :=
  t.states.entries.flatMap fun e =>
    e.2.moves.entries.flatMap fun m => m.2.names.map fun target => (e.1, target, m.1)

def same (t u : Table) : Bool :=
  t.start == u.start && t.states.size == u.states.size &&
    t.states.entries.all fun e =>
      (u.states.get? e.1).any fun s => s.accepting == e.2.accepting && e.2.moves.sameMap s.moves

/-- The states met so far, and those of the next level. -/
structure Front where
  seen : List String
  level : List String

def Front.visit (f : Front) (name : String) : Front :=
  if f.seen.contains name then f else ⟨name :: f.seen, f.level ++ [name]⟩

def successors (t : Table) (name : String) : List String := (t.symbols name).flatMap (t.targets name)

def row (t : Table) (name : String) : Bool × List (String × Nat) :=
  (t.isAccepting name, (t.symbols name).map fun s => (s, (t.targets name s).length))

def nextFront (t : Table) (seen level : List String) : Front :=
  (level.flatMap t.successors).foldl Front.visit ⟨seen, []⟩

/-- Walks on from two levels, through at most `bound` of them. -/
def walkInStep (t u : Table) : Nat → Front → Front → Bool
  | 0, _, _ => false
  | bound + 1, f, g =>
    match f.level, g.level with
    | [], [] => true
    | _, _ =>
      f.level.length == g.level.length &&
        (f.level.zip g.level).all (fun p => t.row p.1 == u.row p.2) &&
        walkInStep t u bound (t.nextFront f.seen f.level) (u.nextFront g.seen g.level)

/-- Walks through two tables in step, level by level. Paired states must agree in acceptance, in their symbols and in the
number of targets of each. Every level but the first holds a target that is new, so the number of edges bounds them. -/
def equivalent (t u : Table) : Bool :=
  walkInStep t u (t.edges.length + 2) ⟨[t.start], [t.start]⟩ ⟨[u.start], [u.start]⟩

end Table

end PatternAutomata
