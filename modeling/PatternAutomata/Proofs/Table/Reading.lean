import Mathlib.Data.List.Forall2
import PatternAutomata.Proofs.Json.Distinct
import PatternAutomata.Table.Record

namespace PatternAutomata

section Results

variable {ε α β : Type} {f : α → Except ε β} {xs : List α} {ys : List β} {e : ε}

theorem bind_eq_ok_iff {r : Except ε α} {g : α → Except ε β} {b : β} :
    r >>= g = .ok b ↔ ∃ a, r = .ok a ∧ g a = .ok b := by
  cases r <;> simp [bind, Except.bind]

theorem map_eq_ok_iff {r : Except ε α} {g : α → β} {b : β} : r.map g = .ok b ↔ ∃ a, r = .ok a ∧ g a = b := by
  cases r <;> simp [Except.map]

theorem map_eq_error_iff {r : Except ε α} {g : α → β} : r.map g = .error e ↔ r = .error e := by
  cases r <;> simp [Except.map]

theorem mapM_eq_ok_iff : xs.mapM f = .ok ys ↔ List.Forall₂ (fun x y => f x = .ok y) xs ys := by
  induction xs generalizing ys with
  | nil =>
    rw [List.mapM_nil, List.forall₂_nil_left_iff]
    exact ⟨fun h => by cases h; rfl, fun h => by rw [h]; rfl⟩
  | cons x xs ih =>
    rw [List.mapM_cons, bind_eq_ok_iff]
    constructor
    · rintro ⟨y, hy, h⟩
      obtain ⟨ys, hys, h⟩ := bind_eq_ok_iff.mp h
      cases h
      exact .cons hy (ih.mp hys)
    · rintro (_ | ⟨hy, hys⟩)
      exact ⟨_, hy, bind_eq_ok_iff.mpr ⟨_, ih.mpr hys, rfl⟩⟩

theorem mapM_cons_eq_error_iff {x : α} :
    (x :: xs).mapM f = .error e ↔ f x = .error e ∨ ∃ y, f x = .ok y ∧ xs.mapM f = .error e := by
  rw [List.mapM_cons]
  cases f x with
  | error _ => simp [bind, Except.bind]
  | ok y => cases xs.mapM f <;> simp [bind, Except.bind, pure, Except.pure]

end Results

namespace Record

inductive IsTargets : Json → Prop
  | one (name : String) : IsTargets (.string name)
  | many (names : List String) : IsTargets (.array (names.map .string))

/-- The fields of a state tell whether it accepts: not if they say nothing. -/
def Tells (fields : List (String × Json)) (accepting : Bool) : Prop :=
  (fields.lookup acceptingKey).getD (.bool false) = .bool accepting

/-- An object that tells acceptance, with targets under every other key. -/
def IsState (v : Json) : Prop :=
  ∃ fields, v = .object fields ∧ (∃ accepting, Tells fields accepting) ∧
    ∀ f ∈ fields, f.1 ≠ acceptingKey → IsTargets f.2

/-- An object that names the start, with states under every other key. -/
def IsTable (v : Json) : Prop :=
  ∃ fields, v = .object fields ∧ (∃ start, fields.lookup startKey = some (.string start)) ∧
    ∀ f ∈ fields, f.1 ≠ startKey → IsState f.2

def others (key : String) (fields : List (String × Json)) : List (String × Json) := fields.filter (·.1 != key)

def IsMove (f : String × Json) (m : String × Targets) : Prop := m.1 = f.1 ∧ f.2 = ofTargets m.2

/-- The field gives the name, the acceptance and the moves, each symbol with its targets in listing order. -/
def Gives (f : String × Json) (name : String) (accepting : Bool) (moves : List (String × Targets)) : Prop :=
  name = f.1 ∧ ∃ fields, f.2 = .object fields ∧ Tells fields accepting ∧
    List.Forall₂ IsMove (others acceptingKey fields) moves

/-- The value gives the start of the table and its states in listing order. -/
def Describes (v : Json) (t : Table) : Prop :=
  ∃ fields, v = .object fields ∧ fields.lookup startKey = some (.string t.start) ∧
    List.Forall₂ (fun f e => Gives f e.1 e.2.accepting e.2.moves.entries) (others startKey fields) t.states.entries

inductive FirstBad (key : String) (good : Json → Prop) : List (String × Json) → String × Json → Prop
  | here {f : String × Json} {fields : List (String × Json)} (hkey : f.1 ≠ key) (hbad : ¬ good f.2) :
    FirstBad key good (f :: fields) f
  | there {f g : String × Json} {fields : List (String × Json)} (hgood : f.1 ≠ key → good f.2)
      (h : FirstBad key good fields g) : FirstBad key good (f :: fields) g

/-- What is reported of a value that is not a state. -/
inductive RefusesState (name : String) : Json → RecordError → Prop
  | state {v : Json} (h : ∀ fields accepting, v = .object fields → ¬ Tells fields accepting) :
    RefusesState name v (.invalidState name)
  | target {fields : List (String × Json)} {accepting : Bool} {f : String × Json} (htells : Tells fields accepting)
      (hbad : FirstBad acceptingKey IsTargets fields f) : RefusesState name (.object fields) (.invalidTarget name f.1)

/-- What is reported of a value that is not the record of a table. -/
inductive Refuses : Json → RecordError → Prop
  | notAnObject {v : Json} (h : ∀ fields, v ≠ .object fields) : Refuses v .notAnObject
  | missingStart {fields : List (String × Json)} (h : ∀ start, fields.lookup startKey ≠ some (.string start)) :
    Refuses (.object fields) .missingStart
  | state {fields : List (String × Json)} {start : String} {f : String × Json} {e : RecordError}
      (hstart : fields.lookup startKey = some (.string start)) (hbad : FirstBad startKey IsState fields f)
      (hstate : RefusesState f.1 f.2 e) : Refuses (.object fields) e

section Fields

variable {β : Type} {key : String} {good : Json → Prop} {f : String × Json} {fields : List (String × Json)}
  {read : String × Json → Except RecordError β} {e : RecordError}

theorem others_cons_of_eq (h : f.1 = key) : others key (f :: fields) = others key fields :=
  List.filter_cons_of_neg (by simpa using h)

theorem others_cons_of_ne (h : f.1 ≠ key) : others key (f :: fields) = f :: others key fields :=
  List.filter_cons_of_pos (by simpa using h)

theorem mem_others : f ∈ others key fields ↔ f ∈ fields ∧ f.1 ≠ key := by
  rw [others, List.mem_filter, bne_iff_ne]

theorem nodup_keys_others (h : (fields.map Prod.fst).Nodup) (key : String) :
    ((others key fields).map Prod.fst).Nodup :=
  h.sublist (List.filter_sublist.map _)

theorem not_mem_keys_others (key : String) (fields : List (String × Json)) :
    key ∉ (others key fields).map Prod.fst := by
  intro h
  obtain ⟨f, hf, hkey⟩ := List.mem_map.mp h
  exact (mem_others.mp hf).2 hkey

theorem FirstBad.not_good (h : FirstBad key good fields f) : ¬ good f.2 := by
  induction h with
  | here _ hbad => exact hbad
  | there _ _ ih => exact ih

theorem FirstBad.mem_others (h : FirstBad key good fields f) : f ∈ others key fields := by
  rw [Record.mem_others]
  induction h with
  | here hkey _ => exact ⟨List.mem_cons_self, hkey⟩
  | there _ _ ih => exact ⟨List.mem_cons_of_mem _ ih.1, ih.2⟩

theorem exists_firstBad (h : ¬ ∀ f ∈ fields, f.1 ≠ key → good f.2) : ∃ f, FirstBad key good fields f := by
  induction fields with
  | nil => exact absurd (fun _ hf => absurd hf List.not_mem_nil) h
  | cons f fields ih =>
    by_cases hf : f.1 ≠ key → good f.2
    · obtain ⟨g, hg⟩ := ih fun hall => h (List.forall_mem_cons.mpr ⟨hf, hall⟩)
      exact ⟨g, .there hf hg⟩
    · obtain ⟨hkey, hbad⟩ := Classical.not_imp.mp hf
      exact ⟨f, .here hkey hbad⟩

/-- All other fields are read if all are good. -/
theorem exists_mapM_others_iff (hread : ∀ f, (∃ b, read f = .ok b) ↔ good f.2) :
    (∃ bs, (others key fields).mapM read = .ok bs) ↔ ∀ f ∈ fields, f.1 ≠ key → good f.2 := by
  induction fields with
  | nil => exact ⟨fun _ _ hf => absurd hf List.not_mem_nil, fun _ => ⟨[], rfl⟩⟩
  | cons f fields ih =>
    rw [List.forall_mem_cons, ← ih]
    by_cases hkey : f.1 = key
    · rw [others_cons_of_eq hkey]
      exact ⟨fun h => ⟨fun hne => absurd hkey hne, h⟩, fun h => h.2⟩
    · rw [others_cons_of_ne hkey, List.mapM_cons, ← hread]
      simp only [bind_eq_ok_iff]
      constructor
      · rintro ⟨bs, b, hb, rest, hrest, -⟩
        exact ⟨fun _ => ⟨b, hb⟩, rest, hrest⟩
      · rintro ⟨hb, rest, hrest⟩
        obtain ⟨b, hb⟩ := hb hkey
        exact ⟨_, b, hb, rest, hrest, rfl⟩

/-- Otherwise the first one that is not good is refused. -/
theorem mapM_others_eq_error_iff (hread : ∀ f, (∃ b, read f = .ok b) ↔ good f.2) :
    (others key fields).mapM read = .error e ↔ ∃ f, FirstBad key good fields f ∧ read f = .error e := by
  induction fields with
  | nil =>
    constructor
    · intro h
      cases h
    · rintro ⟨_, h, -⟩
      cases h
  | cons f fields ih =>
    -- The field under the key itself is no concern of the pass, so it is never the first bad one.
    by_cases hkey : f.1 = key
    · rw [others_cons_of_eq hkey, ih]
      constructor
      · rintro ⟨g, hg, he⟩
        exact ⟨g, .there (fun hne => absurd hkey hne) hg, he⟩
      · rintro ⟨g, hfirst, he⟩
        cases hfirst with
        | here hne _ => exact absurd hkey hne
        | there _ hg => exact ⟨g, hg, he⟩
    · rw [others_cons_of_ne hkey, mapM_cons_eq_error_iff, ih]
      constructor
      · rintro (herror | ⟨b, hb, g, hg, he⟩)
        · refine ⟨f, .here hkey fun hgood => ?_, herror⟩
          obtain ⟨b, hb⟩ := (hread f).mpr hgood
          rw [herror] at hb
          cases hb
        · exact ⟨g, .there (fun _ => (hread f).mp ⟨b, hb⟩) hg, he⟩
      · rintro ⟨g, hfirst, he⟩
        cases hfirst with
        | here _ _ => exact .inl he
        | there hgood hg =>
          obtain ⟨b, hb⟩ := (hread f).mpr (hgood hkey)
          exact .inr ⟨b, hb, g, hg, he⟩

end Fields

variable {v : Json} {state : String} {f : String × Json} {fields : List (String × Json)} {accepting : Bool}
  {m : String × Targets} {moves : List (String × Targets)} {x : Targets} {e : RecordError} {t : Table}

theorem accepting?_eq_some_iff : accepting? fields = some accepting ↔ Tells fields accepting := by
  rw [accepting?, Tells]
  cases fields.lookup acceptingKey with
  | none => simp [eq_comm]
  | some v => cases v <;> simp

theorem name?_eq_some_iff {name : String} : name? v = some name ↔ v = .string name := by
  cases v <;> simp [name?]

theorem eq_map_of_mapM_name? {items : List Json} {names : List String} (h : items.mapM name? = some names) :
    items = names.map .string := by
  induction items generalizing names with
  | nil =>
    cases h
    rfl
  | cons v items ih =>
    rw [List.mapM_cons] at h
    obtain ⟨name, hname, h⟩ := Option.bind_eq_some_iff.mp h
    obtain ⟨rest, hrest, h⟩ := Option.bind_eq_some_iff.mp h
    cases h
    rw [name?_eq_some_iff.mp hname, ih hrest]
    rfl

theorem targets?_ofTargets (x : Targets) : targets? (ofTargets x) = some x := by
  cases x with
  | one name => rfl
  | many names =>
    have hnames : (names.map Json.string).mapM name? = some names := by
      induction names with
      | nil => rfl
      | cons name names ih =>
        rw [List.map_cons, List.mapM_cons, ih]
        rfl
    rw [ofTargets, targets?, hnames]
    rfl

theorem targets?_eq_some_iff : targets? v = some x ↔ v = ofTargets x := by
  constructor
  · intro h
    cases v with
    | string name =>
      cases h
      rfl
    | array items =>
      obtain ⟨names, hnames, rfl⟩ := Option.map_eq_some_iff.mp h
      rw [eq_map_of_mapM_name? hnames]
      rfl
    | null => cases h
    | bool b => cases h
    | number digits => cases h
    | object fields => cases h
  · rintro rfl
    exact targets?_ofTargets x

theorem isTargets_iff : IsTargets v ↔ ∃ x, v = ofTargets x := by
  constructor
  · rintro (name | names)
    · exact ⟨.one name, rfl⟩
    · exact ⟨.many names, rfl⟩
  · rintro ⟨name | names, rfl⟩
    · exact .one name
    · exact .many names

def move? (state : String) (f : String × Json) : Except RecordError (String × Targets) :=
  match targets? f.2 with
  | some targets => .ok (f.1, targets)
  | none => .error (.invalidTarget state f.1)

theorem moves?_eq (state : String) (fields : List (String × Json)) :
    moves? state fields = (others acceptingKey fields).mapM (move? state) := rfl

theorem move?_eq_ok_iff : move? state f = .ok m ↔ IsMove f m := by
  obtain ⟨symbol, x⟩ := m
  rw [move?, IsMove, ← targets?_eq_some_iff]
  cases targets? f.2 with
  | none => simp
  | some y => simp [eq_comm]

theorem move?_eq_error_iff : move? state f = .error e ↔ ¬ IsTargets f.2 ∧ .invalidTarget state f.1 = e := by
  rw [move?, isTargets_iff]
  simp only [← targets?_eq_some_iff]
  cases targets? f.2 with
  | none => simp
  | some y => simp

theorem exists_move?_iff (state : String) (f : String × Json) : (∃ m, move? state f = .ok m) ↔ IsTargets f.2 := by
  rw [isTargets_iff]
  simp only [move?_eq_ok_iff, IsMove]
  exact ⟨fun ⟨m, _, hm⟩ => ⟨m.2, hm⟩, fun ⟨x, hx⟩ => ⟨(f.1, x), rfl, hx⟩⟩

theorem moves?_eq_ok_iff : moves? state fields = .ok moves ↔ List.Forall₂ IsMove (others acceptingKey fields) moves := by
  rw [moves?_eq, mapM_eq_ok_iff]
  simp only [move?_eq_ok_iff]

theorem exists_moves?_iff (state : String) : (∃ moves, moves? state fields = .ok moves) ↔
    ∀ f ∈ fields, f.1 ≠ acceptingKey → IsTargets f.2 :=
  exists_mapM_others_iff (exists_move?_iff state)

theorem moves?_eq_error_iff : moves? state fields = .error e ↔
    ∃ f, FirstBad acceptingKey IsTargets fields f ∧ .invalidTarget state f.1 = e := by
  rw [moves?_eq, mapM_others_eq_error_iff (exists_move?_iff state)]
  simp only [move?_eq_error_iff]
  constructor
  · rintro ⟨f, hf, -, he⟩
    exact ⟨f, hf, he⟩
  · rintro ⟨f, hf, he⟩
    exact ⟨f, hf, hf.not_good, he⟩

def state? (f : String × Json) : Except RecordError (String × Bool × List (String × Targets)) :=
  match f.2 with
  | .object fields =>
    match accepting? fields with
    | none => .error (.invalidState f.1)
    | some accepting => (moves? f.1 fields).map fun moves => (f.1, accepting, moves)
  | _ => .error (.invalidState f.1)

theorem state?_of_tells (hf : f.2 = .object fields) (h : Tells fields accepting) :
    state? f = (moves? f.1 fields).map fun moves => (f.1, accepting, moves) := by
  rw [state?, hf]
  dsimp only
  rw [accepting?_eq_some_iff.mpr h]

theorem state?_of_not_tells (h : ∀ fields accepting, f.2 = .object fields → ¬ Tells fields accepting) :
    state? f = .error (.invalidState f.1) := by
  rw [state?]
  split
  · next fields hf =>
    have hnone : accepting? fields = none := by
      rw [Option.eq_none_iff_forall_ne_some]
      intro accepting haccepting
      exact h fields accepting hf (accepting?_eq_some_iff.mp haccepting)
    rw [hnone]
  · rfl

/-- Adding a state is reading it and then defining it, so that what can go wrong does not depend on the table. -/
theorem addState_eq (t : Table) (f : String × Json) :
    addState t f = (state? f).map fun s => t.define s.1 s.2.1 s.2.2 := by
  obtain ⟨name, v⟩ := f
  cases v with
  | object fields =>
    rw [addState, state?]
    dsimp only
    cases accepting? fields with
    | none => rfl
    | some accepting =>
      dsimp only
      cases moves? name fields <;> rfl
  | null => rfl
  | bool b => rfl
  | number digits => rfl
  | string s => rfl
  | array items => rfl

theorem foldlM_addState_eq (t : Table) (fs : List (String × Json)) :
    fs.foldlM addState t = (fs.mapM state?).map fun ss => ss.foldl (fun t s => t.define s.1 s.2.1 s.2.2) t := by
  induction fs generalizing t with
  | nil => rfl
  | cons f fs ih =>
    rw [List.foldlM_cons, List.mapM_cons, addState_eq]
    cases state? f with
    | error _ => rfl
    | ok s =>
      show fs.foldlM addState (t.define s.1 s.2.1 s.2.2) = _
      rw [ih]
      cases fs.mapM state? <;> rfl

/-- Either the value is an object that tells acceptance, or it is refused for that. -/
theorem tells_or_not (v : Json) : (∃ fields accepting, v = .object fields ∧ Tells fields accepting) ∨
    ∀ fields accepting, v = .object fields → ¬ Tells fields accepting := by
  by_cases h : ∃ fields accepting, v = .object fields ∧ Tells fields accepting
  · exact .inl h
  · exact .inr fun fields accepting hv htells => h ⟨fields, accepting, hv, htells⟩

theorem Tells.unique {accepting' : Bool} (h : Tells fields accepting) (h' : Tells fields accepting') :
    accepting = accepting' :=
  Json.bool.inj (h.symm.trans h')

theorem state?_eq_ok_iff {name : String} : state? f = .ok (name, accepting, moves) ↔ Gives f name accepting moves := by
  rcases tells_or_not f.2 with ⟨fields, told, hf, htells⟩ | hnot
  · rw [state?_of_tells hf htells, map_eq_ok_iff]
    constructor
    · rintro ⟨moves, hmoves, h⟩
      cases h
      exact ⟨rfl, fields, hf, htells, moves?_eq_ok_iff.mp hmoves⟩
    · rintro ⟨rfl, fields', hf', htells', hmoves⟩
      obtain rfl := Json.object.inj (hf.symm.trans hf')
      obtain rfl := htells.unique htells'
      exact ⟨moves, moves?_eq_ok_iff.mpr hmoves, rfl⟩
  · rw [state?_of_not_tells hnot]
    constructor
    · intro h
      cases h
    · rintro ⟨-, fields, hf, htells, -⟩
      exact absurd htells (hnot fields accepting hf)

theorem exists_state?_iff (f : String × Json) : (∃ s, state? f = .ok s) ↔ IsState f.2 := by
  constructor
  · rintro ⟨⟨name, accepting, moves⟩, h⟩
    obtain ⟨-, fields, hf, htells, hmoves⟩ := state?_eq_ok_iff.mp h
    exact ⟨fields, hf, ⟨accepting, htells⟩, (exists_moves?_iff f.1).mp ⟨moves, moves?_eq_ok_iff.mpr hmoves⟩⟩
  · rintro ⟨fields, hf, ⟨accepting, htells⟩, hgood⟩
    obtain ⟨moves, hmoves⟩ := (exists_moves?_iff f.1).mpr hgood
    exact ⟨_, state?_eq_ok_iff.mpr ⟨rfl, fields, hf, htells, moves?_eq_ok_iff.mp hmoves⟩⟩

theorem state?_eq_error_iff : state? f = .error e ↔ RefusesState f.1 f.2 e := by
  rcases tells_or_not f.2 with ⟨fields, accepting, hf, htells⟩ | hnot
  · rw [state?_of_tells hf htells, map_eq_error_iff, moves?_eq_error_iff, hf]
    constructor
    · rintro ⟨m, hm, rfl⟩
      exact .target htells hm
    · intro h
      cases h with
      | state hnot => exact absurd htells (hnot fields accepting rfl)
      | target _ hm => exact ⟨_, hm, rfl⟩
  · rw [state?_of_not_tells hnot]
    constructor
    · intro h
      cases h
      exact .state hnot
    · generalize f.2 = v at hnot
      intro h
      cases h with
      | state _ => rfl
      | target htells _ => exact absurd htells (hnot _ _ rfl)

variable {start : String}

theorem toTable?_of_not_object (h : ∀ fields, v ≠ .object fields) : toTable? v = .error .notAnObject := by
  cases v with
  | object fields => exact absurd rfl (h fields)
  | null => rfl
  | bool b => rfl
  | number digits => rfl
  | string s => rfl
  | array items => rfl

theorem toTable?_of_no_start (h : ∀ start, fields.lookup startKey ≠ some (.string start)) :
    toTable? (.object fields) = .error .missingStart := by
  rw [toTable?]
  split
  · next start hstart => exact absurd hstart (h start)
  · rfl

theorem toTable?_of_start (h : fields.lookup startKey = some (.string start)) :
    toTable? (.object fields) = ((others startKey fields).mapM state?).map fun ss =>
      ss.foldl (fun t s => t.define s.1 s.2.1 s.2.2) (.new start) := by
  rw [toTable?, h]
  exact foldlM_addState_eq _ _

/-- From the outside in, a value is no object, or an object without a start, or an object with one. -/
theorem start_cases (v : Json) : (∀ fields, v ≠ .object fields) ∨ ∃ fields, v = .object fields ∧
    ((∀ start, fields.lookup startKey ≠ some (.string start)) ∨
      ∃ start, fields.lookup startKey = some (.string start)) := by
  by_cases hv : ∃ fields, v = .object fields
  · obtain ⟨fields, rfl⟩ := hv
    by_cases hstart : ∃ start, fields.lookup startKey = some (.string start)
    · exact .inr ⟨fields, rfl, .inr hstart⟩
    · exact .inr ⟨fields, rfl, .inl (not_exists.mp hstart)⟩
  · exact .inl (not_exists.mp hv)

theorem exists_toTable?_iff (v : Json) : (∃ t, toTable? v = .ok t) ↔ IsTable v := by
  obtain hv | ⟨fields, rfl, hno | ⟨start, hstart⟩⟩ := start_cases v
  · rw [toTable?_of_not_object hv]
    constructor
    · rintro ⟨_, h⟩
      cases h
    · rintro ⟨fields, rfl, -⟩
      exact absurd rfl (hv fields)
  · rw [toTable?_of_no_start hno]
    constructor
    · rintro ⟨_, h⟩
      cases h
    · rintro ⟨_, h, ⟨start, hstart⟩, -⟩
      cases h
      exact absurd hstart (hno start)
  · rw [toTable?_of_start hstart]
    simp only [map_eq_ok_iff]
    constructor
    · rintro ⟨_, ss, hss, -⟩
      exact ⟨fields, rfl, ⟨start, hstart⟩, (exists_mapM_others_iff exists_state?_iff).mp ⟨ss, hss⟩⟩
    · rintro ⟨_, h, -, hgood⟩
      cases h
      obtain ⟨ss, hss⟩ := (exists_mapM_others_iff exists_state?_iff).mpr hgood
      exact ⟨_, ss, hss, rfl⟩

theorem toTable?_eq_error_iff : toTable? v = .error e ↔ Refuses v e := by
  obtain hv | ⟨fields, rfl, hno | ⟨start, hstart⟩⟩ := start_cases v
  · rw [toTable?_of_not_object hv]
    constructor
    · intro h
      cases h
      exact .notAnObject hv
    · intro h
      cases h with
      | notAnObject _ => rfl
      | missingStart _ => exact absurd rfl (hv _)
      | state _ _ _ => exact absurd rfl (hv _)
  · rw [toTable?_of_no_start hno]
    constructor
    · intro h
      cases h
      exact .missingStart hno
    · intro h
      cases h with
      | notAnObject h => exact absurd rfl (h fields)
      | missingStart _ => rfl
      | state hstart _ _ => exact absurd hstart (hno _)
  · rw [toTable?_of_start hstart, map_eq_error_iff, mapM_others_eq_error_iff exists_state?_iff]
    simp only [state?_eq_error_iff]
    constructor
    · rintro ⟨f, hf, he⟩
      exact .state hstart hf he
    · intro h
      cases h with
      | notAnObject h => exact absurd rfl (h fields)
      | missingStart h => exact absurd hstart (h start)
      | state _ hf he => exact ⟨_, hf, he⟩

theorem map_fst_eq_of_forall₂ {α β : Type} {R : String × α → String × β → Prop} (hR : ∀ a b, R a b → b.1 = a.1)
    {as : List (String × α)} {bs : List (String × β)} (h : List.Forall₂ R as bs) :
    bs.map Prod.fst = as.map Prod.fst := by
  induction h with
  | nil => rfl
  | cons hab _ ih => rw [List.map_cons, List.map_cons, hR _ _ hab, ih]

theorem exists_of_mem_right {α β : Type} {R : α → β → Prop} {as : List α} {bs : List β} (h : List.Forall₂ R as bs)
    {b : β} (hb : b ∈ bs) : ∃ a ∈ as, R a b := by
  induction h with
  | nil => cases hb
  | cons hab _ ih =>
    obtain rfl | hb := List.mem_cons.mp hb
    · exact ⟨_, List.mem_cons_self, hab⟩
    · obtain ⟨a, ha, hab⟩ := ih hb
      exact ⟨a, List.mem_cons_of_mem _ ha, hab⟩

theorem Gives.isState {name : String} (h : Gives f name accepting moves) : IsState f.2 :=
  (exists_state?_iff f).mp ⟨_, state?_eq_ok_iff.mpr h⟩

theorem Gives.not_mem_keys {name : String} (h : Gives f name accepting moves) : acceptingKey ∉ moves.map Prod.fst := by
  obtain ⟨-, fields, -, -, hmoves⟩ := h
  rw [map_fst_eq_of_forall₂ (fun _ _ h => h.1) hmoves]
  exact not_mem_keys_others acceptingKey fields

/-- The symbols of a state come as they are listed. -/
theorem Gives.entries_ofList {name : String} (h : Gives f name accepting moves) (hf : f.2.Distinct) :
    (Listing.ofList moves).entries = moves := by
  obtain ⟨-, fields, hfields, -, hmoves⟩ := h
  rw [hfields] at hf
  apply Listing.entries_ofList
  rw [map_fst_eq_of_forall₂ (fun _ _ h => h.1) hmoves]
  exact nodup_keys_others hf.nodup_keys acceptingKey

/-- What a value describes is read of it. -/
theorem Describes.toTable?_eq (h : Describes v t) : toTable? v = .ok t := by
  obtain ⟨fields, rfl, hstart, hstates⟩ := h
  rw [toTable?_of_start hstart, map_eq_ok_iff]
  refine ⟨t.states.entries.map fun e => (e.1, e.2.accepting, e.2.moves.entries), ?_, ?_⟩
  · rw [mapM_eq_ok_iff, List.forall₂_map_right_iff]
    simpa only [state?_eq_ok_iff] using hstates
  · rw [List.foldl_map]
    exact t.foldl_define_entries

theorem toTable?_eq_ok_iff (hv : v.Distinct) : toTable? v = .ok t ↔ Describes v t := by
  constructor
  · intro h
    obtain ⟨fields, rfl, ⟨start, hstart⟩, -⟩ := (exists_toTable?_iff v).mp ⟨t, h⟩
    rw [toTable?_of_start hstart, map_eq_ok_iff] at h
    obtain ⟨ss, hss, rfl⟩ := h
    have hgives : List.Forall₂ (fun f s => Gives f s.1 s.2.1 s.2.2) (others startKey fields) ss :=
      (mapM_eq_ok_iff.mp hss).imp fun _ _ hs => state?_eq_ok_iff.mp hs
    have hnames : (ss.map Prod.fst).Nodup := by
      rw [map_fst_eq_of_forall₂ (fun _ _ h => h.1) hgives]
      exact nodup_keys_others hv.nodup_keys startKey
    have hentries := Table.entries_foldl_define Prod.fst (fun s : String × Bool × List (String × Targets) => s.2.1)
      (fun s => s.2.2) (t := .new start) hnames
    refine ⟨fields, rfl, ?_, ?_⟩
    · rw [Table.start_foldl_define]
      exact hstart
    · have hdistinct : ∀ f ∈ others startKey fields, f.2.Distinct := fun f hf => hv.of_mem (List.mem_filter.mp hf).1
      rw [hentries]
      show List.Forall₂ _ _ (ss.map _)
      rw [List.forall₂_map_right_iff]
      refine ((List.forall₂_and_left _ _).mpr ⟨hdistinct, hgives⟩).imp ?_
      rintro f s ⟨hf, hs⟩
      show Gives f s.1 s.2.1 (Listing.ofList s.2.2).entries
      rw [hs.entries_ofList hf]
      exact hs
  · exact Describes.toTable?_eq

/-- A value is read exactly if it is the record of a table, and then as the table that it describes. Otherwise it is
refused for the first thing wrong with it. -/
theorem toTable?_verdict (v : Json) :
    ((∃ t, toTable? v = .ok t) ↔ IsTable v) ∧ (v.Distinct → ∀ t, toTable? v = .ok t ↔ Describes v t) ∧
      ∀ e, toTable? v = .error e ↔ Refuses v e :=
  ⟨exists_toTable?_iff v, fun hv _ => toTable?_eq_ok_iff hv, fun _ => toTable?_eq_error_iff⟩

/-- The keys of the record stand between the states and between the symbols, and one state says nothing. -/
def scattered : Json :=
  .object [("T", .object [("a", .string "T"), (acceptingKey, .bool true), ("", .array [.string "S", .string "?"])]),
    (startKey, .string "S"), ("S", .object [])]

theorem distinct_scattered : scattered.Distinct := by
  refine .object (by decide) ?_
  simp only [List.forall_mem_cons]
  refine ⟨.object (by decide) ?_, .string "S", .object List.nodup_nil ?_, ?_⟩
  · simp only [List.forall_mem_cons]
    refine ⟨.string "T", .bool true, .array ?_, ?_⟩
    · simp only [List.forall_mem_cons]
      exact ⟨.string "S", .string "?", fun _ h => absurd h List.not_mem_nil⟩
    · exact fun _ h => absurd h List.not_mem_nil
  · exact fun _ h => absurd h List.not_mem_nil
  · exact fun _ h => absurd h List.not_mem_nil

theorem toTable?_verdict_of_scattered_keys : scattered.Distinct ∧ IsTable scattered ∧
    ∃ t, toTable? scattered = .ok t ∧ Describes scattered t := by
  have hread : toTable? scattered = .ok (((Table.new "S").define "T" true
      [("a", .one "T"), ("", .many ["S", "?"])]).define "S" false []) := rfl
  obtain ⟨htable, hdescribes, -⟩ := toTable?_verdict scattered
  exact ⟨distinct_scattered, htable.mp ⟨_, hread⟩, _, hread, (hdescribes distinct_scattered _).mp hread⟩

end Record

/-- A text is read as the table that its value describes. -/
theorem Table.ofJson?_eq_ok_iff {text : String} {t : Table} :
    ofJson? text = .ok t ↔ ∃ v, Json.ofText? text = some v ∧ Record.Describes v t := by
  rw [ofJson?]
  cases hv : Json.ofText? text with
  | none => simp
  | some v =>
    simp only [Option.some.injEq, exists_eq_left']
    exact Record.toTable?_eq_ok_iff (Json.distinct_of_ofText? hv)

end PatternAutomata
