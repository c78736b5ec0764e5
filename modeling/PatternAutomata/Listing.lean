namespace PatternAutomata

/-- A finite map, listed in the order in which its keys were first given. -/
structure Listing (κ α : Type) where
  entries : List (κ × α)
  nodup_keys : (entries.map Prod.fst).Nodup
deriving DecidableEq

namespace Listing

variable {κ α : Type} [DecidableEq κ]

def empty : Listing κ α := ⟨[], List.nodup_nil⟩

instance : Inhabited (Listing κ α) := ⟨empty⟩

omit [DecidableEq κ] in
def keys (l : Listing κ α) : List κ := l.entries.map Prod.fst

omit [DecidableEq κ] in
def size (l : Listing κ α) : Nat := l.entries.length

def get? (l : Listing κ α) (k : κ) : Option α := l.entries.lookup k

def putEntry (k : κ) (a : α) : List (κ × α) → List (κ × α)
  | [] => [(k, a)]
  | (k', b) :: rest => if k' = k then (k, a) :: rest else (k', b) :: putEntry k a rest

theorem keys_putEntry (k : κ) (a : α) (entries : List (κ × α)) :
    (putEntry k a entries).map Prod.fst =
      if k ∈ entries.map Prod.fst then entries.map Prod.fst else entries.map Prod.fst ++ [k] := by
  induction entries with
  | nil => simp [putEntry]
  | cons e rest ih =>
    by_cases h : e.1 = k
    · simp [putEntry, h]
    · have h' : ¬ k = e.1 := fun he => h he.symm
      simp only [putEntry, h, if_false, List.map_cons, ih, List.mem_cons, h', false_or]
      split <;> simp

theorem nodup_putEntry (k : κ) (a : α) {entries : List (κ × α)} (h : (entries.map Prod.fst).Nodup) :
    ((putEntry k a entries).map Prod.fst).Nodup := by
  rw [keys_putEntry]
  split
  · exact h
  · rename_i hk
    rw [List.nodup_append]
    refine ⟨h, by simp, ?_⟩
    intro x hx y hy hxy
    rw [List.mem_singleton] at hy
    exact hk (hy ▸ hxy ▸ hx)

/-- A key that is there keeps its place and takes the new value; a new key comes last. -/
def insert (l : Listing κ α) (k : κ) (a : α) : Listing κ α :=
  ⟨putEntry k a l.entries, nodup_putEntry k a l.nodup_keys⟩

/-- Adds `a` at the end of the values kept under `k`. -/
def push (l : Listing κ (List α)) (k : κ) (a : α) : Listing κ (List α) :=
  l.insert k ((l.get? k).getD [] ++ [a])

theorem lookup_cons (k : κ) (e : κ × α) (entries : List (κ × α)) :
    (e :: entries).lookup k = if k = e.1 then some e.2 else entries.lookup k := by
  by_cases h : k = e.1
  · rw [List.lookup_cons, beq_iff_eq.mpr h, if_pos h]
  · rw [List.lookup_cons, beq_eq_false_iff_ne.mpr h, if_neg h]

theorem lookup_map_snd {β : Type} (entries : List (κ × α)) (f : α → β) (k : κ) :
    (entries.map fun e => (e.1, f e.2)).lookup k = (entries.lookup k).map f := by
  induction entries with
  | nil => rfl
  | cons e rest ih =>
    rw [List.map_cons, lookup_cons, lookup_cons, ih]
    split <;> rfl

theorem mem_of_lookup {k : κ} {a : α} {entries : List (κ × α)} (h : entries.lookup k = some a) : (k, a) ∈ entries := by
  obtain ⟨before, after, rfl, -⟩ := List.lookup_eq_some_iff.mp h
  exact List.mem_append_right _ List.mem_cons_self

theorem lookup_putEntry (k k' : κ) (a : α) (entries : List (κ × α)) :
    (putEntry k a entries).lookup k' = if k' = k then some a else entries.lookup k' := by
  induction entries with
  | nil => rw [putEntry, lookup_cons]
  | cons e rest ih =>
    rw [putEntry]
    split
    · next h =>
      rw [lookup_cons, lookup_cons, h]
      split <;> rfl
    · next h =>
      rw [lookup_cons, lookup_cons, ih]
      split
      · next h' => rw [if_neg (by rw [h']; exact h)]
      · rfl

/-- The value of a key is the one that it is listed with. -/
theorem get?_eq_some_iff {l : Listing κ α} {k : κ} {a : α} : l.get? k = some a ↔ (k, a) ∈ l.entries := by
  obtain ⟨entries, hnodup⟩ := l
  rw [get?]
  induction entries with
  | nil => simp
  | cons e rest ih =>
    rw [List.map_cons, List.nodup_cons] at hnodup
    rw [lookup_cons, List.mem_cons, Prod.ext_iff]
    by_cases h : k = e.1
    · have hrest : (k, a) ∉ rest := fun hmem => hnodup.1 (h ▸ List.mem_map_of_mem hmem)
      rw [if_pos h, or_iff_left hrest]
      simp [h, eq_comm]
    · rw [if_neg h, ih hnodup.2, or_iff_right fun he => h he.1]

theorem get?_insert (l : Listing κ α) (k k' : κ) (a : α) :
    (l.insert k a).get? k' = if k' = k then some a else l.get? k' := lookup_putEntry k k' a l.entries

theorem get?_push (l : Listing κ (List α)) (k k' : κ) (a : α) :
    (l.push k a).get? k' = if k' = k then some ((l.get? k).getD [] ++ [a]) else l.get? k' :=
  l.get?_insert k k' _

def ofList (entries : List (κ × α)) : Listing κ α :=
  entries.foldl (fun l e => l.insert e.1 e.2) empty

omit [DecidableEq κ] in
theorem eq_of_entries_eq {l m : Listing κ α} (h : l.entries = m.entries) : l = m := by
  cases l
  cases m
  cases h
  rfl

theorem get?_eq_none_iff {l : Listing κ α} {k : κ} : l.get? k = none ↔ k ∉ l.keys := by
  rw [Option.eq_none_iff_forall_ne_some, keys, List.mem_map]
  constructor
  · rintro h ⟨e, he, rfl⟩
    exact h e.2 (get?_eq_some_iff.mpr he)
  · intro h a ha
    exact h ⟨(k, a), get?_eq_some_iff.mp ha, rfl⟩

theorem putEntry_of_not_mem {k : κ} {a : α} {entries : List (κ × α)} (h : k ∉ entries.map Prod.fst) :
    putEntry k a entries = entries ++ [(k, a)] := by
  induction entries with
  | nil => rfl
  | cons e rest ih =>
    rw [List.map_cons, List.mem_cons, not_or] at h
    rw [putEntry, if_neg fun he => h.1 he.symm, ih h.2]
    rfl

/-- New keys come last, in their order. -/
theorem entries_foldl_insert {entries : List (κ × α)} {l : Listing κ α}
    (h : (l.keys ++ entries.map Prod.fst).Nodup) :
    (entries.foldl (fun l e => l.insert e.1 e.2) l).entries = l.entries ++ entries := by
  induction entries generalizing l with
  | nil => rw [List.foldl_nil, List.append_nil]
  | cons e rest ih =>
    rw [List.map_cons, List.append_cons] at h
    have hnew : e.1 ∉ l.keys := by
      intro hmem
      have hleft := List.nodup_append.mp (List.nodup_append.mp h).1
      exact hleft.2.2 _ hmem _ (List.mem_singleton_self _) rfl
    have hentries : (l.insert e.1 e.2).entries = l.entries ++ [e] := putEntry_of_not_mem hnew
    rw [List.foldl_cons, ih, hentries, List.append_assoc]
    · rfl
    · rw [keys, hentries, List.map_append]
      exact h

theorem entries_ofList {entries : List (κ × α)} (h : (entries.map Prod.fst).Nodup) :
    (ofList entries).entries = entries :=
  entries_foldl_insert h

theorem ofList_entries (l : Listing κ α) : ofList l.entries = l :=
  eq_of_entries_eq (entries_ofList l.nodup_keys)

/-- The last value given to a key counts. -/
theorem get?_foldl_insert (entries : List (κ × α)) (l : Listing κ α) (k : κ) :
    (entries.foldl (fun l e => l.insert e.1 e.2) l).get? k = (entries.reverse.lookup k).or (l.get? k) := by
  induction entries generalizing l with
  | nil => rfl
  | cons e rest ih =>
    rw [List.foldl_cons, ih, get?_insert, List.reverse_cons, List.lookup_append, Option.or_assoc, lookup_cons]
    split <;> rfl

theorem get?_ofList (entries : List (κ × α)) (k : κ) : (ofList entries).get? k = entries.reverse.lookup k := by
  rw [ofList, get?_foldl_insert]
  exact Option.or_none

/-- Equality as maps: the order of keys does not count. -/
def sameMap [DecidableEq α] (l m : Listing κ α) : Bool :=
  l.size == m.size && l.entries.all fun e => m.get? e.1 == some e.2

end Listing

end PatternAutomata
