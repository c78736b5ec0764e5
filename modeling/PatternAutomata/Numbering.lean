import Std.Data.TreeMap

namespace PatternAutomata

/-- Values numbered from 0, told apart by their keys. -/
structure Numbering {α κ : Type} [Ord κ] (key : α → κ) where
  values : Array α
  numbers : Std.TreeMap κ Nat
  numbers_iff : ∀ k i, numbers[k]? = some i ↔ values[i]?.map key = some k

namespace Numbering

variable {α κ ι : Type} [Ord κ] {key : α → κ}

def empty [Std.TransOrd κ] : Numbering key := ⟨#[], ∅, by simp⟩

def add [Std.TransOrd κ] [Std.LawfulEqOrd κ] (n : Numbering key) (a : α) : Numbering key :=
  if h : key a ∈ n.numbers then n
  else
    { values := n.values.push a
      numbers := n.numbers.insert (key a) n.values.size
      numbers_iff := by
        intro k i
        have hk : n.numbers[key a]? = none := by simpa using h
        rw [Std.TreeMap.getElem?_insert, Array.getElem?_push]
        by_cases hkey : key a = k
        · subst hkey
          simp only [Std.compare_self, if_true, Option.some.injEq]
          by_cases hi : i = n.values.size
          · simp [hi]
          · have hnone : ¬ n.values[i]?.map key = some (key a) := by
              rw [← n.numbers_iff, hk]; simp
            simp only [hi, if_false, hnone, iff_false]
            exact fun he => hi he.symm
        · have hcmp : ¬ compare (key a) k = .eq := fun he => hkey (Std.LawfulEqOrd.eq_of_compare he)
          simp only [hcmp, if_false, n.numbers_iff]
          by_cases hi : i = n.values.size
          · subst hi; simp [hkey]
          · simp [hi] }

/-- The number of a key that was met; 0 stands for any other. -/
def number (n : Numbering key) (k : κ) : Nat := n.numbers[k]?.getD 0

end Numbering

/-- Numbered values and, for each of the first ones, the labelled edges that leave it. -/
structure Expansion {α κ : Type} [Ord κ] (key : α → κ) (ι : Type) where
  found : Numbering key
  rows : Array (List (ι × Nat))

namespace Expansion

variable {α κ ι : Type} [Ord κ] [Std.TransOrd κ] [Std.LawfulEqOrd κ] {key : α → κ}

/-- Expands values first come, first served, at most `bound` of them. -/
def explore (next : α → List (ι × α)) : Nat → Expansion key ι → Expansion key ι
  | 0, e => e
  | bound + 1, e =>
    match e.found.values[e.rows.size]? with
    | none => e
    | some a =>
      let edges := next a
      let found := edges.foldl (fun n edge => n.add edge.2) e.found
      explore next bound ⟨found, e.rows.push (edges.map fun edge => (edge.1, found.number (key edge.2)))⟩

/-- Everything that `next` leads to from `roots`, if that is at most `bound` values. -/
def ofRoots (key : α → κ) (next : α → List (ι × α)) (bound : Nat) (roots : List α) : Expansion key ι :=
  explore next bound ⟨roots.foldl .add .empty, #[]⟩

end Expansion

end PatternAutomata
