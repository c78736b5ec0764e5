import PatternAutomata.Dfa
import PatternAutomata.Numbering
import PatternAutomata.Pattern.Conventional
import PatternAutomata.Regex
import PatternAutomata.Regex.Nesting
import PatternAutomata.Regex.Reader

namespace PatternAutomata

def sampleLimit : Nat := 4096

namespace Dfa

def foreignCandidates : List Char := (List.range' 0x21 94).map Char.ofNat ++ ['ß']

/-- The alphabet, and a character outside it if some candidate is. -/
def sampleAlphabet (d : Dfa) : List Char :=
  let known := d.alphabet
  known ++ (foreignCandidates.find? fun c => !known.contains c).toList

/-- The first `count` words, of which `layer` are the shortest and the longer ones extend these; each
round uses up at least one. -/
def wordsFrom (alphabet : List Char) : (rounds count : Nat) → (layer : List String) → List String
  | 0, _, _ => []
  | rounds + 1, count, layer =>
    if count ≤ layer.length then layer.take count
    else if layer.isEmpty then []
    else
      layer ++ wordsFrom alphabet rounds (count - layer.length) (layer.flatMap fun w => alphabet.map w.push)

/-- The first words over an alphabet: shorter ones first, then in the order of the alphabet. -/
def firstWords (alphabet : List Char) (count : Nat) : List String := wordsFrom alphabet count count [""]

/-- For each state that can be reached, the word that a breadth-first walk reaches it by. -/
def accessWords (d : Dfa) : List String :=
  let next (p : Nat × String) :=
    ((d.states[p.1]?.map (·.edges)).getD []).map fun e => ((), (e.2, p.2.push e.1))
  let roots := if d.size = 0 then [] else [(d.start, "")]
  (Expansion.ofRoots Prod.fst next d.size roots).found.values.toList.map Prod.snd

def samples (d : Dfa) : List String :=
  let alphabet := d.sampleAlphabet
  let paths := d.accessWords
  ascending (firstWords alphabet sampleLimit ++ paths ++ paths.flatMap fun w => alphabet.map w.push)

end Dfa

/-- A decider of whole words for a text in conventional syntax, which may refuse the text. -/
abbrev Oracle := List Char → Except Regex.Refusal (List Char → Bool)

/-- The oracle that matches by marks. It refuses what is nested too deep; a text out of syntax
matches no word. -/
def Regex.oracle : Oracle := fun text =>
  match Regex.ofText? text with
  | none => .ok fun _ => false
  | some r =>
    match r.tooDeep? with
    | none => .ok (Marked.ofRegex r).accepts
    | some construct => .error ⟨Regex.anchored text, construct⟩

inductive CheckError
  | rejected (e : PatternError)
  | refused (pattern : String) (text : List Char) (e : Regex.Refusal)
deriving DecidableEq

/-- The sample words on which an automaton and the oracle's reading of a pattern differ. -/
def disagreementsBy (oracle : Oracle) (pattern : String) (d : Dfa) : Except CheckError (List String) := do
  let text ← (Conventional.ofPattern? pattern).mapError .rejected
  let expected ← (oracle text.toList).mapError (.refused pattern text.toList)
  pure (d.samples.filter fun word => d.accepts word.toList != expected word.toList)

def disagreements (pattern : String) (d : Dfa) : Except CheckError (List String) :=
  disagreementsBy Regex.oracle pattern d

def refusalLine (pattern : String) (text : List Char) : String :=
  s!"regex crate rejected {Text.quoted (String.ofList text)} (from {Text.quoted pattern})"

end PatternAutomata
