import Mathlib.Data.List.Basic
import PatternAutomata.Json.Reader

namespace PatternAutomata.Json

/-- Values without numbers in which arrays and objects are nested at most `n` deep. -/
inductive Plain : Nat → Json → Prop
  | null (n : Nat) : Plain n .null
  | bool (n : Nat) (b : Bool) : Plain n (.bool b)
  | string (n : Nat) (s : String) : Plain n (.string s)
  | array {n : Nat} {items : List Json} (h : ∀ v ∈ items, Plain n v) : Plain (n + 1) (.array items)
  | object {n : Nat} {fields : List (String × Json)} (h : ∀ f ∈ fields, Plain n f.2) : Plain (n + 1) (.object fields)

mutual

def lexemes : Json → List Lexeme
  | null => [.word .null]
  | bool b => [.word (if b then .true else .false)]
  | number digits => [.number digits]
  | string s => [.string s]
  | array [] => [.openArray, .closeArray]
  | array (v :: items) => .openArray :: (lexemes v ++ itemLexemes items ++ [.closeArray])
  | object [] => [.openObject, .closeObject]
  | object ((key, v) :: fields) =>
    .openObject :: .string key :: .colon :: (lexemes v ++ fieldLexemes fields ++ [.closeObject])

def itemLexemes : List Json → List Lexeme
  | [] => []
  | v :: items => .comma :: (lexemes v ++ itemLexemes items)

def fieldLexemes : List (String × Json) → List Lexeme
  | [] => []
  | (key, v) :: fields => .comma :: .string key :: .colon :: (lexemes v ++ fieldLexemes fields)

end

mutual

/-- The value in which every key of an object stands once, at its first place and with its last value. -/
def merged : Json → Json
  | array items => array (mergedItems items)
  | object fields => object (Listing.ofList (mergedFields fields)).entries
  | null => null
  | bool b => bool b
  | number digits => number digits
  | string s => string s

def mergedItems : List Json → List Json
  | [] => []
  | v :: items => merged v :: mergedItems items

def mergedFields : List (String × Json) → List (String × Json)
  | [] => []
  | (key, v) :: fields => (key, merged v) :: mergedFields fields

end

theorem mergedItems_eq (items : List Json) : mergedItems items = items.map merged := by
  induction items with
  | nil => rfl
  | cons v items ih => rw [mergedItems, ih, List.map_cons]

theorem mergedFields_eq (fields : List (String × Json)) : mergedFields fields = fields.map fun f => (f.1, f.2.merged) := by
  induction fields with
  | nil => rfl
  | cons f fields ih => rw [mergedFields, ih, List.map_cons]

namespace Lexeme

variable {mode next : Mode} {before out : List Lexeme} {c : Char} {rest read : List Char}

theorem lexFrom_cons (h : step mode c = some (next, out)) :
    lexFrom mode before (c :: rest) = lexFrom next (out.reverse ++ before) rest := by
  rw [lexFrom, h]

theorem hexDigit?_digitChar : ∀ m < 16, hexDigit? (Nat.digitChar m) = some m := by
  decide

/-- Four digits are read as the code unit that they write. -/
theorem lexFrom_hex4 {n : Nat} (h : n < 0x10000) (hmode : afterUnit read none n = some next) :
    lexFrom (.codeUnit read none 4 0) before (hex4 n ++ rest) = lexFrom next before rest := by
  have hdigit (m : Nat) : hexDigit? (Nat.digitChar (m % 16)) = some (m % 16) :=
    hexDigit?_digitChar _ (Nat.mod_lt m (by omega))
  have hvalue : (((0 * 16 + n / 4096 % 16) * 16 + n / 256 % 16) * 16 + n / 16 % 16) * 16 + n % 16 = n := by omega
  have hstep (missing value m : Nat) (hmissing : ¬ missing ≤ 1) :
      step (.codeUnit read none missing value) (Nat.digitChar (m % 16)) =
        some (.codeUnit read none (missing - 1) (value * 16 + m % 16), []) := by
    rw [step, hdigit]
    exact if_neg hmissing
  have hlast : step (.codeUnit read none 1 (((0 * 16 + n / 4096 % 16) * 16 + n / 256 % 16) * 16 + n / 16 % 16))
      (Nat.digitChar (n % 16)) = some (next, []) := by
    rw [step, hdigit]
    change (afterUnit read none _).map (·, []) = _
    rw [hvalue, hmode]
    rfl
  rw [hex4, List.map_cons, List.map_cons, List.map_cons, List.map_cons, List.map_nil]
  exact (lexFrom_cons (hstep 4 _ _ (by omega))).trans <| (lexFrom_cons (hstep 3 _ _ (by omega))).trans <|
    (lexFrom_cons (hstep 2 _ _ (by omega))).trans (lexFrom_cons hlast)

/-- The escape of a character is read as the character. -/
theorem lexFrom_escape (c : Char) : lexFrom (.string read) before (escape c ++ rest) =
    lexFrom (.string (c :: read)) before rest := by
  unfold escape
  split
  · rfl
  · rfl
  · rfl
  · rfl
  · rfl
  · rfl
  · rfl
  -- All but the short escapes: a control character is written by its code unit, any other as itself.
  · next hquote hslash _ _ _ _ _ =>
    by_cases hcontrol : c.toNat < 0x20
    · have hunit : afterUnit read none c.toNat = some (.string (c :: read)) := by
        have hvalid : c.toNat.isValidChar := .inl (by omega)
        have hsurrogate : ¬ (0xd800 ≤ c.toNat && c.toNat ≤ 0xdbff) = true := by
          rw [Bool.and_eq_true, decide_eq_true_eq]
          omega
        rw [afterUnit, if_neg hsurrogate, dif_pos hvalid]
        rfl
      rw [if_pos hcontrol, List.append_assoc]
      exact lexFrom_hex4 (by omega) hunit
    · have hplain : step (.string read) c = some (.string (c :: read), []) := by
        rw [step, if_neg (by simpa using hquote), if_neg (by simpa using hslash), if_neg hcontrol]
      rw [if_neg hcontrol]
      exact lexFrom_cons hplain

theorem lexFrom_escapes (cs : List Char) : lexFrom (.string read) before (cs.flatMap escape ++ rest) =
    lexFrom (.string (cs.reverse ++ read)) before rest := by
  induction cs generalizing read with
  | nil => rfl
  | cons c cs ih => rw [List.flatMap_cons, List.append_assoc, lexFrom_escape, ih, List.reverse_cons, List.append_assoc,
      List.singleton_append]

theorem lexFrom_stringChars (s : String) : lexFrom .between before (stringChars s ++ rest) =
    lexFrom .between (.string s :: before) rest := by
  have hopen : step .between '\x22' = some (.string [], []) := rfl
  have hclose (read : List Char) : step (.string read) '\x22' = some (.between, [.string (String.ofList read.reverse)]) :=
    rfl
  rw [stringChars, List.append_assoc, List.append_assoc, List.singleton_append, lexFrom_cons hopen, lexFrom_escapes,
    List.singleton_append, lexFrom_cons (hclose _), List.append_nil, List.reverse_reverse, String.ofList_toList]
  rfl

theorem lexFrom_newLine (depth : Nat) : lexFrom .between before (newLine depth ++ rest) = lexFrom .between before rest := by
  have hblanks (n : Nat) : lexFrom .between before (List.replicate n ' ' ++ rest) = lexFrom .between before rest := by
    induction n with
    | zero => rfl
    | succ n ih => exact ih
  exact hblanks (2 * depth)

theorem lexFrom_colon : lexFrom .between before (": ".toList ++ rest) = lexFrom .between (.colon :: before) rest := rfl

/-- The text of the value is read as its lexemes, whatever comes before and after it. -/
def Lexes (v : Json) : Prop :=
  ∀ (depth : Nat) (before : List Lexeme) (rest : List Char),
    lexFrom .between before (chars depth v ++ rest) = lexFrom .between ((lexemes v).reverse ++ before) rest

theorem lexFrom_itemChars {items : List Json} (h : ∀ v ∈ items, Lexes v) (depth : Nat) :
    lexFrom .between before (itemChars depth items ++ rest) =
      lexFrom .between ((itemLexemes items).reverse ++ before) rest := by
  have hcomma : step .between ',' = some (.between, [.comma]) := rfl
  induction items generalizing before with
  | nil => rfl
  | cons v items ih =>
    obtain ⟨hv, hitems⟩ := List.forall_mem_cons.mp h
    rw [itemChars, itemLexemes]
    simp only [List.cons_append, List.append_assoc]
    rw [lexFrom_cons hcomma, lexFrom_newLine, hv, ih hitems]
    simp

theorem lexFrom_fieldChars {fields : List (String × Json)} (h : ∀ f ∈ fields, Lexes f.2) (depth : Nat) :
    lexFrom .between before (fieldChars depth fields ++ rest) =
      lexFrom .between ((fieldLexemes fields).reverse ++ before) rest := by
  have hcomma : step .between ',' = some (.between, [.comma]) := rfl
  induction fields generalizing before with
  | nil => rfl
  | cons f fields ih =>
    obtain ⟨hv, hfields⟩ := List.forall_mem_cons.mp h
    rw [fieldChars, fieldLexemes]
    simp only [List.cons_append, List.append_assoc]
    rw [lexFrom_cons hcomma, lexFrom_newLine, lexFrom_stringChars, lexFrom_colon, hv, ih hfields]
    simp

theorem Lexes.array {items : List Json} (h : ∀ v ∈ items, Lexes v) : Lexes (.array items) := by
  intro depth before rest
  cases items with
  | nil => rfl
  | cons v items =>
    obtain ⟨hv, hitems⟩ := List.forall_mem_cons.mp h
    have hopen : step .between '[' = some (.between, [.openArray]) := rfl
    have hclose : step .between ']' = some (.between, [.closeArray]) := rfl
    rw [chars, lexemes]
    simp only [List.cons_append, List.append_assoc, List.nil_append]
    rw [lexFrom_cons hopen, lexFrom_newLine, hv, lexFrom_itemChars hitems, lexFrom_newLine, lexFrom_cons hclose]
    simp

theorem Lexes.object {fields : List (String × Json)} (h : ∀ f ∈ fields, Lexes f.2) : Lexes (.object fields) := by
  intro depth before rest
  cases fields with
  | nil => rfl
  | cons f fields =>
    obtain ⟨hv, hfields⟩ := List.forall_mem_cons.mp h
    have hopen : step .between '\x7b' = some (.between, [.openObject]) := rfl
    have hclose : step .between '\x7d' = some (.between, [.closeObject]) := rfl
    rw [chars, lexemes]
    simp only [List.cons_append, List.append_assoc, List.nil_append]
    rw [lexFrom_cons hopen, lexFrom_newLine, lexFrom_stringChars, lexFrom_colon, hv, lexFrom_fieldChars hfields,
      lexFrom_newLine, lexFrom_cons hclose]
    simp

theorem lexes_of_plain {n : Nat} {v : Json} (h : Plain n v) : Lexes v := by
  induction h with
  | null n => exact fun _ _ _ => rfl
  | bool n b => cases b <;> exact fun _ _ _ => rfl
  | string n s => exact fun _ _ _ => lexFrom_stringChars s
  | array _ ih => exact .array ih
  | object _ ih => exact .object ih

theorem lex_chars {n : Nat} {v : Json} (h : Plain n v) (depth : Nat) : lex (chars depth v) = some (lexemes v) := by
  have hlex := lexes_of_plain h depth [] []
  rw [List.append_nil, List.append_nil] at hlex
  rw [lex, hlex, lexFrom]
  simp [finish]

end Lexeme

namespace Reading

variable {n : Nat} {v : Json} {l : Lexeme} {rest : List Lexeme} {stack : List Frame}

theorem foldlM_cons {r r' : Reading} (h : step r l = some r') : (l :: rest).foldlM step r = rest.foldlM step r' := by
  rw [List.foldlM_cons, h]
  rfl

theorem enter_eq_some {f : Frame} {expected : Expected} (h : stack.length + (n + 1) ≤ maxDepth) :
    enter f expected stack = some ⟨f :: stack, expected⟩ :=
  if_pos (by omega)

/-- A key and its colon open a field, first in its object or after a comma. -/
theorem foldlM_key {expected : Expected} (h : expected = .key ∨ expected = .keyOrClose) (done : Listing String Json)
    (key : String) : (.string key :: .colon :: rest).foldlM step ⟨.object done :: stack, expected⟩ =
      rest.foldlM step ⟨.field done key :: stack, .value⟩ := by
  obtain rfl | rfl := h <;> rfl

/-- The lexemes of the value are read as the value, where one is expected that is not nested too deep. -/
def Reads (n : Nat) (v : Json) : Prop :=
  ∀ (stack : List Frame) (rest : List Lexeme), stack.length + n ≤ maxDepth →
    (lexemes v ++ rest).foldlM step ⟨stack, .value⟩ = (put v.merged stack).bind fun r => rest.foldlM step r

/-- An array that is not empty begins with its first item, for no value begins by closing it. -/
theorem foldlM_first (v : Json) (stack : List Frame) (rest : List Lexeme) :
    (lexemes v ++ rest).foldlM step ⟨stack, .valueOrClose⟩ = (lexemes v ++ rest).foldlM step ⟨stack, .value⟩ := by
  have hfirst : ∃ l tail, lexemes v = l :: tail ∧ l ≠ .closeArray := by
    cases v with
    | array items => cases items <;> exact ⟨_, _, rfl, by simp⟩
    | object fields => cases fields <;> exact ⟨_, _, rfl, by simp⟩
    | null => exact ⟨_, _, rfl, by simp⟩
    | bool b => exact ⟨_, _, rfl, by simp⟩
    | number digits => exact ⟨_, _, rfl, by simp⟩
    | string s => exact ⟨_, _, rfl, by simp⟩
  obtain ⟨l, tail, hl, hne⟩ := hfirst
  have hstep : step ⟨stack, .valueOrClose⟩ l = step ⟨stack, .value⟩ l := if_neg hne
  rw [hl, List.cons_append, List.foldlM_cons, List.foldlM_cons, hstep]

theorem foldlM_itemLexemes {items : List Json} (h : ∀ v ∈ items, Reads n v) (hstack : stack.length + 1 + n ≤ maxDepth)
    (done : List Json) :
    (itemLexemes items ++ rest).foldlM step ⟨.array done :: stack, .separator⟩ =
      rest.foldlM step ⟨.array ((mergedItems items).reverse ++ done) :: stack, .separator⟩ := by
  induction items generalizing done with
  | nil => rfl
  | cons v items ih =>
    obtain ⟨hv, hitems⟩ := List.forall_mem_cons.mp h
    have hcomma : step ⟨.array done :: stack, .separator⟩ .comma = some ⟨.array done :: stack, .value⟩ := rfl
    rw [itemLexemes, List.cons_append, foldlM_cons hcomma, List.append_assoc, hv (.array done :: stack) _ hstack]
    change (itemLexemes items ++ rest).foldlM step ⟨.array (v.merged :: done) :: stack, .separator⟩ = _
    rw [ih hitems, mergedItems, List.reverse_cons, List.append_assoc]
    rfl

theorem foldlM_fieldLexemes {fields : List (String × Json)} (h : ∀ f ∈ fields, Reads n f.2)
    (hstack : stack.length + 1 + n ≤ maxDepth) (done : Listing String Json) :
    (fieldLexemes fields ++ rest).foldlM step ⟨.object done :: stack, .separator⟩ =
      rest.foldlM step
        ⟨.object ((mergedFields fields).foldl (fun l f => l.insert f.1 f.2) done) :: stack, .separator⟩ := by
  induction fields generalizing done with
  | nil => rfl
  | cons f fields ih =>
    obtain ⟨key, v⟩ := f
    obtain ⟨hv, hfields⟩ := List.forall_mem_cons.mp h
    have hcomma : step ⟨.object done :: stack, .separator⟩ .comma = some ⟨.object done :: stack, .key⟩ := rfl
    rw [fieldLexemes, List.cons_append, List.cons_append, List.cons_append, foldlM_cons hcomma, foldlM_key (.inl rfl),
      List.append_assoc, hv (.field done key :: stack) _ hstack]
    exact ih hfields (done.insert key v.merged)

theorem Reads.array {items : List Json} (h : ∀ v ∈ items, Reads n v) : Reads (n + 1) (.array items) := by
  intro stack rest hdepth
  have hopen : step ⟨stack, .value⟩ .openArray = some ⟨.array [] :: stack, .valueOrClose⟩ := enter_eq_some hdepth
  cases items with
  | nil =>
    rw [lexemes, List.cons_append, foldlM_cons hopen]
    rfl
  | cons v items =>
    obtain ⟨hv, hitems⟩ := List.forall_mem_cons.mp h
    have hstack : stack.length + 1 + n ≤ maxDepth := by omega
    rw [lexemes, List.cons_append, foldlM_cons hopen, List.append_assoc, List.append_assoc, foldlM_first,
      hv (.array [] :: stack) _ hstack]
    change (itemLexemes items ++ ([Lexeme.closeArray] ++ rest)).foldlM step ⟨.array [v.merged] :: stack, .separator⟩ = _
    rw [foldlM_itemLexemes hitems hstack, List.singleton_append, List.foldlM_cons]
    have hclose : step ⟨.array ((mergedItems items).reverse ++ [v.merged]) :: stack, .separator⟩ .closeArray =
        put (.array ((mergedItems items).reverse ++ [v.merged]).reverse) stack := rfl
    rw [hclose, List.reverse_append, List.reverse_reverse]
    rfl

theorem Reads.object {fields : List (String × Json)} (h : ∀ f ∈ fields, Reads n f.2) : Reads (n + 1) (.object fields) := by
  intro stack rest hdepth
  have hopen : step ⟨stack, .value⟩ .openObject = some ⟨.object .empty :: stack, .keyOrClose⟩ := enter_eq_some hdepth
  cases fields with
  | nil =>
    rw [lexemes, List.cons_append, foldlM_cons hopen]
    rfl
  | cons f fields =>
    obtain ⟨key, v⟩ := f
    obtain ⟨hv, hfields⟩ := List.forall_mem_cons.mp h
    have hstack : stack.length + 1 + n ≤ maxDepth := by omega
    rw [lexemes, List.cons_append, List.cons_append, List.cons_append, foldlM_cons hopen, foldlM_key (.inr rfl),
      List.append_assoc, List.append_assoc, hv (.field .empty key :: stack) _ hstack]
    change (fieldLexemes fields ++ ([Lexeme.closeObject] ++ rest)).foldlM step
      ⟨.object (Listing.empty.insert key v.merged) :: stack, .separator⟩ = _
    rw [foldlM_fieldLexemes hfields hstack, List.singleton_append, List.foldlM_cons]
    rfl

theorem reads_of_plain (h : Plain n v) : Reads n v := by
  induction h with
  | null n => exact fun _ _ _ => rfl
  | bool n b => cases b <;> exact fun _ _ _ => rfl
  | string n s => exact fun _ _ _ => rfl
  | array _ ih => exact .array ih
  | object _ ih => exact .object ih

end Reading

/-- What is written is read back with the keys of each object merged. -/
theorem ofText?_pretty {n : Nat} {v : Json} (h : Plain n v) (hn : n ≤ Reading.maxDepth) :
    ofText? v.pretty = some v.merged := by
  have hreads := Reading.reads_of_plain h [] [] (by rwa [List.length_nil, Nat.zero_add])
  rw [List.append_nil] at hreads
  rw [ofText?, pretty, String.toList_ofList, Lexeme.lex_chars h]
  change ((lexemes v).foldlM Reading.step ⟨[], .value⟩).bind _ = _
  rw [hreads]
  rfl

end PatternAutomata.Json
