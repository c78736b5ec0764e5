import PatternAutomata.Config
import PatternAutomata.Proofs.Pipeline

namespace PatternAutomata

open scoped Computability

namespace Arguments

variable {arg : String} {args : List String}

def optionPattern : String := "--[a-zA-Z0-9]*"

def alphanumeric : Expression :=
  .junction .alternate (.junction .alternate (.operand (.range 'a' 'z')) (.operand (.range 'A' 'Z')))
    (.operand (.range '0' '9'))

theorem language_alphanumeric : alphanumeric.language = letters (·.isAlphanum = true) := by
  have hupper (c : Char) : (Operand.range 'A' 'Z').contains c = c.isUpper := (Bool.decide_and _ _).symm
  have hlower (c : Char) : (Operand.range 'a' 'z').contains c = c.isLower := rfl
  have hdigit (c : Char) : (Operand.range '0' '9').contains c = c.isDigit := rfl
  have halphanum (c : Char) : c.isAlphanum = (c.isUpper || c.isLower || c.isDigit) := rfl
  show letters _ + letters _ + letters _ = _
  rw [← letters_or, ← letters_or]
  simp only [hupper, hlower, hdigit, halphanum, Bool.or_eq_true, or_comm]

def optionExpression : Expression :=
  .junction .concat (.junction .concat (.operand (.char '-')) (.operand (.char '-'))) (.repetition .star alphanumeric)

theorem derives_optionExpression :
    Grammar.Derives .alternatives (Grammar.kindsOf optionPattern) optionExpression := by
  have hkinds : Grammar.kindsOf optionPattern =
      [.operand (.char '-'), .operand (.char '-'), .opening .bracket, .operand (.range 'a' 'z'),
        .operator (.junction .alternate), .operand (.range 'A' 'Z'), .operator (.junction .alternate),
        .operand (.range '0' '9'), .closing .bracket, .operator (.repetition .star)] := by decide +kernel
  have hoperand (v : Operand) : Grammar.Derives .factor [.operand v] (.operand v) := .atom (.operand v)
  have hclass := Grammar.Derives.alternation
    (.alternation (.sequence (.factor (hoperand (.range 'a' 'z')))) (.factor (hoperand (.range 'A' 'Z'))))
    (.factor (hoperand (.range '0' '9')))
  have hloop := Grammar.Derives.repetition .star (.atom (.group .bracket hclass))
  have hhyphens := Grammar.Derives.juxtaposition (.factor (hoperand (.char '-'))) (hoperand (.char '-'))
  rw [hkinds]
  exact .sequence (.juxtaposition hhyphens hloop)

theorem exists_compile_optionPattern :
    ∃ n, Nfa.ofPattern? optionPattern = .ok n ∧ compile optionPattern = .ok (.ofNfa n) :=
  exists_compile_of_isOk optionPattern (by decide +kernel)

/-- What is spelled like an option is a word of the pattern. -/
theorem isOption_iff : isOption arg = true ↔ arg.toList ∈ Grammar.language optionPattern := by
  obtain ⟨n, hn, -⟩ := exists_compile_optionPattern
  rw [Grammar.language_eq hn derives_optionExpression]
  show _ ↔ arg.toList ∈ (Operand.char '-').language * (Operand.char '-').language * alphanumeric.language∗
  rw [language_alphanumeric, Operand.language_char, isOption]
  simp only [Language.mem_mul, mem_kstar_letters, mem_letters_eq]
  constructor
  · intro h
    split at h
    · next rest hrest =>
      rw [hrest]
      exact ⟨['-', '-'], ⟨['-'], rfl, ['-'], rfl, rfl⟩, rest, List.all_eq_true.mp h, rfl⟩
    · cases h
  · rintro ⟨_, ⟨_, rfl, _, rfl, rfl⟩, rest, hrest, hword⟩
    rw [← hword]
    exact List.all_eq_true.mpr hrest

/-- The pattern compiles, and its matcher answers for every argument whether it is spelled like an option. -/
theorem exists_optionMatcher : ∃ stages, compile optionPattern = .ok stages ∧
    ∀ arg, (Matcher.ofDfa stages.minimal.dfa).test arg = .ok (isOption arg) := by
  obtain ⟨n, hn, hcompile⟩ := exists_compile_optionPattern
  refine ⟨_, hcompile, ?_⟩
  intro arg
  have hfaithful := Grammar.faithful_of_ofPattern? hn
  have haccepts : n.toDfa.minimize.dfa.accepts arg.toList = isOption arg := by
    rw [Bool.eq_iff_iff, isOption_iff, ← hfaithful.accepts_iff, ← hfaithful.accepts_minimize]
  rw [← haccepts]
  exact Matcher.test_ofDfa hfaithful.canonical_minimize.wellFormed arg

inductive Setting
  | out
  | expected
  | worklist
deriving DecidableEq

namespace Setting

def flag : Setting → String
  | out => "--out"
  | expected => "--expected"
  | worklist => "--worklist"

def change (s : Setting) (a : Arguments) (value : String) : Arguments :=
  match s with
  | out => { a with out := .ofString value }
  | expected => { a with expected := some (.ofString value) }
  | worklist => { a with worklist := some (.ofString value) }

end Setting

/-- What is said by one argument, or by an option and its value. -/
inductive Item
  | setting (s : Setting) (value : String)
  | verify
  | pattern (text : String)
deriving DecidableEq

namespace Item

def words : Item → List String
  | setting s value => [s.flag, value]
  | verify => ["--verify"]
  | pattern text => [text]

/-- The item can be read back from its words: a pattern is not spelled like an option. A value may be. -/
def Readable : Item → Prop
  | pattern text => text.toList ∉ Grammar.language optionPattern
  | setting _ _ | verify => True

def tell (a : Arguments) : Item → Arguments
  | setting s value => s.change a value
  | verify => { a with verify := true }
  | pattern text => { a with patterns := a.patterns ++ [text] }

def value? (s : Setting) : Item → Option String
  | setting s' value => if s' = s then some value else none
  | verify | pattern _ => none

def pattern? : Item → Option String
  | pattern text => some text
  | setting _ _ | verify => none

end Item

/-- The arguments are the words of the items, in their order. -/
structure Spells (items : List Item) (args : List String) : Prop where
  words_eq : items.flatMap Item.words = args
  readable : ∀ item ∈ items, item.Readable

def valueOf (s : Setting) (items : List Item) : Option String := (items.filterMap (Item.value? s)).getLast?

def given (items : List Item) : List String := items.filterMap Item.pattern?

variable {item : Item} {items items' : List Item}

theorem Setting.flag_injective : Function.Injective Setting.flag := by
  intro s s'
  cases s <;> cases s' <;> decide

theorem Setting.flag_ne_verify (s : Setting) : s.flag ≠ "--verify" := by
  cases s <;> decide

theorem setter?_flag (s : Setting) : setter? s.flag = some s.change := by
  cases s <;> rfl

theorem exists_of_setter? {f : Arguments → String → Arguments} (h : setter? arg = some f) :
    ∃ s : Setting, s.flag = arg ∧ s.change = f := by
  unfold setter? at h
  split at h
  · next harg => exact ⟨.out, harg.symm, Option.some.inj h⟩
  split at h
  · next harg => exact ⟨.expected, harg.symm, Option.some.inj h⟩
  split at h
  · next harg => exact ⟨.worklist, harg.symm, Option.some.inj h⟩
  · cases h

theorem isOption_flag (s : Setting) : isOption s.flag = true := by
  cases s <;> decide +kernel

theorem isOption_verify : isOption "--verify" = true := by
  decide +kernel

/-- What is not spelled like an option is none. -/
theorem not_option (h : isOption arg = false) : arg ≠ "--verify" ∧ setter? arg = none := by
  constructor
  · rintro rfl
    rw [isOption_verify] at h
    cases h
  · rw [Option.eq_none_iff_forall_ne_some]
    intro f hf
    obtain ⟨s, rfl, -⟩ := exists_of_setter? hf
    rw [isOption_flag] at h
    cases h

/-- An item is read by telling it. -/
theorem read_words (h : item.Readable) (a : Arguments) (rest : List String) :
    read a (item.words ++ rest) = read (item.tell a) rest := by
  cases item with
  | setting s value =>
    simp only [Item.words, List.cons_append, List.nil_append, read, if_neg s.flag_ne_verify, setter?_flag, Item.tell]
  | verify => cases rest <;> simp [Item.words, Item.tell, read]
  | pattern text =>
    have hoption : isOption text = false := by rwa [← Bool.not_eq_true, isOption_iff]
    obtain ⟨hverify, hsetter⟩ := not_option hoption
    cases rest <;> simp [Item.words, Item.tell, read, hverify, hsetter, hoption]

/-- Arguments that are taken begin with an item. -/
theorem exists_item_of_read {a b : Arguments} (h : read a (arg :: args) = .ok b) :
    ∃ (item : Item) (rest : List String), item.Readable ∧ arg :: args = item.words ++ rest := by
  by_cases hverify : arg = "--verify"
  · exact ⟨.verify, args, trivial, by rw [hverify]; rfl⟩
  cases hsetter : setter? arg with
  | some f =>
    obtain ⟨s, rfl, -⟩ := exists_of_setter? hsetter
    cases args with
    | nil => simp [read, hverify, hsetter] at h
    | cons value rest => exact ⟨.setting s value, rest, trivial, rfl⟩
  | none =>
    have hoption : ¬ isOption arg = true := by
      intro hoption
      cases args <;> simp [read, hverify, hsetter, hoption] at h
    exact ⟨.pattern arg, args, isOption_iff.not.mp hoption, rfl⟩

theorem Item.length_words_pos (item : Item) : 0 < item.words.length := by
  cases item <;> exact Nat.succ_pos _

/-- The words of an item say where it ends and which it is. -/
theorem words_append_inj {item item' : Item} {rest rest' : List String} (h : item.Readable) (h' : item'.Readable)
    (heq : item.words ++ rest = item'.words ++ rest') : item = item' ∧ rest = rest' := by
  cases item <;> cases item' <;> simp only [Item.words, List.cons_append, List.nil_append, List.cons.injEq] at heq
  case setting.setting s value s' value' =>
    obtain ⟨hflag, rfl, rfl⟩ := heq
    rw [Setting.flag_injective hflag]
    exact ⟨rfl, rfl⟩
  case setting.verify s value => exact absurd heq.1 s.flag_ne_verify
  case setting.pattern s value text => exact absurd (isOption_iff.mp (heq.1 ▸ isOption_flag s)) h'
  case verify.setting s value => exact absurd heq.1.symm s.flag_ne_verify
  case verify.verify => exact ⟨rfl, heq.2⟩
  case verify.pattern text => exact absurd (isOption_iff.mp (heq.1 ▸ isOption_verify)) h'
  case pattern.setting text s value => exact absurd (isOption_iff.mp (heq.1 ▸ isOption_flag s)) h
  case pattern.verify text => exact absurd (isOption_iff.mp (heq.1 ▸ isOption_verify)) h
  case pattern.pattern text text' => exact ⟨congrArg Item.pattern heq.1, heq.2⟩

theorem spells_nil : Spells [] [] := ⟨rfl, by simp⟩

theorem spells_cons_iff : Spells (item :: items) args ↔
    item.Readable ∧ ∃ rest, args = item.words ++ rest ∧ Spells items rest := by
  constructor
  · rintro ⟨rfl, hreadable⟩
    obtain ⟨hitem, hitems⟩ := List.forall_mem_cons.mp hreadable
    exact ⟨hitem, items.flatMap Item.words, List.flatMap_cons, rfl, hitems⟩
  · rintro ⟨hitem, rest, rfl, rfl, hitems⟩
    exact ⟨List.flatMap_cons, List.forall_mem_cons.mpr ⟨hitem, hitems⟩⟩

theorem Spells.read (h : Spells items args) (a : Arguments) :
    Arguments.read a args = .ok (items.foldl Item.tell a) := by
  induction items generalizing a args with
  | nil =>
    obtain ⟨rfl, -⟩ := h
    rfl
  | cons item items ih =>
    obtain ⟨hitem, rest, rfl, hrest⟩ := spells_cons_iff.mp h
    rw [read_words hitem, ih hrest, List.foldl_cons]

theorem exists_spells_of_read {a b : Arguments} {args : List String} (h : read a args = .ok b) :
    ∃ items, Spells items args := by
  cases args with
  | nil => exact ⟨[], spells_nil⟩
  | cons arg args =>
    obtain ⟨item, rest, hitem, hargs⟩ := exists_item_of_read h
    have hshorter : rest.length < (arg :: args).length := by
      rw [hargs, List.length_append]
      exact Nat.lt_add_of_pos_left item.length_words_pos
    rw [hargs, read_words hitem] at h
    obtain ⟨items, hitems⟩ := exists_spells_of_read h
    exact ⟨item :: items, spells_cons_iff.mpr ⟨hitem, rest, hargs, hitems⟩⟩
termination_by args.length

/-- Arguments are spelled in one way only. -/
theorem Spells.unique (h : Spells items args) (h' : Spells items' args) : items = items' := by
  induction items generalizing items' args with
  | nil =>
    obtain ⟨rfl, -⟩ := h
    cases items' with
    | nil => rfl
    | cons item' items' =>
      obtain ⟨-, rest, hargs, -⟩ := spells_cons_iff.mp h'
      cases item' <;> cases hargs
  | cons item items ih =>
    obtain ⟨hitem, rest, rfl, hrest⟩ := spells_cons_iff.mp h
    cases items' with
    | nil =>
      obtain ⟨hargs, -⟩ := h'
      cases item <;> cases hargs
    | cons item' items' =>
      obtain ⟨hitem', rest', hargs, hrest'⟩ := spells_cons_iff.mp h'
      obtain ⟨rfl, rfl⟩ := words_append_inj hitem hitem' hargs
      rw [ih hrest hrest']

theorem valueOf_concat (s : Setting) : valueOf s (items ++ [item]) = (item.value? s).or (valueOf s items) := by
  cases hvalue : item.value? s <;> simp [valueOf, hvalue]

theorem given_concat : given (items ++ [item]) = given items ++ item.pattern?.toList := by
  cases hpattern : item.pattern? <;> simp [given, hpattern]

/-- What is known once all items are told. -/
theorem foldl_tell (items : List Item) : items.foldl Item.tell .initial =
    { out := .ofString ((valueOf .out items).getD "output")
      expected := (valueOf .expected items).map .ofString
      worklist := (valueOf .worklist items).map .ofString
      verify := items.contains .verify
      patterns := given items } := by
  induction items using List.reverseRecOn with
  | nil => rfl
  | append_singleton items item ih =>
    rw [List.foldl_append, ih]
    simp only [valueOf_concat, given_concat]
    cases item with
    | setting s value => cases s <;> simp [Item.tell, Setting.change, Item.value?, Item.pattern?]
    | verify => simp [Item.tell, Item.value?, Item.pattern?]
    | pattern text => simp [Item.tell, Item.value?, Item.pattern?]

end Arguments

inductive FileTree.Lists (t : FileTree) : Option Path → List String → Prop
  | none : Lists t none []
  | file {p : Path} {text : String} (h : t.read p = .ok text) : Lists t (some p) (worklistPatterns text)

theorem FileTree.lists_some_iff {t : FileTree} {p : Path} {listed : List String} :
    t.Lists (some p) listed ↔ ∃ text, t.read p = .ok text ∧ worklistPatterns text = listed := by
  constructor
  · intro h
    cases h with
    | file hread => exact ⟨_, hread, rfl⟩
  · rintro ⟨text, hread, rfl⟩
    exact .file hread

namespace Config

open Arguments

variable {args : List String} {items : List Item} {s s' : Session} {c : Config}

/-- Arguments are read first, and then the worklist if they name one. -/
theorem run_load_eq_ok_iff : load Session.workspace args s = (.ok c, s') ↔ s = s' ∧
    ∃ a, Arguments.initial.read args = .ok a ∧ ∃ listed, s.tree.Lists a.worklist listed ∧ ofArguments a listed = c := by
  rw [load]
  cases Arguments.initial.read args with
  | error e =>
    constructor
    · intro h
      cases h
    · rintro ⟨-, a, ha, -⟩
      cases ha
  | ok a =>
    simp only [Except.ok.injEq, exists_eq_left']
    cases a.worklist with
    | none =>
      constructor
      · intro h
        cases h
        exact ⟨rfl, [], .none, rfl⟩
      · rintro ⟨rfl, listed, hlisted, rfl⟩
        cases hlisted
        rfl
    | some file =>
      have hrun : Session.workspace.read file s = (s.tree.read file, s) := rfl
      simp only [bind, StateT.bind, hrun]
      cases hcontent : s.tree.read file with
      | error e =>
        constructor
        · intro h
          cases h
        · rintro ⟨-, listed, hlisted, -⟩
          obtain ⟨text, hread, -⟩ := FileTree.lists_some_iff.mp hlisted
          rw [hcontent] at hread
          cases hread
      | ok text =>
        constructor
        · intro h
          cases h
          exact ⟨rfl, _, .file hcontent, rfl⟩
        · rintro ⟨rfl, listed, hlisted, rfl⟩
          obtain ⟨text', hread, rfl⟩ := FileTree.lists_some_iff.mp hlisted
          rw [hcontent] at hread
          cases hread
          rfl

/-- The configuration is what the items say. The default patterns stand in where there is none, given or listed. -/
structure Tells (c : Config) (items : List Item) (t : FileTree) : Prop where
  out_eq : c.out = .ofString ((valueOf .out items).getD "output")
  expected_eq : c.expected = (valueOf .expected items).map .ofString
  verify_iff : c.verify = true ↔ .verify ∈ items
  exists_listed : ∃ listed, t.Lists ((valueOf .worklist items).map .ofString) listed ∧
    c.patterns = if given items ++ listed = [] then defaultPatterns else given items ++ listed

theorem tells_iff {t : FileTree} : c.Tells items t ↔
    ∃ listed, t.Lists (items.foldl Item.tell .initial).worklist listed ∧
      ofArguments (items.foldl Item.tell .initial) listed = c := by
  rw [foldl_tell]
  constructor
  · rintro ⟨hout, hexpected, hverify, listed, hlisted, hpatterns⟩
    have hcontains : items.contains .verify = c.verify := by
      rw [Bool.eq_iff_iff, hverify, List.contains_iff_mem]
    refine ⟨listed, hlisted, ?_⟩
    simp only [ofArguments, List.isEmpty_iff, ← hout, ← hexpected, hcontains, ← hpatterns]
  · rintro ⟨listed, hlisted, rfl⟩
    exact ⟨rfl, rfl, List.contains_iff_mem, listed, hlisted, by simp only [ofArguments, List.isEmpty_iff]⟩

/-- Arguments are taken if they are spelled by items, in one way only, and if the worklist that is named last can be
read. The configuration is then what the items say, and nothing is written. -/
theorem load_eq_ok_iff (args : List String) (s s' : Session) (c : Config) :
    load Session.workspace args s = (.ok c, s') ↔
      s = s' ∧ ∃ items, (∀ other, Spells other args ↔ other = items) ∧ c.Tells items s.tree := by
  simp only [tells_iff]
  rw [run_load_eq_ok_iff]
  refine and_congr_right fun _ => ?_
  constructor
  · rintro ⟨a, hread, hlists⟩
    obtain ⟨items, hitems⟩ := exists_spells_of_read hread
    rw [hitems.read .initial, Except.ok.injEq] at hread
    subst hread
    have hunique : ∀ other, Spells other args ↔ other = items := by
      intro other
      constructor
      · intro hother
        exact hother.unique hitems
      · rintro rfl
        exact hitems
    exact ⟨items, hunique, hlists⟩
  · rintro ⟨items, hunique, hlists⟩
    exact ⟨_, ((hunique items).mpr rfl).read .initial, hlists⟩

/-- A worklist without patterns is named, and yet the default patterns are taken. -/
theorem defaults_of_empty_worklist :
    Spells [.setting .worklist "w"] ["--worklist", "w"] ∧ valueOf .worklist [.setting .worklist "w"] = some "w" ∧
    (FileTree.set (.bare []) [['w']] (.file "")).Lists (some (.ofString "w")) [] ∧
    load Session.workspace ["--worklist", "w"] ⟨.set (.bare []) [['w']] (.file ""), ""⟩ =
      (.ok ⟨.ofString "output", none, false, defaultPatterns⟩, ⟨.set (.bare []) [['w']] (.file ""), ""⟩) := by
  have hspells : Spells [.setting .worklist "w"] ["--worklist", "w"] := ⟨rfl, List.forall_mem_singleton.mpr trivial⟩
  have hread : (FileTree.set (.bare []) [['w']] (.file "")).read (.ofString "w") = .ok "" := by decide +kernel
  have hlisted : (FileTree.set (.bare []) [['w']] (.file "")).Lists (some (.ofString "w")) [] := .file hread
  exact ⟨hspells, rfl, hlisted, run_load_eq_ok_iff.mpr ⟨rfl, _, hspells.read .initial, [], hlisted, rfl⟩⟩

end Config

end PatternAutomata
