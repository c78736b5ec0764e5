import Mathlib.Data.List.Basic
import Mathlib.Data.List.Infix
import PatternAutomata.FileTree

namespace PatternAutomata

namespace Path

theorem pieces_ne_nil (chars : List Char) : pieces chars ≠ [] := by
  cases chars with
  | nil => exact List.cons_ne_nil _ _
  | cons c rest =>
    rw [pieces]
    split
    · exact List.cons_ne_nil _ _
    · split <;> exact List.cons_ne_nil _ _

theorem pieces_append_slash (left right : List Char) : pieces (left ++ '/' :: right) = pieces left ++ pieces right := by
  induction left with
  | nil => rfl
  | cons c rest ih =>
    rw [List.cons_append, pieces, pieces, ih]
    split
    · rfl
    · obtain ⟨piece, later, hpieces⟩ := List.exists_cons_of_ne_nil (pieces_ne_nil rest)
      rw [hpieces]
      rfl

theorem names_append_slash (left right : List Char) :
    names ⟨left ++ '/' :: right⟩ = names ⟨left⟩ ++ names ⟨right⟩ := by
  rw [names, names, names, pieces_append_slash, List.filter_append]

variable {p q : Path}

theorem join_of_isAbsolute (hq : q.isAbsolute = true) : p.join q = q := by rw [join, if_pos hq]

theorem names_join (hq : q.isAbsolute = false) : (p.join q).names = p.names ++ q.names := by
  have hjoin : p.join q =
      if p.chars.isEmpty || p.endsInSlash then ⟨p.chars ++ q.chars⟩ else ⟨p.chars ++ '/' :: q.chars⟩ := by
    rw [join, hq]
    rfl
  rw [hjoin]
  split
  · next h =>
    -- No slash is added behind an empty path or one that ends in a slash already.
    rcases (Bool.or_eq_true _ _).mp h with hempty | hslash
    · have hchars : p.chars = [] := List.isEmpty_iff.mp hempty
      have hnames : p.names = [] := by
        rw [names, hchars]
        rfl
      rw [hchars, hnames]
      rfl
    · obtain ⟨before, hchars⟩ : ∃ before, p.chars = before ++ ['/'] := by
        rw [endsInSlash, beq_iff_eq, List.getLast?_eq_some_iff] at hslash
        exact hslash
      have hnames : p.names = names ⟨before⟩ := by
        have h := names_append_slash before []
        rw [← hchars] at h
        exact h.trans (List.append_nil _)
      rw [hchars, List.append_assoc, hnames]
      exact names_append_slash before q.chars
  · exact names_append_slash p.chars q.chars

theorem isAbsolute_join (hq : q.isAbsolute = false) : (p.join q).isAbsolute = p.isAbsolute := by
  rw [join, hq, isAbsolute, isAbsolute]
  cases hchars : p.chars with
  | nil =>
    rw [isAbsolute] at hq
    simpa using hq
  | cons c rest =>
    simp only [Bool.false_eq_true, if_false]
    split <;> rfl

def advance (l : Location) (name : Name) : Location :=
  if name = here then l else if name = up then l.dropLast else l ++ [name]

def resolve (l : Location) (names : List Name) : Location := names.foldl advance l

theorem resolve_append (l : Location) (xs ys : List Name) : resolve l (xs ++ ys) = resolve (resolve l xs) ys :=
  List.foldl_append

def target (current : Location) (p : Path) : Location := resolve (if p.isAbsolute then [] else current) p.names

theorem target_join (current : Location) (hq : q.isAbsolute = false) :
    (p.join q).target current = resolve (p.target current) q.names := by
  rw [target, names_join hq, isAbsolute_join hq, resolve_append]
  rfl

/-- No leading part of the names goes up more often than down. -/
def StaysBelow (names : List Name) : Prop :=
  ∀ leading ∈ names.inits, leading.count up ≤ leading.countP fun name => name != here && name != up

instance (names : List Name) : Decidable (StaysBelow names) :=
  inferInstanceAs (Decidable (∀ leading ∈ names.inits, _))

theorem exists_below_of_resolve (l below : Location) {names : List Name} (h : ∀ leading, leading <+: names →
    leading.count up ≤ leading.countP (fun name => name != here && name != up) + below.length) :
    ∃ below', resolve (l ++ below) names = l ++ below' := by
  induction names generalizing below with
  | nil => exact ⟨below, rfl⟩
  | cons name names ih =>
    have hlater (leading : List Name) (hleading : leading <+: names) :=
      h (name :: leading) (List.cons_prefix_cons.mpr ⟨rfl, hleading⟩)
    have hstep : resolve (l ++ below) (name :: names) = resolve (advance (l ++ below) name) names := rfl
    rw [hstep, advance]
    split
    · next hhere =>
      apply ih below
      intro leading hleading
      have := hlater leading hleading
      rw [hhere, List.count_cons_of_ne (by decide), List.countP_cons_of_neg (by simp)] at this
      exact this
    · split
      · next hup =>
        -- There is a name to leave, or one step would already go up too often.
        have hfirst := hlater [] List.nil_prefix
        rw [hup] at hfirst
        rcases List.eq_nil_or_concat below with rfl | ⟨below, last, rfl⟩
        · exact absurd hfirst (by decide)
        · rw [List.concat_eq_append, ← List.append_assoc, List.dropLast_concat]
          apply ih below
          intro leading hleading
          have := hlater leading hleading
          rw [hup, List.count_cons_self, List.countP_cons_of_neg (by simp), List.concat_eq_append, List.length_append,
            List.length_singleton] at this
          omega
      · next hhere hup =>
        rw [List.append_assoc]
        apply ih (below ++ [name])
        intro leading hleading
        have := hlater leading hleading
        rw [List.count_cons_of_ne hup, List.countP_cons_of_pos (by simp [hhere, hup])] at this
        rw [List.length_append, List.length_singleton]
        omega

/-- Then they lead to a place below. -/
theorem StaysBelow.prefix_resolve {names leading : List Name} (h : StaysBelow names) (hleading : leading <+: names)
    (l : Location) : l <+: resolve l leading := by
  have hcount (more : List Name) (hmore : more <+: leading) :=
    h more ((List.mem_inits _ _).mpr (hmore.trans hleading))
  obtain ⟨below, hbelow⟩ := exists_below_of_resolve l [] hcount
  rw [List.append_nil] at hbelow
  rw [hbelow]
  exact List.prefix_append l below

/-- The places on the way to where a path leads: that of its first names, of none, of some and of all of them. -/
def way (current : Location) (p : Path) : List Location :=
  p.names.inits.map (resolve (if p.isAbsolute then [] else current))

theorem mem_way {current l : Location} : l ∈ p.way current ↔
    ∃ names, names <+: p.names ∧ resolve (if p.isAbsolute then [] else current) names = l := by
  simp [way]

theorem target_mem_way (current : Location) (p : Path) : p.target current ∈ p.way current :=
  mem_way.mpr ⟨p.names, List.prefix_rfl, rfl⟩

theorem mem_way_join {current l : Location} (hq : q.isAbsolute = false) : l ∈ (p.join q).way current ↔
    l ∈ p.way current ∨ ∃ names, names <+: q.names ∧ resolve (p.target current) names = l := by
  rw [mem_way, mem_way, isAbsolute_join hq, names_join hq]
  constructor
  · rintro ⟨names, ⟨rest, hrest⟩, rfl⟩
    rcases List.append_eq_append_iff.mp hrest with ⟨as, hp, -⟩ | ⟨bs, rfl, hq'⟩
    · exact .inl ⟨names, ⟨as, hp.symm⟩, rfl⟩
    · refine .inr ⟨bs, ⟨rest, hq'.symm⟩, ?_⟩
      rw [resolve_append]
      rfl
  · rintro (⟨names, hnames, rfl⟩ | ⟨names, hnames, rfl⟩)
    · exact ⟨names, hnames.trans (List.prefix_append ..), rfl⟩
    · refine ⟨p.names ++ names, (List.prefix_append_right_inj p.names).mpr hnames, ?_⟩
      rw [resolve_append]
      rfl

def IsName (name : Name) : Prop := name ≠ [] ∧ '/' ∉ name

theorem slash_not_mem_pieces {chars : List Char} {piece : Name} (h : piece ∈ pieces chars) : '/' ∉ piece := by
  induction chars generalizing piece with
  | nil =>
    obtain rfl := List.mem_singleton.mp h
    exact List.not_mem_nil
  | cons c rest ih =>
    rw [pieces] at h
    split at h
    · rcases List.mem_cons.mp h with rfl | h
      · exact List.not_mem_nil
      · exact ih h
    · next hc =>
      obtain ⟨first, later, hpieces⟩ := List.exists_cons_of_ne_nil (pieces_ne_nil rest)
      rw [hpieces] at h ih
      rcases List.mem_cons.mp h with rfl | h
      · rw [List.mem_cons, not_or]
        exact ⟨Ne.symm hc, ih List.mem_cons_self⟩
      · exact ih (List.mem_cons_of_mem _ h)

theorem isName_of_mem_names {name : Name} (h : name ∈ p.names) : IsName name := by
  obtain ⟨hpiece, hne⟩ := List.mem_filter.mp h
  exact ⟨by simpa using hne, slash_not_mem_pieces hpiece⟩

theorem pieces_of_not_mem {chars : List Char} (h : '/' ∉ chars) : pieces chars = [chars] := by
  induction chars with
  | nil => rfl
  | cons c rest ih =>
    obtain ⟨hc, hrest⟩ := List.ne_and_not_mem_of_not_mem_cons h
    rw [pieces, if_neg hc.symm, ih hrest]

theorem names_of_isName {name : Name} (h : IsName name) : names ⟨name⟩ = [name] := by
  rw [names, pieces_of_not_mem h.2]
  simp [h.1]

theorem names_intercalate {names : List Name} (h : ∀ name ∈ names, IsName name) :
    Path.names ⟨['/'].intercalate names⟩ = names := by
  induction names with
  | nil => rfl
  | cons name rest ih =>
    obtain ⟨hname, hrest⟩ := List.forall_mem_cons.mp h
    cases rest with
    | nil =>
      rw [List.intercalate_singleton]
      exact names_of_isName hname
    | cons name' rest =>
      rw [List.intercalate_cons_cons, List.append_assoc]
      show Path.names ⟨name ++ '/' :: ['/'].intercalate (name' :: rest)⟩ = _
      rw [names_append_slash, names_of_isName hname, ih hrest]
      rfl

theorem isAbsolute_intercalate {names : List Name} (h : ∀ name ∈ names, IsName name) :
    Path.isAbsolute ⟨['/'].intercalate names⟩ = false := by
  cases names with
  | nil => rfl
  | cons name rest =>
    obtain ⟨hne, hslash⟩ := h name List.mem_cons_self
    obtain ⟨c, later, rfl⟩ := List.exists_cons_of_ne_nil hne
    have hc : c ≠ '/' := (List.ne_and_not_mem_of_not_mem_cons hslash).1.symm
    cases rest <;> simp [isAbsolute, List.intercalate_singleton, List.intercalate_cons_cons, hc]

theorem target_ofComponents (current : Location) (absolute : Bool) {names : List Name}
    (h : ∀ name ∈ names, IsName name) :
    (ofComponents absolute names).target current = resolve (if absolute then [] else current) names := by
  rw [target, ofComponents]
  cases absolute with
  | false =>
    rw [if_neg Bool.false_ne_true, if_neg Bool.false_ne_true, List.nil_append, names_intercalate h,
      isAbsolute_intercalate h]
    rfl
  | true =>
    rw [if_pos rfl, if_pos rfl, List.singleton_append]
    show resolve [] (Path.names ⟨[] ++ '/' :: ['/'].intercalate names⟩) = _
    rw [names_append_slash, names_intercalate h]
    rfl

/-- Leaving out `.` changes nothing. -/
theorem exists_prefix_of_prefix_filter (l : Location) {xs ys : List Name} (h : ys <+: xs.filter (· != here)) :
    ∃ zs, zs <+: xs ∧ resolve l zs = resolve l ys := by
  obtain ⟨rest, hrest⟩ := h
  obtain ⟨zs, later, rfl, rfl, -⟩ := List.filter_eq_append_iff.mp hrest.symm
  refine ⟨zs, List.prefix_append zs later, ?_⟩
  clear hrest
  induction zs generalizing l with
  | nil => rfl
  | cons z zs ih =>
    by_cases hz : z = here
    · rw [hz]
      exact ih l
    · rw [List.filter_cons_of_pos (by simpa using hz)]
      exact ih (advance l z)

theorem mem_names_of_mem_components {name : Name} (h : name ∈ p.components) : name ∈ p.names := by
  rw [components] at h
  cases hnames : p.names with
  | nil =>
    rw [hnames] at h
    exact h
  | cons first rest =>
    rw [hnames] at h
    dsimp only at h
    split at h
    · exact List.mem_cons_of_mem _ (List.mem_of_mem_filter h)
    · rcases List.mem_cons.mp h with rfl | h
      · exact List.mem_cons_self
      · exact List.mem_cons_of_mem _ (List.mem_of_mem_filter h)

theorem exists_prefix_of_prefix_components (l : Location) {ys : List Name} (h : ys <+: p.components) :
    ∃ zs, zs <+: p.names ∧ resolve l zs = resolve l ys := by
  rw [components] at h
  cases hnames : p.names with
  | nil =>
    rw [hnames] at h
    exact ⟨ys, h, rfl⟩
  | cons first rest =>
    rw [hnames] at h
    dsimp only at h
    split at h
    · next hfirst =>
      obtain ⟨zs, hzs, hresolve⟩ := exists_prefix_of_prefix_filter l h
      refine ⟨first :: zs, List.cons_prefix_cons.mpr ⟨rfl, hzs⟩, ?_⟩
      rw [← hresolve, of_decide_eq_true (Bool.and_eq_true_iff.mp hfirst).1]
      rfl
    · rcases List.prefix_cons_iff.mp h with rfl | ⟨ys, rfl, hys⟩
      · exact ⟨[], List.nil_prefix, rfl⟩
      · obtain ⟨zs, hzs, hresolve⟩ := exists_prefix_of_prefix_filter (advance l first) hys
        exact ⟨first :: zs, List.cons_prefix_cons.mpr ⟨rfl, hzs⟩, hresolve⟩

/-- The directories above a path lie on its way. -/
theorem target_mem_way_of_mem_ancestors (current : Location) (h : q ∈ p.ancestors) :
    q.target current ∈ p.way current := by
  obtain ⟨n, -, rfl⟩ := List.mem_map.mp h
  have hnames : ∀ name ∈ p.components.take n, IsName name :=
    fun name hname => isName_of_mem_names (mem_names_of_mem_components (List.mem_of_mem_take hname))
  rw [target_ofComponents current p.isAbsolute hnames]
  exact mem_way.mpr (exists_prefix_of_prefix_components _ (List.take_prefix n p.components))

theorem resolve_neighbours_below (l : Location) (a b : Name) (below : List Name) (names : List Name) :
    resolve (l ++ a :: below) names = resolve (l ++ b :: below) names ∨
      ∃ below', resolve (l ++ a :: below) names = l ++ a :: below' ∧
        resolve (l ++ b :: below) names = l ++ b :: below' := by
  induction names generalizing below with
  | nil => exact .inr ⟨below, rfl, rfl⟩
  | cons name names ih =>
    have hstep (l' : Location) : resolve l' (name :: names) = resolve (advance l' name) names := rfl
    rw [hstep, hstep, advance, advance]
    split
    · exact ih below
    · split
      · -- Going up from a neighbour itself leaves the two names behind.
        rcases List.eq_nil_or_concat below with rfl | ⟨below, last, rfl⟩
        · left
          rw [List.dropLast_concat, List.dropLast_concat]
        · rw [List.concat_eq_append, ← List.cons_append, ← List.cons_append, ← List.append_assoc,
            ← List.append_assoc, List.dropLast_concat, List.dropLast_concat]
          exact ih below
      · rw [List.append_assoc, List.append_assoc]
        exact ih (below ++ [name])

/-- From neighbours the same names lead to one place, or to the same place below each. -/
theorem resolve_neighbours (l : Location) (a b : Name) (names : List Name) :
    resolve (l ++ [a]) names = resolve (l ++ [b]) names ∨
      ∃ below, resolve (l ++ [a]) names = l ++ a :: below ∧ resolve (l ++ [b]) names = l ++ b :: below :=
  resolve_neighbours_below l a b [] names

/-- The same for a path that is seen from neighbours. -/
theorem target_join_neighbours {current l : Location} {a b : Name} {r s : Path} (hr : r.target current = l ++ [a])
    (hs : s.target current = l ++ [b]) (q : Path) :
    (r.join q).target current = (s.join q).target current ∨
      ∃ below, (r.join q).target current = l ++ a :: below ∧ (s.join q).target current = l ++ b :: below := by
  cases hq : q.isAbsolute with
  | true =>
    left
    rw [join_of_isAbsolute hq, join_of_isAbsolute hq]
  | false =>
    rw [target_join current hq, target_join current hq, hr, hs]
    exact resolve_neighbours l a b q.names

end Path

end PatternAutomata
