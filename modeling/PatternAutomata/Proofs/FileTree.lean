import PatternAutomata.Proofs.Path

namespace PatternAutomata

namespace FileTree

variable {t u v : FileTree} {l l' : Location} {p : Path} {content : String}

theorem ne_nil_of_not_directory (h : t.entry? l ≠ some .directory) : l ≠ [] := by
  rintro rfl
  exact h rfl

theorem entry?_set {e : Entry} (hl : l ≠ []) (l' : Location) :
    entry? (t.set l e) l' = if l' = l then some e else t.entry? l' := by
  have hget : (t.set l e).entries.get? l' = if l' = l then some e else t.entries.get? l' :=
    Listing.get?_insert t.entries l l' e
  rw [ entry?, entry?, hget]
  cases l' with
  | nil => simp [Ne.symm hl]
  | cons name rest => rfl

def Admits (t : FileTree) (l : Location) (name : Name) : Prop :=
  t.entry? l = some .directory ∧
    (name = Path.here ∨ name = Path.up ∨ Path.byteLength name ≤ maxName ∧ (t.entry? (l ++ [name])).isSome = true)

theorem follow_cons_eq_ok {name : Name} {rest : List Name} :
    t.follow l (name :: rest) = .ok l' ↔ t.Admits l name ∧ t.follow (Path.advance l name) rest = .ok l' := by
  rw [follow, Admits, Path.advance]
  by_cases hdirectory : t.entry? l = some .directory
  · by_cases hhere : name = Path.here
    · simp [hdirectory, hhere]
    · by_cases hup : name = Path.up
      · have hne : Path.up ≠ Path.here := by decide
        simp [hdirectory, hup, hne]
      · by_cases hlength : maxName < Path.byteLength name
        · simp [hdirectory, hhere, hup, hlength, Nat.not_le.mpr hlength]
        · cases hentry : t.entry? (l ++ [name]) <;> simp [hdirectory, hhere, hup, hlength, Nat.not_lt.mp hlength]
  · simp [hdirectory]

theorem resolve_of_follow {names : List Name} (h : t.follow l names = .ok l') : Path.resolve l names = l' := by
  induction names generalizing l with
  | nil => exact Except.ok.inj h
  | cons name rest ih => exact ih (follow_cons_eq_ok.mp h).2

theorem follow_append {l'' : Location} {names names' : List Name} (h : t.follow l names = .ok l')
    (h' : t.follow l' names' = .ok l'') : t.follow l (names ++ names') = .ok l'' := by
  induction names generalizing l with
  | nil =>
    obtain rfl := Except.ok.inj h
    exact h'
  | cons name rest ih =>
    obtain ⟨hadmits, hrest⟩ := follow_cons_eq_ok.mp h
    exact follow_cons_eq_ok.mpr ⟨hadmits, ih hrest⟩

/-- What is found is found where the path leads. -/
theorem target_of_locate (h : t.locate p = .ok l) : p.target t.current = l := by
  rw [locate] at h
  split at h
  · cases h
  · have hresolve := resolve_of_follow h
    split at hresolve
    · rw [Path.resolve_append] at hresolve
      exact hresolve
    · exact hresolve

theorem isPresent_iff : t.isPresent p = true ↔ t.locate p = .ok (p.target t.current) := by
  rw [isPresent]
  cases hlocate : t.locate p with
  | error e => simp [Except.isOk, Except.toBool]
  | ok l => simp [Except.isOk, Except.toBool, target_of_locate hlocate]

/-- `u` is `t` after some operations: nothing is missing, and directories and files are what they were. -/
structure Grows (t u : FileTree) : Prop where
  current_eq : u.current = t.current
  kept : ∀ l e, t.entry? l = some e → ∃ e', u.entry? l = some e' ∧ (e = .directory ↔ e' = .directory)

namespace Grows

theorem directory (h : Grows t u) (hl : t.entry? l = some .directory) : u.entry? l = some .directory := by
  obtain ⟨e, he, hkind⟩ := h.kept l _ hl
  rw [he, hkind.mp rfl]

theorem isSome (h : Grows t u) (hl : (t.entry? l).isSome = true) : (u.entry? l).isSome = true := by
  obtain ⟨e, he⟩ := Option.isSome_iff_exists.mp hl
  obtain ⟨e', he', -⟩ := h.kept l e he
  rw [he']
  rfl

/-- Names that could be followed still can. -/
theorem follow (h : Grows t u) {names : List Name} (hfollow : t.follow l names = .ok l') :
    u.follow l names = .ok l' := by
  induction names generalizing l with
  | nil => exact hfollow
  | cons name rest ih =>
    obtain ⟨⟨hdirectory, hname⟩, hrest⟩ := follow_cons_eq_ok.mp hfollow
    have hname' := hname.imp_right fun h' => h'.imp_right fun h'' => h''.imp_right h.isSome
    exact follow_cons_eq_ok.mpr ⟨⟨h.directory hdirectory, hname'⟩, ih hrest⟩

theorem locate (h : Grows t u) (hlocate : t.locate p = .ok l) : u.locate p = .ok l := by
  have horigin : u.origin p = t.origin p := by rw [origin, origin, h.current_eq]
  rw [FileTree.locate] at hlocate ⊢
  split at hlocate
  · cases hlocate
  · rw [horigin]
    exact h.follow hlocate

theorem isPresent (h : Grows t u) (hpresent : t.isPresent p = true) : u.isPresent p = true := by
  rw [isPresent_iff, h.current_eq]
  exact h.locate (isPresent_iff.mp hpresent)

end Grows

/-- `u` is `t` after directories were made: all that was there is as it was. -/
structure Keeps (t u : FileTree) : Prop where
  current_eq : u.current = t.current
  kept : ∀ l e, t.entry? l = some e → u.entry? l = some e

theorem Keeps.grows (h : Keeps t u) : Grows t u := ⟨h.current_eq, fun l e he => ⟨e, h.kept l e he, Iff.rfl⟩⟩

/-- `u` is `t` after directories were made at some places where nothing was, and files written at some places where no
directory was. -/
structure Changes (dirs files : Location → Prop) (t u : FileTree) : Prop where
  current_eq : u.current = t.current
  entry : ∀ l, u.entry? l = t.entry? l ∨ (dirs l ∧ t.entry? l = none ∧ u.entry? l = some .directory) ∨
    files l ∧ t.entry? l ≠ some .directory ∧ ∃ content, u.entry? l = some (.file content)

namespace Changes

variable {dirs files dirs' files' : Location → Prop}

theorem refl (t : FileTree) : Changes dirs files t t := ⟨rfl, fun _ => .inl rfl⟩

theorem trans (h : Changes dirs files t u) (h' : Changes dirs files u v) : Changes dirs files t v := by
  refine ⟨h'.current_eq.trans h.current_eq, ?_⟩
  intro l
  rcases h.entry l with hsame | ⟨hl, hnone, hdirectory⟩ | ⟨hl, hold, content, hfile⟩
  · rw [← hsame]
    exact h'.entry l
  · right; left
    refine ⟨hl, hnone, ?_⟩
    rcases h'.entry l with hsame' | ⟨-, hnone', -⟩ | ⟨-, hold', -⟩
    · rw [hsame', hdirectory]
    · cases hdirectory.symm.trans hnone'
    · exact absurd hdirectory hold'
  · right; right
    refine ⟨hl, hold, ?_⟩
    rcases h'.entry l with hsame' | ⟨-, hnone', -⟩ | ⟨-, -, hfile'⟩
    · exact ⟨content, hsame'.trans hfile⟩
    · cases hfile.symm.trans hnone'
    · exact hfile'

theorem mono (h : Changes dirs files t u) (hdirs : ∀ l, dirs l → dirs' l) (hfiles : ∀ l, files l → files' l) :
    Changes dirs' files' t u :=
  ⟨h.current_eq, fun l => (h.entry l).imp_right (.imp (.imp_left (hdirs l)) (.imp_left (hfiles l)))⟩

theorem grows (h : Changes dirs files t u) : Grows t u := by
  refine ⟨h.current_eq, ?_⟩
  intro l e he
  rcases h.entry l with hsame | ⟨-, hnone, -⟩ | ⟨-, hold, content, hfile⟩
  · exact ⟨e, hsame.trans he, Iff.rfl⟩
  · cases he.symm.trans hnone
  · refine ⟨_, hfile, iff_of_false ?_ (by simp)⟩
    rintro rfl
    exact hold he

/-- Where no file was written, all that was there is as it was. -/
theorem kept (h : Changes dirs files t u) (hl : ¬ files l) {e : Entry} (he : t.entry? l = some e) :
    u.entry? l = some e := by
  rcases h.entry l with hsame | ⟨-, hnone, -⟩ | ⟨hfile, -⟩
  · exact hsame.trans he
  · cases he.symm.trans hnone
  · exact absurd hfile hl

theorem keeps (h : Changes dirs (fun _ => False) t u) : Keeps t u := ⟨h.current_eq, fun _ _ => h.kept id⟩

theorem set_directory (hl : t.entry? l = none) : Changes (· = l) files t (t.set l .directory) := by
  refine ⟨rfl, ?_⟩
  intro l'
  rw [entry?_set (ne_nil_of_not_directory (t := t) (by simp [hl]))]
  split
  · next heq => exact .inr (.inl ⟨heq, heq ▸ hl, rfl⟩)
  · exact .inl rfl

theorem set_file (hl : t.entry? l ≠ some .directory) (content : String) :
    Changes dirs (· = l) t (t.set l (.file content)) := by
  refine ⟨rfl, ?_⟩
  intro l'
  rw [entry?_set (ne_nil_of_not_directory hl)]
  split
  · next heq => exact .inr (.inr ⟨heq, heq ▸ hl, content, rfl⟩)
  · exact .inl rfl

end Changes

theorem place_eq_ok {name : Name} (h : t.place p = .ok (l, some name)) : refusal? p = none ∧
    (∃ before, p.names = before ++ [name] ∧ t.follow (t.origin p) before = .ok l) ∧ t.entry? l = some .directory := by
  rw [place] at h
  split at h
  · cases h
  · next hrefusal =>
    split at h
    · cases h
    · next last hlast =>
      obtain ⟨before, hnames⟩ := List.getLast?_eq_some_iff.mp hlast
      rw [hnames, List.dropLast_concat] at h
      cases hfollow : t.follow (t.origin p) before with
      | error e =>
        rw [hfollow] at h
        cases h
      | ok l' =>
        rw [hfollow] at h
        simp only [bind, Except.bind] at h
        split at h
        · cases h
        · next hdirectory =>
          obtain ⟨rfl, hname⟩ := Prod.ext_iff.mp (Except.ok.inj h)
          obtain rfl := Option.some.inj hname
          exact ⟨hrefusal, ⟨before, hnames, hfollow⟩, not_not.mp hdirectory⟩

theorem target_of_place {name : Name} (h : t.place p = .ok (l, some name)) (hhere : name ≠ Path.here)
    (hup : name ≠ Path.up) : p.target t.current = l ++ [name] := by
  obtain ⟨-, ⟨before, hnames, hfollow⟩, -⟩ := place_eq_ok h
  show Path.resolve (t.origin p) p.names = _
  rw [hnames, Path.resolve_append, resolve_of_follow hfollow]
  show Path.advance l name = _
  rw [Path.advance, if_neg hhere, if_neg hup]

/-- One new directory, where nothing was. -/
theorem createDir_eq_ok (h : t.createDir p = .ok u) :
    t.entry? (p.target t.current) = none ∧ u = t.set (p.target t.current) .directory := by
  rw [createDir] at h
  cases hplace : t.place p with
  | error e =>
    rw [hplace] at h
    cases h
  | ok place =>
    obtain ⟨l, name⟩ := place
    rw [hplace] at h
    cases name with
    | none => cases h
    | some name =>
      simp only [bind, Except.bind] at h
      split at h
      · cases h
      · next hplain =>
        split at h
        · cases h
        · split at h
          · cases h
          · next hentry =>
            simp only [Bool.or_eq_true, decide_eq_true_eq, not_or] at hplain
            rw [target_of_place hplace hplain.1 hplain.2]
            exact ⟨by simpa using hentry, (Except.ok.inj h).symm⟩

theorem changes_of_createDir {files : Location → Prop} (h : t.createDir p = .ok u) :
    Changes (· = p.target t.current) files t u := by
  obtain ⟨hnone, rfl⟩ := createDir_eq_ok h
  exact .set_directory hnone

/-- One file, at the place to which the path leads from then on. -/
theorem write_eq_ok (h : t.write p content = .ok u) : t.entry? (p.target t.current) ≠ some .directory ∧
    u = t.set (p.target t.current) (.file content) ∧ u.locate p = .ok (p.target t.current) := by
  rw [write] at h
  cases hplace : t.place p with
  | error e =>
    rw [hplace] at h
    cases h
  | ok place =>
    obtain ⟨l, name⟩ := place
    rw [hplace] at h
    cases name with
    | none => cases h
    | some name =>
      obtain ⟨hrefusal, ⟨before, hnames, hfollow⟩, hdirectory⟩ := place_eq_ok hplace
      simp only [bind, Except.bind] at h
      split at h
      · cases h
      · next hplain =>
        split at h
        · cases h
        · next hlength =>
          split at h
          · cases h
          · next hentry =>
            simp only [Bool.or_eq_true, decide_eq_true_eq, not_or, Bool.not_eq_true] at hplain
            obtain ⟨⟨hhere, hup⟩, hslash⟩ := hplain
            obtain rfl := (Except.ok.inj h).symm
            have hadvance : Path.advance l name = l ++ [name] := by rw [Path.advance, if_neg hhere, if_neg hup]
            have htarget := target_of_place hplace hhere hup
            have hchanges : Changes (fun _ => False) _ t _ := .set_file hentry content
            have hgrows := hchanges.grows
            -- Once the file is there, its name can be followed from the directory.
            have hadmits : (t.set (l ++ [name]) (.file content)).Admits l name := by
              refine ⟨hgrows.directory hdirectory, .inr (.inr ⟨Nat.not_lt.mp hlength, ?_⟩)⟩
              rw [entry?_set (by simp), if_pos rfl]
              rfl
            rw [htarget]
            refine ⟨hentry, rfl, ?_⟩
            rw [locate, hrefusal]
            simp only [hslash, Bool.false_eq_true, if_false]
            rw [hnames]
            apply follow_append (hgrows.follow hfollow)
            rw [follow_cons_eq_ok, hadvance]
            exact ⟨hadmits, rfl⟩

theorem changes_of_write {dirs : Location → Prop} (h : t.write p content = .ok u) :
    Changes dirs (· = p.target t.current) t u := by
  obtain ⟨hentry, rfl, -⟩ := write_eq_ok h
  exact .set_file hentry content

theorem read_of_locate (hlocate : t.locate p = .ok l) (hentry : t.entry? l = some (.file content)) :
    t.isPresent p = true ∧ t.read p = .ok content := by
  constructor
  · rw [isPresent, hlocate]
    rfl
  · rw [read, hlocate]
    simp only [bind, Except.bind, hentry]

theorem read_eq_ok_iff : t.read p = .ok content ↔
    t.isPresent p = true ∧ t.entry? (p.target t.current) = some (.file content) := by
  rw [isPresent_iff]
  constructor
  · intro h
    rw [read] at h
    cases hlocate : t.locate p with
    | error e =>
      rw [hlocate] at h
      cases h
    | ok l =>
      obtain rfl := target_of_locate hlocate
      rw [hlocate] at h
      simp only [bind, Except.bind] at h
      split at h
      · next hentry =>
        obtain rfl := Except.ok.inj h
        exact ⟨rfl, hentry⟩
      · cases h
      · cases h
  · exact fun h => (read_of_locate h.1 h.2).2

def writeAll (t : FileTree) (files : List (Path × String)) : Except FileError FileTree :=
  files.foldlM (fun t f => t.write f.1 f.2) t

section WriteAll

variable {files : List (Path × String)}

theorem writeAll_cons_eq_ok {f : Path × String} :
    t.writeAll (f :: files) = .ok v ↔ ∃ u, t.write f.1 f.2 = .ok u ∧ u.writeAll files = .ok v := by
  rw [writeAll, List.foldlM_cons]
  cases t.write f.1 f.2 with
  | error e => simp [bind, Except.bind]
  | ok u => simp [bind, Except.bind, writeAll]

theorem changes_of_writeAll {dirs : Location → Prop} (h : t.writeAll files = .ok u) :
    Changes dirs (fun l => ∃ f ∈ files, f.1.target t.current = l) t u := by
  induction files generalizing t with
  | nil =>
    obtain rfl := Except.ok.inj h
    exact .refl t
  | cons f files ih =>
    obtain ⟨t', hwrite, hrest⟩ := writeAll_cons_eq_ok.mp h
    have hfirst : Changes dirs _ t t' := changes_of_write hwrite
    have hlater := ih hrest
    rw [hfirst.current_eq] at hlater
    refine (hfirst.mono (fun _ => id) ?_).trans (hlater.mono (fun _ => id) ?_)
    · rintro _ rfl
      exact ⟨f, List.mem_cons_self, rfl⟩
    · rintro _ ⟨g, hg, rfl⟩
      exact ⟨g, List.mem_cons_of_mem f hg, rfl⟩

theorem grows_of_writeAll (h : t.writeAll files = .ok u) : Grows t u := by
  have hchanges : Changes (fun _ => False) _ t u := changes_of_writeAll h
  exact hchanges.grows

theorem locate_of_writeAll (h : t.writeAll files = .ok u) {f : Path × String} (hf : f ∈ files) :
    u.locate f.1 = .ok (f.1.target t.current) := by
  induction files generalizing t with
  | nil => cases hf
  | cons g files ih =>
    obtain ⟨t', hwrite, hrest⟩ := writeAll_cons_eq_ok.mp h
    obtain ⟨-, rfl, hlocate⟩ := write_eq_ok hwrite
    rcases List.mem_cons.mp hf with rfl | hf
    · exact (grows_of_writeAll hrest).locate hlocate
    · have hlater := ih hrest hf
      exact hlater

/-- A place holds what one of the files put there, or what it held before if none of them belongs there. -/
theorem entry?_of_writeAll (h : t.writeAll files = .ok u) (l : Location) :
    (∃ f ∈ files, f.1.target t.current = l ∧ u.entry? l = some (.file f.2)) ∨
      (∀ f ∈ files, f.1.target t.current ≠ l) ∧ u.entry? l = t.entry? l := by
  induction files generalizing t with
  | nil =>
    obtain rfl := Except.ok.inj h
    exact .inr ⟨by simp, rfl⟩
  | cons f files ih =>
    obtain ⟨t', hwrite, hrest⟩ := writeAll_cons_eq_ok.mp h
    obtain ⟨hentry, rfl, -⟩ := write_eq_ok hwrite
    have hset := entry?_set (t := t) (e := .file f.2) (ne_nil_of_not_directory hentry) l
    rcases ih hrest with ⟨g, hg, htarget, hu⟩ | ⟨hnone, hu⟩
    · exact .inl ⟨g, List.mem_cons_of_mem f hg, htarget, hu⟩
    · by_cases hf : f.1.target t.current = l
      · rw [hset, if_pos hf.symm] at hu
        exact .inl ⟨f, List.mem_cons_self, hf, hu⟩
      · rw [hset, if_neg (Ne.symm hf)] at hu
        exact .inr ⟨List.forall_mem_cons.mpr ⟨hf, hnone⟩, hu⟩

end WriteAll

end FileTree

end PatternAutomata
