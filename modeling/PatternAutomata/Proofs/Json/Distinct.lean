import PatternAutomata.Json.Reader

namespace PatternAutomata.Json

/-- Values in which the keys of every object are distinct. -/
inductive Distinct : Json → Prop
  | null : Distinct .null
  | bool (b : Bool) : Distinct (.bool b)
  | number (digits : List Char) : Distinct (.number digits)
  | string (s : String) : Distinct (.string s)
  | array {items : List Json} (h : ∀ v ∈ items, Distinct v) : Distinct (.array items)
  | object {fields : List (String × Json)} (hkeys : (fields.map Prod.fst).Nodup) (h : ∀ f ∈ fields, Distinct f.2) :
    Distinct (.object fields)

theorem Distinct.nodup_keys {fields : List (String × Json)} (h : (Json.object fields).Distinct) :
    (fields.map Prod.fst).Nodup := by
  cases h with
  | object hkeys _ => exact hkeys

theorem Distinct.of_mem {fields : List (String × Json)} (h : (Json.object fields).Distinct) {f : String × Json}
    (hf : f ∈ fields) : f.2.Distinct := by
  cases h with
  | object _ hfields => exact hfields f hf

namespace Reading

variable {v : Json} {l : Lexeme} {stack : List Frame} {r r' : Reading}

def FrameDistinct : Frame → Prop
  | .array items => ∀ v ∈ items, v.Distinct
  | .object fields => ∀ f ∈ fields.entries, f.2.Distinct
  | .field fields _ => ∀ f ∈ fields.entries, f.2.Distinct

structure Sound (r : Reading) : Prop where
  frames : ∀ f ∈ r.stack, FrameDistinct f
  result : ∀ v, r.expected = .nothing v → v.Distinct

theorem distinct_of_mem_insert {fields : Listing String Json} (h : ∀ f ∈ fields.entries, f.2.Distinct) {key : String}
    (hv : v.Distinct) : ∀ f ∈ (fields.insert key v).entries, f.2.Distinct := by
  rintro ⟨k, w⟩ hf
  rw [← Listing.get?_eq_some_iff, Listing.get?_insert] at hf
  split at hf
  · cases hf
    exact hv
  · exact h _ (Listing.get?_eq_some_iff.mp hf)

/-- A reading that waits for more has no result yet. -/
theorem sound_of_waiting {expected : Expected} (hstack : ∀ f ∈ stack, FrameDistinct f)
    (hexpected : ∀ v, expected ≠ .nothing v) : Sound ⟨stack, expected⟩ :=
  ⟨hstack, fun v hv => absurd hv (hexpected v)⟩

theorem sound_of_put (hv : v.Distinct) (hstack : ∀ f ∈ stack, FrameDistinct f) (h : put v stack = some r) :
    r.Sound := by
  unfold put at h
  split at h
  · cases h
    refine ⟨hstack, fun w hw => ?_⟩
    cases hw
    exact hv
  · cases h
    obtain ⟨hitems, hrest⟩ := List.forall_mem_cons.mp hstack
    refine sound_of_waiting (List.forall_mem_cons.mpr ⟨?_, hrest⟩) nofun
    exact List.forall_mem_cons.mpr ⟨hv, hitems⟩
  · cases h
    obtain ⟨hfields, hrest⟩ := List.forall_mem_cons.mp hstack
    exact sound_of_waiting (List.forall_mem_cons.mpr ⟨distinct_of_mem_insert hfields hv, hrest⟩) nofun
  · cases h

theorem sound_of_enter {f : Frame} {expected : Expected} (hf : FrameDistinct f) (hstack : ∀ f ∈ stack, FrameDistinct f)
    (h : enter f expected stack = some r) (hexpected : ∀ v, expected ≠ .nothing v) : r.Sound := by
  unfold enter at h
  split at h
  · cases h
    exact sound_of_waiting (List.forall_mem_cons.mpr ⟨hf, hstack⟩) hexpected
  · cases h

theorem sound_of_begin (hstack : ∀ f ∈ stack, FrameDistinct f) (h : begin l stack = some r) : r.Sound := by
  have harray : FrameDistinct (.array []) := fun _ hv => absurd hv List.not_mem_nil
  have hobject : FrameDistinct (.object .empty) := fun _ hf => absurd hf List.not_mem_nil
  unfold begin at h
  split at h
  · exact sound_of_enter harray hstack h nofun
  · exact sound_of_enter hobject hstack h nofun
  · exact sound_of_put .null hstack h
  · exact sound_of_put (.bool true) hstack h
  · exact sound_of_put (.bool false) hstack h
  · exact sound_of_put (.number _) hstack h
  · exact sound_of_put (.string _) hstack h
  · cases h
  · cases h
  · cases h
  · cases h

theorem sound_of_close (hstack : ∀ f ∈ stack, FrameDistinct f) (h : close l stack = some r) : r.Sound := by
  unfold close at h
  split at h
  · split at h
    · obtain ⟨hitems, hrest⟩ := List.forall_mem_cons.mp hstack
      exact sound_of_put (.array fun v hv => hitems v (List.mem_reverse.mp hv)) hrest h
    · cases h
  · next fields stack =>
    split at h
    · obtain ⟨hfields, hrest⟩ := List.forall_mem_cons.mp hstack
      exact sound_of_put (.object fields.nodup_keys hfields) hrest h
    · cases h
  · cases h

/-- The key of a field is taken in without a value. -/
theorem sound_of_key {fields : Listing String Json} (hstack : ∀ f ∈ .object fields :: stack, FrameDistinct f)
    (key : String) : Sound ⟨.field fields key :: stack, .colon⟩ := by
  obtain ⟨hfields, hrest⟩ := List.forall_mem_cons.mp hstack
  exact sound_of_waiting (List.forall_mem_cons.mpr ⟨hfields, hrest⟩) nofun

/-- One more lexeme leaves the keys distinct. -/
theorem Sound.step (hr : r.Sound) (h : step r l = some r') : r'.Sound := by
  obtain ⟨stack, expected⟩ := r
  have hstack := hr.frames
  unfold Reading.step at h
  -- What may come next decides which lexemes are taken at all.
  cases expected with
  | value => exact sound_of_begin hstack h
  | valueOrClose =>
    dsimp only at h
    split at h
    · exact sound_of_close hstack h
    · exact sound_of_begin hstack h
  | keyOrClose =>
    dsimp only at h
    split at h
    · cases h
      exact sound_of_key hstack _
    · exact sound_of_close hstack h
  | key =>
    dsimp only at h
    split at h
    · cases h
      exact sound_of_key hstack _
    · cases h
  | colon =>
    dsimp only at h
    split at h
    · cases h
      exact sound_of_waiting hstack nofun
    · cases h
  | separator =>
    dsimp only at h
    split at h
    · cases h
      exact sound_of_waiting hstack nofun
    · cases h
      exact sound_of_waiting hstack nofun
    · exact sound_of_close hstack h
  | nothing v => cases h

theorem Sound.run {lexemes : List Lexeme} (hr : r.Sound) (h : lexemes.foldlM Reading.step r = some r') : r'.Sound := by
  induction lexemes generalizing r with
  | nil =>
    cases h
    exact hr
  | cons l lexemes ih =>
    rw [List.foldlM_cons] at h
    obtain ⟨next, hnext, hrest⟩ := Option.bind_eq_some_iff.mp h
    exact ih (hr.step hnext) hrest

end Reading

/-- What a text is read as has distinct keys. -/
theorem distinct_of_ofText? {text : String} {v : Json} (h : ofText? text = some v) : v.Distinct := by
  obtain ⟨lexemes, -, h⟩ := Option.bind_eq_some_iff.mp h
  obtain ⟨last, hlast, h⟩ := Option.bind_eq_some_iff.mp h
  have hstart : (Reading.mk [] .value).Sound := Reading.sound_of_waiting (fun _ hf => absurd hf List.not_mem_nil) nofun
  have hsound := hstart.run hlast
  split at h
  · cases h
    exact hsound.result _ rfl
  · cases h

end PatternAutomata.Json
