import Mathlib.Tactic.SplitIfs
import PatternAutomata.Text.CodePoint

namespace PatternAutomata.Text

theorem sequenceLength_eq (lead : UInt8) :
    sequenceLength lead =
      if lead.toNat < 128 then .ok 1
      else if lead.toNat / 32 = 6 then .ok 2
      else if lead.toNat / 16 = 14 then .ok 3
      else if lead.toNat / 8 = 30 then .ok 4
      else .error .malformedCodePoint := by
  have hone : lead >>> 7 = 0 ↔ lead.toNat < 128 := by
    rw [← UInt8.toNat_inj, UInt8.toNat_shiftRight]
    show lead.toNat >>> 7 = 0 ↔ _
    rw [Nat.shiftRight_eq_div_pow]
    omega
  have htwo : lead >>> 5 = 0b110 ↔ lead.toNat / 32 = 6 := by
    rw [← UInt8.toNat_inj, UInt8.toNat_shiftRight]
    show lead.toNat >>> 5 = 6 ↔ _
    rw [Nat.shiftRight_eq_div_pow]
  have hthree : lead >>> 4 = 0b1110 ↔ lead.toNat / 16 = 14 := by
    rw [← UInt8.toNat_inj, UInt8.toNat_shiftRight]
    show lead.toNat >>> 4 = 14 ↔ _
    rw [Nat.shiftRight_eq_div_pow]
  have hfour : lead >>> 3 = 0b11110 ↔ lead.toNat / 8 = 30 := by
    rw [← UInt8.toNat_inj, UInt8.toNat_shiftRight]
    show lead.toNat >>> 3 = 30 ↔ _
    rw [Nat.shiftRight_eq_div_pow]
  simp only [sequenceLength, beq_iff_eq, hone, htwo, hthree, hfour]

variable {bytes : Array UInt8} {position : Nat} {c : Char}

theorem byteAt_eq {b : UInt8} (h : bytes[position]? = some b) : byteAt bytes position = .ok b := by
  rw [byteAt, h]

theorem continuation_eq {n : Nat} (hn : n < 64) (h : bytes[position]? = some (UInt8.ofNat (n + 128))) :
    continuation bytes position = .ok n := by
  have hmod : (UInt8.ofNat (n + 128)).toNat % 64 = n := by
    rw [UInt8.toNat_ofNat']
    omega
  rw [continuation, byteAt_eq h, Except.map, hmod]

theorem toNat_ofNat_of_lt {n : Nat} (h : n < 256) : (UInt8.ofNat n).toNat = n := by
  rw [UInt8.toNat_ofNat']
  exact Nat.mod_eq_of_lt h

/-- The bytes of a character, six bits in each but the first. -/
theorem utf8EncodeChar_eq (c : Char) :
    String.utf8EncodeChar c =
      if c.toNat ≤ 0x7f then [UInt8.ofNat c.toNat]
      else if c.toNat ≤ 0x7ff then [UInt8.ofNat (c.toNat / 64 % 32 + 192), UInt8.ofNat (c.toNat % 64 + 128)]
      else if c.toNat ≤ 0xffff then
        [UInt8.ofNat (c.toNat / 4096 % 16 + 224), UInt8.ofNat (c.toNat / 64 % 64 + 128),
          UInt8.ofNat (c.toNat % 64 + 128)]
      else
        [UInt8.ofNat (c.toNat / 262144 % 8 + 240), UInt8.ofNat (c.toNat / 4096 % 64 + 128),
          UInt8.ofNat (c.toNat / 64 % 64 + 128), UInt8.ofNat (c.toNat % 64 + 128)] := rfl

/-- Where the bytes of a character stand, the character is read. -/
theorem decodeAt_eq (h : ∀ k < (String.utf8EncodeChar c).length, bytes[position + k]? = (String.utf8EncodeChar c)[k]?) :
    decodeAt bytes position = .ok (c.toNat, position + (String.utf8EncodeChar c).length) := by
  have hvalid : c.toNat.isValidChar := c.valid
  have hbound : c.toNat < 0x110000 := by
    unfold Nat.isValidChar at hvalid
    omega
  have hencode := utf8EncodeChar_eq c
  generalize c.toNat = v at hbound hencode ⊢
  -- One case for each number of bytes: the lead byte tells the number, and the bytes make up the value again.
  split_ifs at hencode with h₁ h₂ h₃
  · rw [hencode] at h ⊢
    have hlead : bytes[position]? = some (UInt8.ofNat v) := h 0 (by simp)
    have hnat := toNat_ofNat_of_lt (show v < 256 by omega)
    have hlength : sequenceLength (UInt8.ofNat v) = .ok 1 := by
      rw [sequenceLength_eq, hnat, if_pos (by omega)]
    simp only [decodeAt, byteAt_eq hlead, hlength, hnat, bind, Except.bind, pure, Except.pure]
    rfl
  · rw [hencode] at h ⊢
    have hlead : bytes[position]? = some (UInt8.ofNat (v / 64 % 32 + 192)) := h 0 (by simp)
    have hnat := toNat_ofNat_of_lt (show v / 64 % 32 + 192 < 256 by omega)
    have hlength : sequenceLength (UInt8.ofNat (v / 64 % 32 + 192)) = .ok 2 := by
      rw [sequenceLength_eq, hnat, if_neg (by omega), if_pos (by omega)]
    have hfirst := continuation_eq (show v % 64 < 64 by omega) (h 1 (by simp))
    have hvalue : (v / 64 % 32 + 192) % 32 * 64 + v % 64 = v := by omega
    simp only [decodeAt, byteAt_eq hlead, hlength, hfirst, hnat, hvalue, bind, Except.bind, pure, Except.pure]
    rfl
  · rw [hencode] at h ⊢
    have hlead : bytes[position]? = some (UInt8.ofNat (v / 4096 % 16 + 224)) := h 0 (by simp)
    have hnat := toNat_ofNat_of_lt (show v / 4096 % 16 + 224 < 256 by omega)
    have hlength : sequenceLength (UInt8.ofNat (v / 4096 % 16 + 224)) = .ok 3 := by
      rw [sequenceLength_eq, hnat, if_neg (by omega), if_neg (by omega), if_pos (by omega)]
    have hfirst := continuation_eq (show v / 64 % 64 < 64 by omega) (h 1 (by simp))
    have hsecond := continuation_eq (show v % 64 < 64 by omega) (h 2 (by simp))
    have hvalue : ((v / 4096 % 16 + 224) % 16 * 64 + v / 64 % 64) * 64 + v % 64 = v := by omega
    simp only [decodeAt, byteAt_eq hlead, hlength, hfirst, hsecond, hnat, hvalue, bind, Except.bind, pure, Except.pure]
    rfl
  · rw [hencode] at h ⊢
    have hlead : bytes[position]? = some (UInt8.ofNat (v / 262144 % 8 + 240)) := h 0 (by simp)
    have hnat := toNat_ofNat_of_lt (show v / 262144 % 8 + 240 < 256 by omega)
    have hlength : sequenceLength (UInt8.ofNat (v / 262144 % 8 + 240)) = .ok 4 := by
      rw [sequenceLength_eq, hnat, if_neg (by omega), if_neg (by omega), if_neg (by omega), if_pos (by omega)]
    have hfirst := continuation_eq (show v / 4096 % 64 < 64 by omega) (h 1 (by simp))
    have hsecond := continuation_eq (show v / 64 % 64 < 64 by omega) (h 2 (by simp))
    have hthird := continuation_eq (show v % 64 < 64 by omega) (h 3 (by simp))
    have hvalue : (((v / 262144 % 8 + 240) % 8 * 64 + v / 4096 % 64) * 64 + v / 64 % 64) * 64 + v % 64 = v := by omega
    simp only [decodeAt, byteAt_eq hlead, hlength, hfirst, hsecond, hthird, hnat, hvalue, bind, Except.bind, pure,
      Except.pure]
    rfl

variable {s : String}

/-- The bytes of a string are those of its characters. -/
theorem toList_toUTF8 (s : String) : s.toUTF8.data.toList = s.toList.flatMap String.utf8EncodeChar := by
  calc
    s.toUTF8.data.toList = (String.ofList s.toList).toByteArray.data.toList := by
      rw [String.ofList_toList, String.toUTF8_eq_toByteArray]
    _ = s.toList.flatMap String.utf8EncodeChar := by
      rw [String.toByteArray_ofList, List.utf8Encode, List.toList_data_toByteArray]

/-- At a boundary between characters the next character is read, up to the boundary after it. -/
theorem decodeAt_boundary (p : s.Pos) (h : p ≠ s.endPos) :
    decodeAt s.toUTF8.data p.offset.byteIdx = .ok ((p.get h).toNat, (p.next h).offset.byteIdx) := by
  have hsplits := p.splits_next_right h
  have hbefore : ((s.sliceTo p).copy.toList.flatMap String.utf8EncodeChar).length = p.offset.byteIdx := by
    rw [← toList_toUTF8, Array.length_toList, hsplits.offset_eq_rawEndPos]
    rfl
  have hlist : s.toList = (s.sliceTo p).copy.toList ++ p.get h :: (s.sliceFrom (p.next h)).copy.toList := by
    have happend := congrArg String.toList hsplits.eq_append
    rwa [String.toList_append, String.toList_append, String.toList_singleton] at happend
  rw [String.Pos.byteIdx_offset_next, ← String.length_utf8EncodeChar]
  apply decodeAt_eq
  intro k hk
  rw [← Array.getElem?_toList, toList_toUTF8, hlist, List.flatMap_append, List.flatMap_cons,
    List.getElem?_append_right (by omega), hbefore, Nat.add_sub_cancel_left, List.getElem?_append_left hk]

namespace Cursor

def atBoundary (p : s.Pos) : Cursor := ⟨s.toUTF8.data, p.offset.byteIdx⟩

theorem atEnd_atBoundary_iff (p : s.Pos) : (atBoundary p).atEnd = true ↔ p = s.endPos := by
  show (p.offset.byteIdx == s.utf8ByteSize) = true ↔ p = s.endPos
  rw [beq_iff_eq, String.Pos.ext_iff, String.Pos.Raw.ext_iff, String.offset_endPos, String.byteIdx_rawEndPos]

theorem atEnd_atBoundary_eq_false_iff (p : s.Pos) : (atBoundary p).atEnd = false ↔ p ≠ s.endPos := by
  rw [← Bool.not_eq_true, atEnd_atBoundary_iff]

theorem advance_atBoundary (p : s.Pos) (h : p ≠ s.endPos) :
    (atBoundary p).advance = .ok ((p.get h).toNat, atBoundary (p.next h)) := by
  rw [advance, atBoundary, decodeAt_boundary p h]
  rfl

/-- What is read on the way from one cursor to another by advancing while the end is not reached. -/
inductive Reads : Cursor → List Nat → Cursor → Prop
  | done (c : Cursor) : Reads c [] c
  | step {c next last : Cursor} {value : Nat} {values : List Nat} (hleft : c.atEnd = false)
      (hadvance : c.advance = .ok (value, next)) (hrest : Reads next values last) : Reads c (value :: values) last

variable {c last : Cursor} {values : List Nat}

/-- From a boundary the cursor comes to boundaries only, over the characters that it reads. -/
theorem Reads.exists_boundary {p : s.Pos} {before after : String} (h : (atBoundary p).Reads values last)
    (hp : p.Splits before after) :
    ∃ (q : s.Pos) (read rest : String), q.Splits (before ++ read) rest ∧ values = read.toList.map Char.toNat ∧
      last = atBoundary q := by
  generalize hc : atBoundary p = c at h
  induction h generalizing p before after with
  | done c => exact ⟨p, "", after, by rwa [String.append_empty], rfl, hc.symm⟩
  | @step c next last value values hleft hadvance _ ih =>
    subst hc
    have hend := (atEnd_atBoundary_eq_false_iff p).mp hleft
    rw [advance_atBoundary p hend] at hadvance
    cases hadvance
    obtain ⟨after, rfl⟩ := hp.exists_eq_singleton_append hend
    obtain ⟨q, read, rest, hq, rfl, rfl⟩ := ih hp.next rfl
    refine ⟨q, String.singleton (p.get hend) ++ read, rest, ?_, ?_, rfl⟩
    · rwa [← String.append_assoc]
    · simp

/-- From every boundary the rest of the string is read. -/
theorem reads_rest {p : s.Pos} {before after : String} (hp : p.Splits before after) :
    (atBoundary p).Reads (after.toList.map Char.toNat) (atBoundary s.endPos) := by
  induction p using String.Pos.next_induction generalizing before after with
  | next p h ih =>
    have hleft := (atEnd_atBoundary_eq_false_iff p).mpr h
    obtain ⟨after, rfl⟩ := hp.exists_eq_singleton_append h
    rw [String.toList_append, String.toList_singleton, List.singleton_append, List.map_cons]
    exact .step hleft (advance_atBoundary p h) (ih hp.next)
  | endPos =>
    obtain ⟨-, rfl⟩ := String.splits_endPos_iff.mp hp
    exact .done _

/-- What is read on the way to the end is what there is to read, as far as the bound allows. -/
theorem Reads.codePoints_eq (h : c.Reads values last) (hend : last.atEnd = true) {bound : Nat}
    (hbound : values.length ≤ bound) : codePoints bound c = .ok values := by
  induction h generalizing bound with
  | done c =>
    cases bound with
    | zero => rfl
    | succ bound => exact if_pos hend
  | @step c next last value values hleft hadvance _ ih =>
    obtain ⟨bound, rfl⟩ := Nat.exists_eq_add_one_of_ne_zero (Nat.ne_zero_of_lt hbound)
    rw [codePoints, if_neg (Bool.eq_false_iff.mp hleft), hadvance]
    show (codePoints bound next >>= fun rest => pure (value :: rest)) = _
    rw [ih hend (Nat.le_of_succ_le_succ hbound)]
    rfl

/-- Advancing from the beginning of a string until its end is reached never fails and never leaves the bytes. It ends
after one step for each character, right behind the last byte, with the characters read in order; for whatever begins
at a boundary between characters is decoded as the character that is encoded there. -/
theorem reads_string (s : String) :
    (∀ values c, (ofString s).Reads values c → c.atEnd = false →
      ∃ value next, c.advance = .ok (value, next) ∧ next.position ≤ s.utf8ByteSize) ∧
    (∀ values c, (ofString s).Reads values c → c.atEnd = true →
      values = s.toList.map Char.toNat ∧ values.length = s.length ∧ c.position = s.utf8ByteSize) ∧
    (∃ last, (ofString s).Reads (s.toList.map Char.toNat) last ∧ last.atEnd = true) ∧
    ∀ (p : s.Pos) (h : p ≠ s.endPos),
      decodeAt s.toUTF8.data p.offset.byteIdx = .ok ((p.get h).toNat, (p.next h).offset.byteIdx) := by
  -- Whatever was read, the cursor is at a boundary, and the characters before that are those read.
  have hboundary : ∀ values c, (ofString s).Reads values c → ∃ (q : s.Pos) (read rest : String),
      q.Splits read rest ∧ values = read.toList.map Char.toNat ∧ c = atBoundary q := by
    intro values c (h : (atBoundary s.startPos).Reads values c)
    obtain ⟨q, read, rest, hq, hread⟩ := Reads.exists_boundary h s.splits_startPos
    exact ⟨q, read, rest, by rwa [String.empty_append] at hq, hread⟩
  refine ⟨?_, ?_, ⟨atBoundary s.endPos, reads_rest s.splits_startPos, ?_⟩, decodeAt_boundary⟩
  · intro values c h hleft
    obtain ⟨q, -, -, -, -, rfl⟩ := hboundary values c h
    have hq := (atEnd_atBoundary_eq_false_iff q).mp hleft
    exact ⟨_, _, advance_atBoundary q hq, (q.next hq).isValid.le_rawEndPos⟩
  · intro values c h hend
    obtain ⟨q, read, rest, hq, rfl, rfl⟩ := hboundary values c h
    obtain rfl := (atEnd_atBoundary_iff q).mp hend
    obtain ⟨rfl, -⟩ := String.splits_endPos_iff.mp hq
    exact ⟨rfl, by rw [List.length_map, String.length_toList], rfl⟩
  · exact (atEnd_atBoundary_iff s.endPos).mpr rfl

/-- One character of each length. -/
theorem reads_string_of_mixed_lengths :
    ∃ last, (ofString "aé€𝄞").Reads [0x61, 0xe9, 0x20ac, 0x1d11e] last ∧ last.atEnd = true ∧ last.position = 10 := by
  obtain ⟨-, hstop, ⟨last, hreads, hend⟩, -⟩ := reads_string "aé€𝄞"
  obtain ⟨-, -, hposition⟩ := hstop _ last hreads hend
  exact ⟨last, hreads, hend, hposition⟩

end Cursor

/-- Every character takes a byte at least. -/
theorem length_le_size_toUTF8 (s : String) : s.toList.length ≤ s.toUTF8.data.size := by
  rw [← Array.length_toList, toList_toUTF8]
  induction s.toList with
  | nil => exact Nat.le_refl 0
  | cons c cs ih =>
    have hpos : 0 < (String.utf8EncodeChar c).length := List.length_pos_iff.mpr String.utf8EncodeChar_ne_nil
    rw [List.flatMap_cons, List.length_cons, List.length_append]
    omega

/-- A string is read as its characters. -/
theorem codePoints_eq (s : String) : codePoints s = .ok (s.toList.map Char.toNat) := by
  have hend := (Cursor.atEnd_atBoundary_iff s.endPos).mpr rfl
  apply (Cursor.reads_rest s.splits_startPos).codePoints_eq hend
  rw [List.length_map]
  exact length_le_size_toUTF8 s

end PatternAutomata.Text
