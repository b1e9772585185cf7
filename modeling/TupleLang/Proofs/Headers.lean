import TupleLang.Proofs.Addresses

/-!
# Reading headers

The header of a tuple is one word, and everything that the collector knows about the tuple comes
from it.  The number of fields stands in six bits (`Header.length_tag`), so it can be read back if
there are fewer than 64 of them.  The mask stands above them, at bit 7, and the highest bit of the
word is the sign: with at most 56 fields the sign is not reached, and a shift to the right, which
repeats the sign, brings back the mask and nothing else (`Header.getLsbD_pointerMask_tag`).

Types with more than `Ty.maxFields` fields are refused by the checker, so all headers in use have
room; `Header.tag_reads_back` puts together what the collector relies on.
-/

namespace TupleLang.Header

/-- The parts of a header. -/
theorem toBitVec_tag (fields : List Ty) : (tag fields).toBitVec =
    (maskFrom 0 fields).toBitVec <<< 7 ||| (Word.ofCount fields.length).toBitVec <<< 1 |||
      1#64 := by
  rw [tag, Int64.toBitVec_or, Int64.toBitVec_or, Int64.toBitVec_shiftLeft,
    Int64.toBitVec_shiftLeft]
  rfl

/-! ## The number of fields -/

variable {fields : List Ty} {i : Nat}

/-- The length of a tuple can be read back from its header, which has six bits for it. -/
theorem length_tag (h : fields.length < 64) : length (tag fields) = Word.ofCount fields.length := by
  have hlength : (length (tag fields)).toBitVec =
      (tag fields).toBitVec.sshiftRight 1 &&& 63#64 := by
    rw [length, Int64.toBitVec_and, Int64.toBitVec_shiftRight]
    rfl
  have hcount : (Word.ofCount fields.length).toBitVec = BitVec.ofNat 64 fields.length := rfl
  rw [← Int64.toBitVec_inj, hlength, toBitVec_tag, hcount]
  apply BitVec.eq_of_getLsbD_eq
  intro i hi
  have hsix : Nat.testBit 63 i = decide (i < 6) := Nat.testBit_two_pow_sub_one 6 i
  simp only [BitVec.getLsbD_and, BitVec.getLsbD_sshiftRight, BitVec.getLsbD_or,
    BitVec.getLsbD_shiftLeft, BitVec.getLsbD_ofNat, hsix]
  by_cases hlow : i < 6
  · have hone : Nat.testBit 1 (1 + i) = false := by
      rw [Nat.add_comm, Nat.testBit_succ]
      exact Nat.zero_testBit i
    have hmask : 1 + i < 7 := by omega
    have hbits : 1 + i < 64 := by omega
    have hword : ¬ 64 ≤ i := by omega
    simp [hlow, hone, hmask, hbits, hword, hi]
  · have hzero : fields.length.testBit i = false :=
      Nat.testBit_lt_two_pow
        (Nat.lt_of_lt_of_le h (Nat.pow_le_pow_right Nat.two_pos (Nat.le_of_not_lt hlow)))
    simp [hlow, hzero]

/-- A header has the number of fields. -/
theorem fieldCount_tag (h : fields.length < 64) : fieldCount (tag fields) = fields.length := by
  have hcount : (Word.ofCount fields.length).toInt = fields.length :=
    Int64.toInt_ofNat_of_lt (Nat.lt_trans h (by decide))
  rw [fieldCount, length_tag h, hcount, Int.toNat_natCast]

/-- Headers are marked. -/
theorem isTag_tag (fields : List Ty) : isTag (tag fields) = true := by
  have hand : tag fields &&& 1 = 1 := by
    have hone : Int64.toBitVec 1 = 1#64 := rfl
    rw [← Int64.toBitVec_inj, Int64.toBitVec_and, toBitVec_tag, hone]
    apply BitVec.eq_of_getLsbD_eq
    intro i _
    rw [BitVec.getLsbD_and, BitVec.getLsbD_or]
    cases (1#64).getLsbD i with
    | false => exact Bool.and_false _
    | true => rw [Bool.or_true, Bool.and_true]
  rw [isTag, hand]
  rfl

/-! ## The mask -/

/-- A one that is moved to the place of a bit. -/
theorem toBitVec_one_shiftLeft (h : i < 64) :
    Int64.toBitVec (1 <<< Word.ofCount i) = BitVec.twoPow 64 i := by
  have hcount : (Word.ofCount i).toInt = i := Int64.toInt_ofNat_of_lt (by omega)
  -- shifts take the amount modulo the width, with the sign of the width
  have hamount : (Word.ofCount i).toBitVec.smod 64 = BitVec.ofNat 64 i := by
    apply BitVec.eq_of_toInt_eq
    rw [BitVec.toInt_smod, Int64.toInt_toBitVec, hcount]
    change (i : Int).fmod 64 = (Word.ofCount i).toInt
    rw [hcount, Int.fmod_eq_emod_of_nonneg _ (by decide)]
    omega
  have htoNat : (BitVec.ofNat 64 i).toNat = i := by
    rw [BitVec.toNat_ofNat]
    omega
  rw [Int64.toBitVec_shiftLeft, hamount, BitVec.twoPow_eq, BitVec.shiftLeft_eq', htoNat]
  rfl

/-- The test for a bit of a mask. -/
theorem marks_eq_getLsbD (mask : Word) (h : i < 64) : marks mask i = mask.toBitVec.getLsbD i := by
  have hne : BitVec.twoPow 64 i ≠ 0#64 := by
    intro hzero
    have hbit := congrArg (BitVec.getLsbD · i) hzero
    simp [h] at hbit
  have hand : (mask &&& 1 <<< Word.ofCount i).toBitVec =
      if mask.toBitVec.getLsbD i = true then BitVec.twoPow 64 i else 0#64 := by
    rw [Int64.toBitVec_and, toBitVec_one_shiftLeft h, BitVec.and_twoPow]
  rw [marks, Bool.eq_iff_iff, bne_iff_ne, ne_eq, ← Int64.toBitVec_inj, hand]
  split
  · next hbit => exact iff_of_true hne hbit
  · next hbit => exact iff_of_false (fun hzero => hzero rfl) hbit

/-- Bit `start + i` of a mask is set exactly if field `i` points to a tuple. -/
theorem getLsbD_maskFrom {start : Nat} (h : start + fields.length ≤ 64) (i : Nat) :
    (maskFrom start fields).toBitVec.getLsbD i =
      (decide (start ≤ i) && (fields[i - start]?).any Ty.isTuple) := by
  induction fields generalizing start with
  | nil => simp [maskFrom]
  | cons field fields ih =>
    have hlength : start + fields.length + 1 ≤ 64 := h
    have hfirst :
        (if field.isTuple then 1 <<< Word.ofCount start else 0 : Word).toBitVec.getLsbD i =
          (field.isTuple && decide (start = i)) := by
      cases field.isTuple with
      | false => exact BitVec.getLsbD_zero
      | true =>
        have hstart : start < 64 := by omega
        rw [if_pos rfl, toBitVec_one_shiftLeft hstart, BitVec.getLsbD_twoPow]
        simp [hstart]
    rw [maskFrom, Int64.toBitVec_or, BitVec.getLsbD_or, hfirst, ih (by omega)]
    -- either the bit belongs to the first field, or both sides look at the other fields
    rcases Nat.lt_trichotomy i start with hlt | rfl | hgt
    · have hne : start ≠ i := by omega
      have hnext : ¬ start + 1 ≤ i := by omega
      simp [hne, hnext, Nat.not_le.mpr hlt]
    · have hnext : ¬ i + 1 ≤ i := by omega
      simp [hnext]
    · obtain ⟨rest, rfl⟩ : ∃ rest, i = start + 1 + rest := ⟨i - (start + 1), by omega⟩
      have hne : start ≠ start + 1 + rest := by omega
      have hle : start ≤ start + 1 + rest := by omega
      have hfield : start + 1 + rest - start = rest + 1 := by omega
      simp [hne, hle, hfield]

/-- Above the number of fields, the bits of a header are those of the mask. -/
theorem getLsbD_tag (h : fields.length < 64) (hi : i + 7 < 64) :
    (tag fields).toBitVec.getLsbD (i + 7) = (fields[i]?).any Ty.isTuple := by
  have hcount : (Word.ofCount fields.length).toBitVec.getLsbD (i + 6) = false := by
    have hsix : fields.length.testBit (i + 6) = false :=
      Nat.testBit_lt_two_pow
        (Nat.lt_of_lt_of_le h (Nat.pow_le_pow_right Nat.two_pos (Nat.le_add_left 6 i)))
    change (BitVec.ofNat 64 fields.length).getLsbD (i + 6) = false
    rw [BitVec.getLsbD_ofNat, hsix, Bool.and_false]
  have hlow : ¬ i + 7 < 7 := by omega
  rw [toBitVec_tag, BitVec.getLsbD_or, BitVec.getLsbD_or, BitVec.getLsbD_shiftLeft,
    BitVec.getLsbD_shiftLeft, Nat.add_sub_cancel, getLsbD_maskFrom (by omega)]
  simp [hi, hlow, hcount]

/-- The sign of a header is positive as long as the mask has at most 56 bits. -/
theorem msb_tag (h : fields.length ≤ 56) : (tag fields).toBitVec.msb = false := by
  rw [BitVec.msb_eq_getLsbD_last]
  have hbit := getLsbD_tag (by omega : fields.length < 64) (by omega : 56 + 7 < 64)
  rw [List.getElem?_eq_none h] at hbit
  exact hbit

/-- The mask can be read back from a header: its bits say which fields point to tuples, and no
other bit is set. -/
theorem getLsbD_pointerMask_tag (h : fields.length ≤ 56) (i : Nat) :
    (pointerMask (tag fields)).toBitVec.getLsbD i = (fields[i]?).any Ty.isTuple := by
  have hmask : (pointerMask (tag fields)).toBitVec = (tag fields).toBitVec.sshiftRight 7 := by
    rw [pointerMask, Int64.toBitVec_shiftRight]
    rfl
  rw [hmask, BitVec.getLsbD_sshiftRight, msb_tag h]
  by_cases hi : i + 7 < 64
  · have hword : ¬ 64 ≤ i := by omega
    rw [Nat.add_comm 7 i, if_pos hi, getLsbD_tag (by omega) hi]
    simp [hword]
  · have hnone : fields[i]? = none := List.getElem?_eq_none (by omega)
    rw [Nat.add_comm 7 i, if_neg hi, hnone, Bool.and_false]
    rfl

/-- The header of a tuple reads back as what it was made from: it is odd and positive, the length
in it is the number of fields, and a bit of its mask is set exactly if it belongs to a field that
points to a tuple, which is also what the test for that field finds. -/
theorem tag_reads_back {fields : List Ty} (h : fields.length ≤ Ty.maxFields) :
    (tag fields).toInt % 2 = 1 ∧ 0 < (tag fields).toInt ∧
    (length (tag fields)).toInt = fields.length ∧
    (∀ i, (pointerMask (tag fields)).toBitVec.getLsbD i = true ↔
      ∃ field, fields[i]? = some field ∧ field.isTuple = true) ∧
    ∀ i field, fields[i]? = some field →
      marks (pointerMask (tag fields)) i = field.isTuple := by
  have hmax : fields.length ≤ 50 := h
  have hlength : (length (tag fields)).toInt = fields.length := by
    rw [length_tag (by omega)]
    exact Int64.toInt_ofNat_of_lt (by omega)
  have htoInt : (tag fields).toInt = (tag fields).toBitVec.toNat := by
    rw [← Int64.toInt_toBitVec]
    exact BitVec.toInt_eq_toNat_of_msb (msb_tag (by omega))
  have hodd : (tag fields).toBitVec.toNat % 2 = 1 := by
    have hbit : (tag fields).toBitVec.getLsbD 0 = true := by
      simp [toBitVec_tag]
    rw [← BitVec.testBit_toNat, Nat.testBit_zero] at hbit
    exact of_decide_eq_true hbit
  refine ⟨by omega, by omega, hlength, fun i => ?_, fun i field hfield => ?_⟩
  · rw [getLsbD_pointerMask_tag (by omega), Option.any_eq_true]
  · have hi : i < fields.length := (List.getElem?_eq_some_iff.mp hfield).1
    rw [marks_eq_getLsbD _ (by omega), getLsbD_pointerMask_tag (by omega), hfield]
    rfl

/-- The header of a tuple that is as large as tuples can be, and in which only the last field points
to a tuple. -/
theorem tag_reads_back_last :
    let fields := List.replicate 49 Ty.int ++ [.tuple [.bool]]
    fields.length ≤ Ty.maxFields ∧
    (tag fields).toInt % 2 = 1 ∧ 0 < (tag fields).toInt ∧ (length (tag fields)).toInt = 50 ∧
    (∀ i, (pointerMask (tag fields)).toBitVec.getLsbD i = true ↔ i = 49) ∧
    marks (pointerMask (tag fields)) 49 = true := by
  intro fields
  have hle : fields.length ≤ Ty.maxFields := by decide
  obtain ⟨hodd, hpositive, hlength, hmask, hmarks⟩ := tag_reads_back hle
  have hlast : fields[49]? = some (.tuple [.bool]) := rfl
  refine ⟨hle, hodd, hpositive, hlength, fun i => ?_, hmarks 49 _ hlast⟩
  rw [hmask]
  constructor
  · rintro ⟨field, hfield, htuple⟩
    by_cases hi : i < 49
    · rw [List.getElem?_append_left (by simpa using hi), List.getElem?_replicate_of_lt hi] at hfield
      cases hfield
      cases htuple
    · have hlt : i < 50 := (List.getElem?_eq_some_iff.mp hfield).1
      omega
  · rintro rfl
    exact ⟨_, hlast, rfl⟩

end TupleLang.Header
