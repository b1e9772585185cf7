import Mathlib.Algebra.Group.Int.Defs
import Mathlib.Algebra.Group.Nat.Defs
import Mathlib.Data.List.Pairwise
import TupleLang.Machine.Service
import TupleLang.Proofs.Stateful

/-!
# Addresses and mapped memory

`Word.nth base k` is the address of the `k`-th word from `base` on.  Arithmetic on words wraps, so
equations between such addresses hold without conditions (`Word.nth_add`), while their order is that
of the integers only as long as nothing wraps (`Word.toInt_nth`).

If regions are apart from each other (`AddressRange.Apart`), the region of an address is the only
one that has it (`Memory.region_eq_ok`).  So a word can be loaded and stored wherever something is
mapped (`Memory.load_eq_ok`, `Memory.store_eq_ok`), and mapping or unmapping other regions does not
change what is found there (`Memory.load_map`, `Memory.load_unmap`).
-/

namespace TupleLang

/-! ## Words -/

namespace Word

/-- The address of a word: so many words after `base`. -/
def nth (base : Word) (k : Nat) : Word :=
  base + 8 * ofCount k

/-- Counts add up. -/
theorem ofCount_add (i j : Nat) : ofCount (i + j) = ofCount i + ofCount j :=
  Int64.ofNat_add ..

/-- The first word. -/
theorem nth_zero (base : Word) : base.nth 0 = base := by
  simp [nth, ofCount]

/-- Words after words. -/
theorem nth_add (base : Word) (i j : Nat) : base.nth (i + j) = (base.nth i).nth j := by
  rw [nth, nth, nth, ofCount_add]
  grind

/-- Words lie eight bytes apart. -/
theorem nth_succ (base : Word) (i : Nat) : base.nth (i + 1) = base.nth i + 8 :=
  nth_add base i 1

/-- The address of a field. -/
theorem add_eight_mul (base : Word) (i : Nat) : base + 8 * (ofCount i + 1) = base.nth (i + 1) := by
  rw [nth, ofCount_add]
  rfl

/-- Addresses that do not wrap around are sums. -/
theorem toInt_nth {base : Word} {k : Nat} (h : base.toInt + 8 * k < 2 ^ 63) :
    (base.nth k).toInt = base.toInt + 8 * k := by
  have hlow := base.le_toInt
  have hk : k < 2 ^ 63 := by omega
  have height : Int64.toInt 8 = 8 := rfl
  have hcount : (ofCount k).toInt = k := Int64.toInt_ofNat_of_lt hk
  rw [nth, Int64.toInt_add, Int64.toInt_mul, hcount, height]
  simp only [Int.bmod]
  omega

/-- Numbers of bytes that do not wrap around. -/
theorem toInt_eight_mul {n : Nat} (h : n < 2 ^ 60) : (8 * ofCount n).toInt = 8 * n := by
  have hnth : (Word.nth 0 n).toInt = (0 : Word).toInt + 8 * n :=
    toInt_nth (by change (0 : Int) + 8 * n < 2 ^ 63; omega)
  have hzero : Word.nth 0 n = 8 * ofCount n := by
    rw [nth]
    grind
  rw [← hzero, hnth]
  exact Int.zero_add _

/-- Different words have different addresses. -/
theorem nth_inj {base : Word} {i j : Nat} (hi : i < 2 ^ 61) (hj : j < 2 ^ 61)
    (h : base.nth i = base.nth j) : i = j := by
  have hnat := congrArg (·.toBitVec.toNat) h
  have height : BitVec.toNat (8 : BitVec 64) = 8 := rfl
  have hcount {k : Nat} (hk : k < 2 ^ 61) : (ofCount k).toBitVec.toNat = k :=
    (BitVec.toNat_ofNat ..).trans (Nat.mod_eq_of_lt (Nat.lt_trans hk (by decide)))
  simp only [nth, Int64.toBitVec_mul, Int64.toBitVec_add, Int64.toBitVec_ofNat,
    BitVec.toNat_mul, BitVec.toNat_add, height, hcount hi, hcount hj] at hnat
  omega

/-- An address that is above another one by so many words is reached without wrapping. -/
theorem add_lt_of_lt_nth {base : Word} {k : Nat} (hk : k < 2 ^ 60) (h : base < base.nth k) :
    base.toInt + 8 * k < 2 ^ 63 := by
  have hlow := base.le_toInt
  have hhigh := base.toInt_lt
  have height : Int64.toInt 8 = 8 := rfl
  have hcount : (ofCount k).toInt = k := Int64.toInt_ofNat_of_lt (by omega)
  rw [Int64.lt_iff_toInt_lt, nth, Int64.toInt_add, Int64.toInt_mul, hcount, height] at h
  simp only [Int.bmod] at h
  omega

/-- The greater of two words is not below the first. -/
theorem toInt_le_max (a b : Word) : a.toInt ≤ (max a b).toInt := by
  change a.toInt ≤ (if a ≤ b then b else a).toInt
  split
  · next h => exact Int64.le_iff_toInt_le.mp h
  · exact Int.le_refl _

/-- Nor is it below the second. -/
theorem toInt_le_max_right (a b : Word) : b.toInt ≤ (max a b).toInt := by
  change b.toInt ≤ (if a ≤ b then b else a).toInt
  split
  · exact Int.le_refl _
  · next h => exact Int.le_of_not_le (mt Int64.le_iff_toInt_le.mpr h)

/-- Alignment is divisibility by eight. -/
theorem mod_eight_eq_zero {address : Word} : address % 8 = 0 ↔ (8 : Int) ∣ address.toInt := by
  rw [← Int64.toInt_inj, Int64.toInt_mod]
  change address.toInt.tmod 8 = 0 ↔ _
  exact Int.dvd_iff_tmod_eq_zero.symm

/-- All words after an aligned one are aligned. -/
theorem mod_eight_nth {base : Word} (h : base % 8 = 0) (k : Nat) : base.nth k % 8 = 0 := by
  have height : Int64.toInt 8 = 8 := rfl
  rw [mod_eight_eq_zero] at h ⊢
  rw [nth, Int64.toInt_add, Int64.toInt_mul, height]
  simp only [Int.bmod]
  omega

end Word

/-! ## Headers -/

namespace Header

/-- The number of fields that a header announces, as a number. -/
def fieldCount (tag : Word) : Nat :=
  (length tag).toInt.toNat

/-- The length of a header has six bits. -/
theorem toNat_length_lt (tag : Word) : (length tag).toBitVec.toNat < 64 := by
  rw [length, Int64.toBitVec_and, BitVec.toNat_and]
  exact Nat.lt_of_le_of_lt Nat.and_le_right (by decide)

/-- A header has as many fields as its length says. -/
theorem fieldCount_eq (tag : Word) : fieldCount tag = (length tag).toBitVec.toNat := by
  have hlt := toNat_length_lt tag
  have htoInt : (length tag).toInt = (length tag).toBitVec.toInt := rfl
  rw [fieldCount, htoInt, BitVec.toInt_eq_toNat_cond, if_pos (by omega), Int.toNat_natCast]

/-- Tuples have fewer than 64 fields. -/
theorem fieldCount_lt (tag : Word) : fieldCount tag < 64 :=
  fieldCount_eq tag ▸ toNat_length_lt tag

/-- The length is the word of that count. -/
theorem length_eq (tag : Word) : length tag = Word.ofCount (fieldCount tag) := by
  rw [fieldCount_eq, ← Int64.toBitVec_inj]
  exact ((BitVec.ofNat_toNat ..).trans (BitVec.setWidth_eq _)).symm

/-- The first address after a tuple. -/
theorem add_length (tuple tag : Word) :
    tuple + 8 * (length tag + 1) = tuple.nth (fieldCount tag + 1) := by
  rw [length_eq, Word.add_eight_mul]

/-- An address is no header. -/
theorem isTag_of_aligned {address : Word} (h : address % 8 = 0) : isTag address = false := by
  have hand : address &&& 1 = 0 := by
    rw [Word.mod_eight_eq_zero] at h
    have htoInt : address.toInt = address.toBitVec.toInt := rfl
    rw [htoInt, BitVec.toInt_eq_toNat_cond] at h
    rw [← Int64.toBitVec_inj]
    apply BitVec.eq_of_toNat_eq
    rw [Int64.toBitVec_and, BitVec.toNat_and]
    change address.toBitVec.toNat &&& 1 = 0
    rw [Nat.and_one_is_mod]
    split at h <;> omega
  rw [isTag, hand]
  rfl

end Header

/-! ## Ranges -/

namespace AddressRange

variable {a b : AddressRange} {address : Word}

/-- An address in a range lies between its ends. -/
theorem contains_eq_true : a.contains address = true ↔
    a.start.toInt ≤ address.toInt ∧ address.toInt < a.finish.toInt := by
  rw [contains, Bool.and_eq_true, decide_eq_true_eq, decide_eq_true_eq, Int64.le_iff_toInt_le,
    Int64.lt_iff_toInt_lt]

/-- Two ranges have no address in common. -/
def Apart (a b : AddressRange) : Prop :=
  ∀ address, a.contains address = true → b.contains address = false

instance : Std.Symm Apart where
  symm _ _ h address hb := Bool.eq_false_iff.mpr fun ha => by
    rw [h address ha] at hb
    cases hb

/-- Ranges are apart if one of them is empty, or one ends before the other begins. -/
theorem apart_iff : a.Apart b ↔
    a.finish ≤ a.start ∨ b.finish ≤ b.start ∨ a.finish ≤ b.start ∨ b.finish ≤ a.start := by
  simp only [Int64.le_iff_toInt_le]
  constructor
  · intro h
    by_contra hnot
    -- The larger of the two starts is in both ranges.
    obtain hle | hle := Int.le_total a.start.toInt b.start.toInt
    · have hb := h b.start (contains_eq_true.mpr (by omega))
      rw [← Bool.not_eq_true, contains_eq_true] at hb
      omega
    · have hb := h a.start (contains_eq_true.mpr (by omega))
      rw [← Bool.not_eq_true, contains_eq_true] at hb
      omega
  · intro h address ha
    rw [contains_eq_true] at ha
    rw [← Bool.not_eq_true, contains_eq_true]
    omega

instance (a b : AddressRange) : Decidable (a.Apart b) :=
  decidable_of_iff _ apart_iff.symm

end AddressRange

/-! ## Memory -/

namespace Memory

variable {memory : Memory} {region : Region} {address word : Word}

/-- Any two regions are apart. -/
def RegionsApart (memory : Memory) : Prop :=
  memory.regions.Pairwise fun a b => a.Apart b.toAddressRange

instance (memory : Memory) : Decidable memory.RegionsApart :=
  inferInstanceAs (Decidable (List.Pairwise _ _))

/-- Two regions that have an address in common are the same. -/
theorem RegionsApart.eq_of_contains (h : memory.RegionsApart) {region' : Region}
    (hregion : region ∈ memory.regions) (hregion' : region' ∈ memory.regions)
    (ha : region.contains address = true) (ha' : region'.contains address = true) :
    region = region' := by
  by_contra hne
  have : Std.Symm fun a b : Region => a.Apart b.toAddressRange := ⟨fun _ _ hab => symm_of _ hab⟩
  rw [h.forall hregion hregion' hne address ha] at ha'
  cases ha'

/-- The region of an address is the one that has it. -/
theorem region_eq_ok (h : memory.RegionsApart) (hregion : region ∈ memory.regions)
    (haligned : address % 8 = 0) (hcontains : region.contains address = true) :
    memory.region address = .ok region := by
  have hsome : (memory.regions.find? (·.contains address)).isSome = true :=
    List.find?_isSome.mpr ⟨region, hregion, hcontains⟩
  obtain ⟨found, hfound⟩ := Option.isSome_iff_exists.mp hsome
  have hhas : found.contains address = true := by simpa using List.find?_some hfound
  have heq : found = region :=
    h.eq_of_contains (List.mem_of_find?_eq_some hfound) hregion hhas hcontains
  rw [Memory.region, if_neg (not_not.mpr haligned), hfound, heq]

/-- What is found at an address of a region that was handed out cleared. -/
def wordAt (memory : Memory) (address : Word) : Word :=
  memory.words[address]?.getD 0

/-- The run-time system hands out memory that can be read at once. -/
theorem load_eq_ok (h : memory.region address = .ok region) (hkind : region.kind ≠ .stack) :
    memory.load address = .ok (memory.wordAt address) := by
  refine Except.bind_eq_ok.mpr ⟨region, h, ?_⟩
  rw [wordAt]
  split
  · next word hword =>
    rw [hword]
    rfl
  · next hnone =>
    rw [if_neg hkind, hnone]
    rfl

/-- What is loaded is the word at the address. -/
theorem eq_wordAt_of_load (h : memory.load address = .ok word) : word = memory.wordAt address := by
  obtain ⟨region, -, hword⟩ := Except.bind_eq_ok.mp h
  rw [wordAt]
  split at hword
  · next hfound => rw [hfound]; cases hword; rfl
  · next hfound =>
    rw [hfound]
    split at hword
    · cases hword
    · cases hword; rfl

/-- Words can be stored wherever there is a region. -/
theorem store_eq_ok (h : memory.region address = .ok region) (word : Word) :
    memory.store address word = .ok { memory with words := memory.words.insert address word } := by
  rw [store, h]
  rfl

/-- What is found at an address depends on the regions and on what was written there. -/
theorem load_congr {memory' : Memory} (hregions : memory'.regions = memory.regions)
    (hwords : memory'.words[address]? = memory.words[address]?) :
    memory'.load address = memory.load address := by
  rw [load, load, Memory.region, Memory.region, hregions, hwords]

/-- An address from which a word can be loaded is a multiple of eight. -/
theorem aligned_of_load (h : memory.load address = .ok word) : address % 8 = 0 := by
  obtain ⟨region, hregion, -⟩ := Except.bind_eq_ok.mp h
  rw [Memory.region] at hregion
  split at hregion
  · cases hregion
  · next haligned => exact not_not.mp haligned

/-- Mapping a region does not change what is found elsewhere. -/
theorem load_map (hcontains : region.contains address = false) :
    (memory.map region).load address = memory.load address := by
  have hfind : (memory.regions ++ [region]).find? (·.contains address) =
      memory.regions.find? (·.contains address) := by
    rw [List.find?_append, List.find?_cons_of_neg (by simpa using hcontains)]
    exact Option.or_none
  rw [load, load, Memory.region, Memory.region, map, hfind]

/-- Unmapping a region does not change what is found elsewhere. -/
theorem load_unmap {start : Word}
    (hregion : memory.regions.find? (·.start == start) = some region)
    (hcontains : region.contains address = false) :
    (memory.unmap start).load address = memory.load address := by
  have hwords : (memory.words.filter fun address _ => !region.contains address)[address]? =
      memory.words[address]? := by
    rw [Std.ExtTreeMap.getElem?_filter', hcontains]
    cases memory.words[address]? <;> rfl
  have hregions : (memory.regions.eraseP (·.start == start)).find? (·.contains address) =
      memory.regions.find? (·.contains address) := by
    obtain ⟨erased, before, after, hbefore, herased, hsplit, heraseP⟩ :=
      List.exists_of_eraseP (List.mem_of_find?_eq_some hregion) (List.find?_some hregion)
    have hsame : erased = region := by
      rw [hsplit, List.find?_append, List.find?_eq_none.mpr hbefore,
        List.find?_cons_of_pos (p := fun region : Region => region.start == start) herased]
        at hregion
      exact Option.some.inj hregion
    rw [heraseP, hsplit, List.find?_append, List.find?_append,
      List.find?_cons_of_neg (by simp [hsame, hcontains])]
  rw [unmap, hregion, load, load, Memory.region, Memory.region, hwords, hregions]

end Memory

end TupleLang
