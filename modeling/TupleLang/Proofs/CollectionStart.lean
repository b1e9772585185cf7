import TupleLang.Proofs.CollectorRuns
import TupleLang.Proofs.HeapStates

/-!
# The start of a collection

A machine whose heap is in order (`Machine.CanCollect`) gives rise to a `Collection` with the
facts that the collector relies on (`Machine.CanCollect.sound`): the tuples of the heap are
numbered by their distance from its start, and the new heap has at least as many words as the old
one has in use.
-/

namespace TupleLang

/-- The tuples of a heap, by numbers.  `used` is the number of words they take. -/
structure Memory.Numbered (memory : Memory) (base : Word) (k : Nat) (finish : Word)
    (tuples : List Word) (numbers : List Nat) (used : Nat) : Prop where
  row : Row (fun a => Header.fieldCount (memory.wordAt (base.nth a)) + 1) k numbers used
  tuples_eq : tuples = numbers.map base.nth
  finish_eq : finish = base.nth used
  add_lt : base.toInt + 8 * used < 2 ^ 63
  isTag : ∀ a ∈ numbers, Header.isTag (memory.wordAt (base.nth a)) = true
  aligned : k < used → base.nth k % 8 = 0

/-- The tuples of a range are numbered from its base on. -/
theorem Memory.Tuples.exists_numbered {memory : Memory} {base start finish : Word}
    {tuples : List Word} (h : memory.Tuples start finish tuples) {k : Nat}
    (hstart : start = base.nth k) (hk : base.toInt + 8 * k < 2 ^ 63) :
    ∃ numbers used, memory.Numbered base k finish tuples numbers used := by
  induction h generalizing k with
  | nil address =>
    refine ⟨[], k, .nil k, rfl, hstart, hk, ?_, fun hlt => absurd hlt (Nat.lt_irrefl k)⟩
    exact fun a ha => by cases ha
  | @cons tuple tag finish tuples hload htag hlt _ ih =>
    have hword := Memory.eq_wordAt_of_load hload
    rw [hstart] at hword
    have hnext : tuple.nth (Header.fieldCount tag + 1) =
        base.nth (k + (Header.fieldCount tag + 1)) :=
      hstart ▸ (Word.nth_add ..).symm
    have hcount := Header.fieldCount_lt tag
    have hadd := Word.add_lt_of_lt_nth (by omega) hlt
    rw [hstart, Word.toInt_nth hk] at hadd
    obtain ⟨numbers, used, hrow, htuples, hfinish, hused, hisTag, -⟩ := ih hnext (by omega)
    refine ⟨k :: numbers, used, .cons ?_, ?_, hfinish, hused, ?_, ?_⟩
    · rwa [← hword]
    · rw [List.map_cons, htuples, hstart]
    · intro a ha
      obtain rfl | ha := List.mem_cons.mp ha
      · rwa [← hword]
      · exact hisTag a ha
    · exact fun _ => hstart ▸ Memory.aligned_of_load hload

/-! ## Root slots -/

namespace AddressRange

variable {range : AddressRange}

/-- The words of a range, by numbers. -/
theorem hasWord_nth (haligned : range.start % 8 = 0) {k : Nat}
    (hk : k < Copying.wordsBetween range.start range.finish) :
    range.HasWord (range.start.nth k) := by
  have hhigh := range.finish.toInt_lt
  rw [Copying.wordsBetween] at hk
  refine ⟨Word.mod_eight_nth haligned k, contains_eq_true.mpr ?_⟩
  rw [Word.toInt_nth (by omega)]
  omega

/-- The words of a range are numbered from its start on. -/
theorem HasWord.exists_nth {address : Word} (haligned : range.start % 8 = 0)
    (h : range.HasWord address) : ∃ k < Copying.wordsBetween range.start range.finish,
      address = range.start.nth k := by
  obtain ⟨haddress, hcontains⟩ := h
  rw [contains_eq_true] at hcontains
  rw [Word.mod_eight_eq_zero] at haligned haddress
  have hhigh := range.finish.toInt_lt
  refine ⟨((address.toInt - range.start.toInt) / 8).toNat, ?_, ?_⟩
  · rw [Copying.wordsBetween]
    omega
  · rw [← Int64.toInt_inj, Word.toInt_nth (by omega)]
    omega

end AddressRange

namespace Machine

/-- The collection that a machine starts. -/
def collection (machine : Machine) (heap roots : AddressRange) (free bytes : Word)
    (numbers : List Nat) (used : Nat) : Collection where
  memory := machine.memory.map ⟨machine.nextHeapRange heap free bytes, .heap⟩
  old := heap
  target := machine.nextHeap
  roots := roots.start
  used := used
  room := ((nextHeapSize heap free bytes).toInt / 8).toNat
  rootCount := Copying.wordsBetween roots.start roots.finish
  tuples := numbers

/-- A cell is in this region. -/
def IsRegionOf (machine : Machine) (heap : AddressRange) (free bytes : Word) :
    Cell → Region → Prop
  | .old _, region => region = ⟨heap, .heap⟩
  | .new _, region => region = ⟨machine.nextHeapRange heap free bytes, .heap⟩
  | .root _, region => region.kind = .rootStack

namespace CanCollect

variable {machine : Machine} {heap roots : AddressRange} {free bytes : Word} {tuples : List Word}
  {numbers : List Nat} {used : Nat}

/-- The free pointer lies after the used words. -/
theorem toInt_free (hnumbered : machine.memory.Numbered heap.start 0 free tuples numbers used) :
    free.toInt = heap.start.toInt + 8 * used := by
  rw [hnumbered.finish_eq, Word.toInt_nth hnumbered.add_lt]

section

variable (h : machine.CanCollect heap roots free tuples bytes)
include h

/-- The heap is a region. -/
theorem heap_mem : ⟨heap, .heap⟩ ∈ machine.memory.regions :=
  List.mem_of_find?_eq_some h.heap_mapped

/-- The tuples of the heap are numbered. -/
theorem exists_numbered :
    ∃ numbers used, machine.memory.Numbered heap.start 0 free tuples numbers used :=
  h.row.exists_numbered (Word.nth_zero heap.start).symm
    (by have := heap.start.toInt_lt; omega)

/-- The new heap is apart from all regions. -/
theorem regionsApart_collection :
    (machine.collection heap roots free bytes numbers used).memory.RegionsApart := by
  refine List.pairwise_append.mpr ⟨h.regions_apart, List.pairwise_singleton _ _, ?_⟩
  intro region hregion next hnext
  rw [List.mem_singleton.mp hnext]
  exact h.next_apart region hregion

variable (hnumbered : machine.memory.Numbered heap.start 0 free tuples numbers used)
include hnumbered

/-- The next heap is as large as the present one at least. -/
theorem eight_mul_used_le : 8 * used ≤ (nextHeapSize heap free bytes).toInt := by
  have hfree := h.free_le
  have hsize := h.heap_size
  rw [Int64.le_iff_toInt_le] at hfree
  rw [Int64.le_iff_toInt_le, Int64.toInt_sub] at hsize
  have hmax : (heap.finish - heap.start).toInt ≤ (nextHeapSize heap free bytes).toInt := by
    rw [nextHeapSize]
    exact Word.toInt_le_max ..
  rw [Int64.toInt_sub] at hmax
  have hlow := heap.start.le_toInt
  have hhigh := heap.finish.toInt_lt
  have hzero : Int64.toInt 0 = 0 := rfl
  rw [toInt_free hnumbered] at hfree
  simp only [Int.bmod, hzero] at hsize hmax
  omega

/-- The bytes in use. -/
theorem toInt_used : (free - heap.start).toInt = 8 * used := by
  have hused := h.eight_mul_used_le hnumbered
  have hlt := (nextHeapSize heap free bytes).toInt_lt
  rw [Int64.toInt_sub, toInt_free hnumbered]
  simp only [Int.bmod]
  omega

/-- The next heap has room for all that is in use and for so many bytes more, if their number does
not wrap. -/
theorem used_add_bytes_le (hsize : free.toInt - heap.start.toInt + bytes.toInt < 2 ^ 63) :
    8 * used + bytes.toInt ≤ (nextHeapSize heap free bytes).toInt := by
  have hused := h.toInt_used hnumbered
  have hfree := toInt_free hnumbered
  have hlow := bytes.le_toInt
  have hmax : (free - heap.start + bytes).toInt ≤ (nextHeapSize heap free bytes).toInt := by
    rw [nextHeapSize]
    exact Word.toInt_le_max_right ..
  rw [Int64.toInt_add, hused] at hmax
  simp only [Int.bmod] at hmax
  omega

/-- The new heap does not wrap around. -/
theorem toInt_next_finish :
    (machine.nextHeapRange heap free bytes).finish.toInt =
      machine.nextHeap.toInt + (nextHeapSize heap free bytes).toInt := by
  have hle := h.next_le
  have hused := h.eight_mul_used_le hnumbered
  have hlow := machine.nextHeap.le_toInt
  have hhigh := machine.nextHeap.toInt_lt
  have hsize := (nextHeapSize heap free bytes).toInt_lt
  rw [nextHeapRange, Int64.le_iff_toInt_le, Int64.toInt_add] at hle
  rw [nextHeapRange, Int64.toInt_add]
  simp only [Int.bmod] at hle ⊢
  omega

/-- The new heap has so many words. -/
theorem next_contains {k : Nat} (hk : k < ((nextHeapSize heap free bytes).toInt / 8).toNat) :
    (machine.nextHeapRange heap free bytes).contains (machine.nextHeap.nth k) = true := by
  have hfinish := h.toInt_next_finish hnumbered
  have hhigh := (machine.nextHeapRange heap free bytes).finish.toInt_lt
  have hstart : (machine.nextHeapRange heap free bytes).start = machine.nextHeap := rfl
  rw [AddressRange.contains_eq_true, hfinish, hstart, Word.toInt_nth (by omega)]
  omega

/-- The used words lie in the heap. -/
theorem heap_contains {k : Nat} (hk : k < used) : heap.contains (heap.start.nth k) = true := by
  have hfree := h.free_le
  have hadd := hnumbered.add_lt
  rw [Int64.le_iff_toInt_le, toInt_free hnumbered] at hfree
  rw [AddressRange.contains_eq_true, Word.toInt_nth (by omega)]
  omega

/-- Each cell lies in its own region. -/
theorem exists_region (cell : Cell)
    (hcell : (machine.collection heap roots free bytes numbers used).Has cell) :
    ∃ region ∈ (machine.collection heap roots free bytes numbers used).memory.regions,
      region.contains
          ((machine.collection heap roots free bytes numbers used).address cell) = true ∧
      machine.IsRegionOf heap free bytes cell region := by
  cases cell with
  | old k =>
    exact ⟨⟨heap, .heap⟩, List.mem_append_left _ h.heap_mem, h.heap_contains hnumbered hcell, rfl⟩
  | new k =>
    exact ⟨⟨machine.nextHeapRange heap free bytes, .heap⟩,
      List.mem_append_right _ (List.mem_singleton_self _), h.next_contains hnumbered hcell, rfl⟩
  | root k =>
    obtain ⟨region, hregion, hkind, hcontains⟩ :=
      h.roots_mapped _ (AddressRange.hasWord_nth h.roots_aligned.1 hcell)
    exact ⟨region, List.mem_append_left _ hregion, hcontains, hkind⟩

/-- Cells are aligned. -/
theorem address_aligned {cell : Cell}
    (hcell : (machine.collection heap roots free bytes numbers used).Has cell) :
    (machine.collection heap roots free bytes numbers used).address cell % 8 = 0 := by
  cases cell with
  | old k =>
    have haligned := hnumbered.aligned (Nat.lt_of_le_of_lt (Nat.zero_le k) hcell)
    rw [Word.nth_zero] at haligned
    exact Word.mod_eight_nth haligned k
  | new k => exact Word.mod_eight_nth h.next_aligned k
  | root k => exact Word.mod_eight_nth h.roots_aligned.1 k

omit h in
/-- There are fewer cells of each kind than words in the address space. -/
theorem lt_words {cell : Cell}
    (hcell : (machine.collection heap roots free bytes numbers used).Has cell) :
    cell.number < 2 ^ 61 := by
  cases cell with
  | old k =>
    have hadd := hnumbered.add_lt
    have hlow := heap.start.le_toInt
    change k < used at hcell
    change k < 2 ^ 61
    omega
  | new k =>
    have hsize := (nextHeapSize heap free bytes).toInt_lt
    change k < ((nextHeapSize heap free bytes).toInt / 8).toNat at hcell
    change k < 2 ^ 61
    omega
  | root k =>
    have hlow := roots.start.le_toInt
    have hhigh := roots.finish.toInt_lt
    change k < Copying.wordsBetween roots.start roots.finish at hcell
    rw [Copying.wordsBetween] at hcell
    change k < 2 ^ 61
    omega

/-- Different cells have different addresses: those of one kind by their numbers, and those of two
kinds because they lie in different regions. -/
theorem address_injective {cell cell' : Cell}
    (hcell : (machine.collection heap roots free bytes numbers used).Has cell)
    (hcell' : (machine.collection heap roots free bytes numbers used).Has cell')
    (heq : (machine.collection heap roots free bytes numbers used).address cell =
      (machine.collection heap roots free bytes numbers used).address cell') : cell = cell' := by
  obtain ⟨region, hregion, hcontains, hkind⟩ := h.exists_region hnumbered _ hcell
  obtain ⟨region', hregion', hcontains', hkind'⟩ := h.exists_region hnumbered _ hcell'
  rw [heq] at hcontains
  have hsame := h.regionsApart_collection.eq_of_contains hregion hregion' hcontains hcontains'
  have hapart (h₁ : region = ⟨heap, .heap⟩)
      (h₂ : region = ⟨machine.nextHeapRange heap free bytes, .heap⟩) : False := by
    have hnot := h.next_apart _ h.heap_mem _ (h₁ ▸ hcontains)
    rw [h₂] at hcontains
    exact Bool.false_ne_true (hnot.symm.trans hcontains)
  have hlt := lt_words hnumbered hcell
  have hlt' := lt_words hnumbered hcell'
  subst hsame
  cases cell with
  | old k =>
    cases cell' with
    | old k' => exact congrArg Cell.old (Word.nth_inj hlt hlt' heq)
    | new k' => exact (hapart hkind hkind').elim
    | root k' => rw [hkind] at hkind'; cases hkind'
  | new k =>
    cases cell' with
    | old k' => exact (hapart hkind' hkind).elim
    | new k' => exact congrArg Cell.new (Word.nth_inj hlt hlt' heq)
    | root k' => rw [hkind] at hkind'; cases hkind'
  | root k =>
    cases cell' with
    | old k' => rw [hkind'] at hkind; cases hkind
    | new k' => rw [hkind'] at hkind; cases hkind
    | root k' => exact congrArg Cell.root (Word.nth_inj hlt hlt' heq)

/-- What a cell of the old heap or a root slot holds at the start is what the machine has there. -/
theorem load_initial (cell : Cell)
    (hcell : (machine.collection heap roots free bytes numbers used).Has cell)
    (hnew : ∀ k, cell ≠ .new k) :
    machine.load ((machine.collection heap roots free bytes numbers used).address cell) =
      .ok ((machine.collection heap roots free bytes numbers used).initial cell) := by
  have haligned := h.address_aligned hnumbered hcell
  obtain ⟨region, hregion, hcontains, hkind⟩ := h.exists_region hnumbered _ hcell
  have hold : region ∈ machine.memory.regions ∧ region.kind ≠ .stack := by
    cases cell with
    | old k => exact hkind ▸ ⟨h.heap_mem, nofun⟩
    | new k => exact absurd rfl (hnew k)
    | root k =>
      refine ⟨(List.mem_append.mp hregion).resolve_right fun hlast => ?_, hkind ▸ nofun⟩
      rw [List.mem_singleton.mp hlast] at hkind
      cases hkind
  exact Memory.load_eq_ok (Memory.region_eq_ok h.regions_apart hold.1 haligned hcontains) hold.2

/-- The facts that the collector relies on hold. -/
theorem sound : (machine.collection heap roots free bytes numbers used).Sound where
  mapped cell hcell := by
    obtain ⟨region, hregion, hcontains, hkind⟩ := h.exists_region hnumbered _ hcell
    refine ⟨region, Memory.region_eq_ok h.regionsApart_collection hregion
      (h.address_aligned hnumbered hcell) hcontains, ?_⟩
    cases cell with
    | old k | new k => exact hkind ▸ nofun
    | root k => exact hkind ▸ nofun
  address_inj _ _ hcell hcell' heq := h.address_injective hnumbered hcell hcell' heq
  isTag := hnumbered.isTag
  row := hnumbered.row
  used_lt := by
    have hadd := hnumbered.add_lt
    have hlow := heap.start.le_toInt
    change used < 2 ^ 61
    omega
  used_le := by
    have hle := h.eight_mul_used_le hnumbered
    change used ≤ ((nextHeapSize heap free bytes).toInt / 8).toNat
    omega
  old_contains a ha := h.heap_contains hnumbered
    (Nat.lt_of_lt_of_le (Nat.lt_add_of_pos_right (Nat.succ_pos _)) (hnumbered.row.bounds ha).2)
  old_not_contains k hk :=
    symm_of AddressRange.Apart (h.next_apart _ h.heap_mem) _ (h.next_contains hnumbered hk)
  target_aligned := h.next_aligned
  target_add_lt := by
    have hfinish := h.toInt_next_finish hnumbered
    have hhigh := (machine.nextHeapRange heap free bytes).finish.toInt_lt
    have hle := h.eight_mul_used_le hnumbered
    change machine.nextHeap.toInt + 8 * ((nextHeapSize heap free bytes).toInt / 8).toNat < 2 ^ 63
    omega
  root_mem k hk hcontains := by
    have hmem := h.root_mem _ _ (AddressRange.hasWord_nth h.roots_aligned.1 hk)
      (h.load_initial hnumbered (.root k) hk nofun) hcontains
    rw [hnumbered.tuples_eq] at hmem
    obtain ⟨a, ha, heq⟩ := List.mem_map.mp hmem
    exact ⟨a, ha, heq.symm⟩
  field_mem a ha i hi hpointer hcontains := by
    have hbounds : a + (Header.fieldCount _ + 1) ≤ used := (hnumbered.row.bounds ha).2
    have hi' : i < Header.fieldCount (machine.memory.wordAt (heap.start.nth a)) := hi
    have htuple : heap.start.nth a ∈ tuples := by
      rw [hnumbered.tuples_eq]
      exact List.mem_map_of_mem ha
    have htag := h.load_initial hnumbered (.old a) (by change a < used; omega) nofun
    have hword := h.load_initial hnumbered (.old (a + (i + 1)))
      (by change a + (i + 1) < used; omega) nofun
    rw [Collection.address, Word.nth_add] at hword
    have hmem := h.field_mem _ htuple _ htag i hi hpointer _ hword hcontains
    rw [hnumbered.tuples_eq] at hmem
    obtain ⟨b, hb, heq⟩ := List.mem_map.mp hmem
    exact ⟨b, hb, heq.symm⟩

/-- Where the copies end, if they have room. -/
theorem toInt_address_extent {queue : List Nat}
    (hroom : (machine.collection heap roots free bytes numbers used).extent queue ≤
      (machine.collection heap roots free bytes numbers used).room) :
    ((machine.collection heap roots free bytes numbers used).address
        (.new ((machine.collection heap roots free bytes numbers used).extent queue))).toInt =
      machine.nextHeap.toInt +
        8 * (machine.collection heap roots free bytes numbers used).extent queue := by
  have htarget := (h.sound hnumbered).target_add_lt
  have hbase : (machine.collection heap roots free bytes numbers used).target.toInt =
      machine.nextHeap.toInt := rfl
  rw [Collection.address, Word.toInt_nth (by omega), hbase]

end

end CanCollect

end Machine

end TupleLang
