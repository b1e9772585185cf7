import TupleLang.Proofs.CollectedGraph
import TupleLang.Proofs.Headers

/-!
# Room in the heap

`Machine.HasRoom` says of a machine that its heap is a row of tuples, up to the free pointer, and
that so many words after the free pointer still belong to the heap.  A machine that may be asked for
a tuple (`Machine.CanAllocate`) has the room already, or it has the room after a collection:  the
new heap is chosen for all tuples that were there before and for the new one, and of the old tuples
it gets no more than that (`Machine.CanAllocate.exists_collect`).

A tuple that is written at the free pointer becomes one more tuple of the row
(`Machine.HasRoom.extend`).
-/

namespace TupleLang

/-- The bytes of a tuple, with its header. -/
theorem Header.ofCount_allocationSize (fields : Nat) :
    Word.ofCount (allocationSize fields) = 8 * Word.ofCount (fields + 1) :=
  Int64.ofNat_mul ..

/-! ## Rows of tuples -/

namespace Memory.Tuples

variable {memory memory' : Memory} {start middle finish tuple tag : Word}
  {tuples tuples' : List Word}

/-- Tuples after tuples. -/
theorem append (h : memory.Tuples start middle tuples) (h' : memory.Tuples middle finish tuples') :
    memory.Tuples start finish (tuples ++ tuples') := by
  induction h with
  | nil address => exact h'
  | cons hload htag hlt _ ih => exact .cons hload htag hlt (ih h')

/-- Only headers matter. -/
theorem congr (h : memory.Tuples start finish tuples)
    (hload : ∀ tuple ∈ tuples, memory'.load tuple = memory.load tuple) :
    memory'.Tuples start finish tuples := by
  induction h with
  | nil address => exact .nil address
  | cons htag hisTag hlt _ ih =>
    obtain ⟨hfirst, hrest⟩ := List.forall_mem_cons.mp hload
    exact .cons (hfirst.trans htag) hisTag hlt (ih hrest)

/-- Each tuple has a header. -/
theorem exists_tag (h : memory.Tuples start finish tuples) (hmem : tuple ∈ tuples) :
    ∃ tag, memory.load tuple = .ok tag := by
  induction h with
  | nil address => cases hmem
  | cons hload _ _ _ ih =>
    obtain rfl | hmem := List.mem_cons.mp hmem
    · exact ⟨_, hload⟩
    · exact ih hmem

/-- The tuples of a row end where the row ends, or before that. -/
theorem end_le (h : memory.Tuples start finish tuples) (hmem : tuple ∈ tuples)
    (hload : memory.load tuple = .ok tag) :
    tuple.toInt + 8 * (Header.fieldCount tag + 1) ≤ finish.toInt := by
  obtain ⟨numbers, used, hnumbered⟩ := h.exists_numbered (Word.nth_zero start).symm
    (by have := start.toInt_lt; omega)
  have hadd := hnumbered.add_lt
  rw [hnumbered.tuples_eq] at hmem
  obtain ⟨a, ha, rfl⟩ := List.mem_map.mp hmem
  have hbounds := (hnumbered.row.bounds ha).2
  rw [← Memory.eq_wordAt_of_load hload] at hbounds
  rw [hnumbered.finish_eq, Word.toInt_nth hadd, Word.toInt_nth (by omega)]
  omega

end Memory.Tuples

namespace Machine

variable {machine machine' : Machine} {heap roots : AddressRange} {free tuple : Word}
  {tuples : List Word} {words : Nat}

/-! ## Machines with the same heap -/

/-- Nothing that belongs to the heap has changed. -/
structure SameHeap (machine machine' : Machine) : Prop where
  memory_eq : machine'.memory = machine.memory
  globals_eq : machine'.globals = machine.globals
  heap_eq : machine'.heap? = machine.heap?
  nextHeap_eq : machine'.nextHeap = machine.nextHeap

/-- One after the other. -/
theorem SameHeap.trans {machine'' : Machine} (h : machine.SameHeap machine')
    (h' : machine'.SameHeap machine'') : machine.SameHeap machine'' where
  memory_eq := h'.memory_eq.trans h.memory_eq
  globals_eq := h'.globals_eq.trans h.globals_eq
  heap_eq := h'.heap_eq.trans h.heap_eq
  nextHeap_eq := h'.nextHeap_eq.trans h.nextHeap_eq

/-- Globals are the same. -/
theorem SameHeap.global_eq (h : machine.SameHeap machine') (name : Name) :
    machine'.global name = machine.global name := by
  rw [global, global, h.globals_eq]

/-- A collection can happen on the same heap. -/
theorem CanCollect.congr {bytes : Word} (h : machine.CanCollect heap roots free tuples bytes)
    (hsame : machine.SameHeap machine') : machine'.CanCollect heap roots free tuples bytes := by
  obtain ⟨hmemory, hglobals, hheap, hnext⟩ := hsame
  cases machine
  cases machine'
  cases hmemory
  cases hglobals
  cases hheap
  cases hnext
  exact { h with }

/-! ## Room -/

/-- The heap is a row of tuples up to the free pointer, and so many words after it belong to the
heap. -/
structure HasRoom (machine : Machine) (heap : AddressRange) (free : Word) (tuples : List Word)
    (words : Nat) : Prop where
  heap_eq : machine.heap? = some heap
  free_eq : machine.global Name.freePointer = .ok free
  fromspaceEnd_eq : machine.global Name.fromspaceEnd = .ok heap.finish
  mapped : ⟨heap, .heap⟩ ∈ machine.memory.regions
  regions_apart : machine.memory.RegionsApart
  row : machine.memory.Tuples heap.start free tuples
  free_aligned : free % 8 = 0
  room : free.toInt + 8 * words ≤ heap.finish.toInt

/-- There is as much room on the same heap. -/
theorem HasRoom.congr (h : machine.HasRoom heap free tuples words)
    (hsame : machine.SameHeap machine') : machine'.HasRoom heap free tuples words where
  heap_eq := hsame.heap_eq.trans h.heap_eq
  free_eq := (hsame.global_eq _).trans h.free_eq
  fromspaceEnd_eq := (hsame.global_eq _).trans h.fromspaceEnd_eq
  mapped := hsame.memory_eq ▸ h.mapped
  regions_apart := hsame.memory_eq ▸ h.regions_apart
  row := hsame.memory_eq ▸ h.row
  free_aligned := h.free_aligned
  room := h.room

/-- The machine may be asked for a tuple of so many words.  Its heap is in order, the root slots end
at `%r15`, and the numbers that the request is about do not wrap. -/
structure CanAllocate (machine : Machine) (heap roots : AddressRange) (free : Word)
    (tuples : List Word) (words : Nat) : Prop
    extends machine.CanCollect heap roots free tuples (8 * Word.ofCount words) where
  fromspaceEnd_eq : machine.global Name.fromspaceEnd = .ok heap.finish
  roots_finish : machine.register .r15 = roots.finish
  start_aligned : heap.start % 8 = 0
  end_lt : free.toInt + 8 * words < 2 ^ 63
  size_lt : free.toInt - heap.start.toInt + 8 * words < 2 ^ 63

namespace CanAllocate

variable (h : machine.CanAllocate heap roots free tuples words)
include h

/-- Tuples can be allocated on the same heap. -/
theorem congr (hsame : machine.SameHeap machine')
    (hr15 : machine'.register .r15 = machine.register .r15) :
    machine'.CanAllocate heap roots free tuples words where
  toCanCollect := h.toCanCollect.congr hsame
  fromspaceEnd_eq := (hsame.global_eq _).trans h.fromspaceEnd_eq
  roots_finish := hr15.trans h.roots_finish
  start_aligned := h.start_aligned
  end_lt := h.end_lt
  size_lt := h.size_lt

/-- The heap that a collection maps has room for the tuples that were there and for the new one. -/
theorem used_add_words_le {numbers : List Nat} {used : Nat}
    (hnumbered : machine.memory.Numbered heap.start 0 free tuples numbers used) :
    8 * used + 8 * words ≤ (nextHeapSize heap free (8 * Word.ofCount words)).toInt := by
  have hfree := CanCollect.toInt_free hnumbered
  have hsize := h.size_lt
  have hbytes : (8 * Word.ofCount words).toInt = 8 * words :=
    Word.toInt_eight_mul (by omega)
  have hle := h.toCanCollect.used_add_bytes_le hnumbered (by rw [hbytes]; exact hsize)
  rwa [hbytes] at hle

/-- After a collection there is room. -/
theorem exists_collect : ∃ machine' heap' free' tuples',
    machine.collect roots.finish (8 * Word.ofCount words) = .ok machine' ∧
      machine'.HasRoom heap' free' tuples' words ∧ machine'.next = machine.next ∧
      machine'.bindings = machine.bindings := by
  obtain ⟨numbers, used, hnumbered⟩ := h.exists_numbered
  have hc := h.sound hnumbered
  obtain ⟨copying, queue, fixed, hcollect, hreaches, hroots, hscanned⟩ := hc.exists_collect rfl
  have hcollected := h.collected hnumbered hreaches hroots hscanned
  obtain ⟨hfree, content, hholds, hprogress⟩ := hreaches
  have hregions : (copying.memory.unmap heap.start).regions =
      machine.memory.regions.eraseP (·.start == heap.start) ++
        [⟨machine.nextHeapRange heap free (8 * Word.ofCount words), .heap⟩] := by
    have hall : copying.memory.regions = machine.memory.regions ++
        [⟨machine.nextHeapRange heap free (8 * Word.ofCount words), .heap⟩] := hholds.regions_eq
    have hfound := h.heap_mapped
    rw [Memory.unmap, hall, List.find?_append, hfound]
    exact List.eraseP_append_left (p := fun region : Region => region.start == heap.start)
      (beq_self_eq_true heap.start) _ h.heap_mem
  have hroom : (machine.withCopies heap free (8 * Word.ofCount words) copying).HasRoom
      (machine.nextHeapRange heap free (8 * Word.ofCount words)) copying.free _ words := {
    heap_eq := hcollected.heap_eq
    free_eq := hcollected.free_eq
    fromspaceEnd_eq := hcollected.fromspaceEnd_eq
    mapped := by
      change _ ∈ (copying.memory.unmap heap.start).regions
      rw [hregions]
      exact List.mem_append_right _ (List.mem_singleton_self _)
    regions_apart := by
      change List.Pairwise _ (copying.memory.unmap heap.start).regions
      rw [hregions]
      refine List.pairwise_append.mpr ⟨?_, List.pairwise_singleton _ _, fun region hregion => ?_⟩
      · exact List.Pairwise.sublist List.eraseP_sublist h.regions_apart
      · exact List.forall_mem_singleton.mpr (h.next_apart region (List.mem_of_mem_eraseP hregion))
    row := hcollected.row
    free_aligned := hfree ▸ Word.mod_eight_nth h.next_aligned _
    room := by
      have hfinish := h.toInt_next_finish hnumbered
      have hend := h.toInt_address_extent hnumbered (hprogress.extent_le hc)
      have hsize := h.used_add_words_le hnumbered
      have hextent : _ ≤ used :=
        hc.extent_le_used hprogress.nodup fun a ha => (hprogress.reach a ha).mem
      rw [hfree, hfinish, hend]
      omega }
  exact ⟨_, _, _, _, h.collect_eq_ok hcollect, hroom, rfl, rfl⟩

end CanAllocate

/-! ## A tuple at the free pointer -/

namespace HasRoom

variable (h : machine.HasRoom heap tuple tuples words)
include h

/-- The words for which there is room, above all tuples. -/
theorem contains_nth {i : Nat} (hi : i < words) : heap.contains (tuple.nth i) = true := by
  have hroom := h.room
  have hhigh := heap.finish.toInt_lt
  obtain ⟨numbers, used, hnumbered⟩ := h.row.exists_numbered (Word.nth_zero heap.start).symm
    (by have := heap.start.toInt_lt; omega)
  have htuple := CanCollect.toInt_free hnumbered
  rw [AddressRange.contains_eq_true, Word.toInt_nth (by omega)]
  omega

/-- The words of a new tuple do not wrap around. -/
theorem toInt_nth {i : Nat} (hi : i ≤ words) : (tuple.nth i).toInt = tuple.toInt + 8 * i := by
  have hroom := h.room
  have hhigh := heap.finish.toInt_lt
  exact Word.toInt_nth (by omega)

/-- Words can be put there. -/
theorem region_nth {memory : Memory} (hregions : memory.regions = machine.memory.regions) {i : Nat}
    (hi : i < words) : memory.region (tuple.nth i) = .ok ⟨heap, .heap⟩ := by
  have hregion := Memory.region_eq_ok h.regions_apart h.mapped
    (Word.mod_eight_nth h.free_aligned i) (h.contains_nth hi)
  rw [Memory.region, hregions]
  exact hregion

end HasRoom

/-- A tuple at the free pointer becomes one more tuple of the heap, once the free pointer is moved
behind it. -/
theorem HasRoom.extend {types : List Ty} (htypes : types.length < 64)
    (h : machine.HasRoom heap tuple tuples (types.length + 1))
    (hheap : machine'.heap? = machine.heap?)
    (hregions : machine'.memory.regions = machine.memory.regions)
    (hfree : machine'.global Name.freePointer = .ok (tuple.nth (types.length + 1)))
    (hend : machine'.global Name.fromspaceEnd = machine.global Name.fromspaceEnd)
    (htag : machine'.memory.load tuple = .ok (Header.tag types))
    (hbelow : ∀ address, address.toInt < tuple.toInt →
      machine'.memory.load address = machine.memory.load address) :
    machine'.HasRoom heap (tuple.nth (types.length + 1)) (tuples ++ [tuple]) 0 := by
  have hroom := h.room
  have htoInt := h.toInt_nth (Nat.le_refl _)
  have hold : machine'.memory.Tuples heap.start tuple tuples := by
    refine h.row.congr fun earlier hearlier => hbelow earlier ?_
    obtain ⟨tag, htag⟩ := h.row.exists_tag hearlier
    have hend := h.row.end_le hearlier htag
    omega
  have hnew : machine'.memory.Tuples tuple (tuple.nth (types.length + 1)) [tuple] := by
    have hnext : tuple.nth (Header.fieldCount (Header.tag types) + 1) =
        tuple.nth (types.length + 1) := by rw [Header.fieldCount_tag htypes]
    refine .cons htag (Header.isTag_tag types) ?_ (hnext ▸ .nil _)
    rw [hnext, Int64.lt_iff_toInt_lt, htoInt]
    omega
  exact {
    heap_eq := hheap.trans h.heap_eq
    free_eq := hfree
    fromspaceEnd_eq := hend.trans h.fromspaceEnd_eq
    mapped := hregions ▸ h.mapped
    regions_apart := by
      rw [Memory.RegionsApart, hregions]
      exact h.regions_apart
    row := hold.append hnew
    free_aligned := Word.mod_eight_nth h.free_aligned _
    room := by
      rw [htoInt]
      omega }

end Machine

end TupleLang
