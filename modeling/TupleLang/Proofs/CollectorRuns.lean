import Mathlib.Algebra.Order.BigOperators.Group.List
import Mathlib.Algebra.Order.Group.Nat
import Mathlib.Data.List.Nodup
import Mathlib.Data.List.Perm.Subperm
import Mathlib.Data.Set.Insert
import TupleLang.Proofs.CollectorMemory

/-!
# What a collection does

The tuples that were copied so far form a queue, in the order of their copies.  It determines where
each copy stands (`Collection.place`).  Some slots, which are root slots or fields of copies, were
relocated already; they hold the new address of what they held at first (`Collection.Forwards`),
while the others still hold the same word as at the start.  `Collection.Progress` says this of the
cells.

Relocating a slot makes the queue longer by one tuple at most and adds the slot to those that were
relocated (`Collection.Reaches.relocate`); it changes no slot that was relocated before.  By
induction the same holds of the loops over root slots and fields, and the scan ends with a queue
all of whose slots were relocated (`Collection.Reaches.exists_scans`).  Such a queue has every tuple
that can be reached (`Collection.Progress.mem_of_reach`).

The scan ends by itself, and not because its turns run out: it takes one turn for each tuple of the
queue (`Copying.Scans`).
-/

namespace TupleLang

/-- The scan of the copies from the address `tuple` on, with no limit on its turns. -/
inductive Copying.Scans (old : AddressRange) :
    (turns : Nat) → (tuple : Word) → Copying → Copying → Prop
  | done {tuple : Word} {copying : Copying} (h : ¬ tuple < copying.free) :
    Scans old 0 tuple copying copying
  | turn {turns : Nat} {tuple tag : Word} {copying copying₁ copying' : Copying}
    (h : tuple < copying.free) (hload : copying.memory.load tuple = .ok tag)
    (hfields : copying.relocateFields old tuple (Header.pointerMask tag) 0
      (Header.length tag).toInt.toNat = .ok copying₁)
    (hrest : Scans old turns (tuple + 8 * (Header.length tag + 1)) copying₁ copying') :
    Scans old (turns + 1) tuple copying copying'

/-- A limit that is not reached has no effect. -/
theorem Copying.Scans.scan_eq_ok {old : AddressRange} {turns limit : Nat} {tuple : Word}
    {copying copying' : Copying} (h : Scans old turns tuple copying copying')
    (hlimit : turns ≤ limit) : scan old limit tuple copying = .ok copying' := by
  induction h generalizing limit with
  | done h =>
    cases limit with
    | zero => rfl
    | succ limit => exact if_neg h
  | turn h hload hfields _ ih =>
    cases limit with
    | zero => exact absurd hlimit (Nat.not_succ_le_zero _)
    | succ limit =>
      rw [scan, if_pos h]
      exact Except.bind_eq_ok.mpr ⟨_, hload,
        Except.bind_eq_ok.mpr ⟨_, hfields, ih (Nat.le_of_succ_le_succ hlimit)⟩⟩

namespace Collection

variable {c : Collection} {queue queue' : List Nat} {a b i k j target count : Nat}
  {word word' address rootsEnd : Word} {old : AddressRange} {more more' : Set Slot}
  {result : Except MachineError Copying}

/-! ## The order of the copies -/

/-- The number of words of some tuples. -/
def extent (c : Collection) (queue : List Nat) : Nat :=
  (queue.map c.size).sum

/-- Where the copy of a tuple begins, when the tuples are copied in the given order. -/
def place (c : Collection) : (queue : List Nat) → (tuple : Nat) → Nat
  | [], _ => 0
  | first :: queue, a => if first = a then 0 else c.size first + c.place queue a

/-- No copies take no cells. -/
@[simp] theorem extent_nil : c.extent [] = 0 := rfl

/-- Each copy takes as many cells as its tuple. -/
@[simp] theorem extent_cons : c.extent (a :: queue) = c.size a + c.extent queue := by
  simp [extent]

/-- Two parts of a queue take the cells of both. -/
@[simp] theorem extent_append (queue' : List Nat) :
    c.extent (queue ++ queue') = c.extent queue + c.extent queue' := by
  simp [extent]

/-- More copies do not move those that were made. -/
theorem place_append_of_mem (ha : a ∈ queue) (queue' : List Nat) :
    c.place (queue ++ queue') a = c.place queue a := by
  induction queue with
  | nil => cases ha
  | cons first queue ih =>
    rw [List.cons_append, place, place]
    split
    · rfl
    · next hne => rw [ih ((List.mem_cons.mp ha).resolve_left fun e => hne e.symm)]

/-- Copies stay where they are when the queue grows. -/
theorem place_eq_of_grows (h : queue <+: queue') (ha : a ∈ queue) :
    c.place queue' a = c.place queue a := by
  obtain ⟨more, rfl⟩ := h
  exact place_append_of_mem ha more

/-- A tuple is copied behind those that were copied before it. -/
theorem place_append_cons (ha : a ∉ queue) (queue' : List Nat) :
    c.place (queue ++ a :: queue') a = c.extent queue := by
  induction queue with
  | nil => exact if_pos rfl
  | cons first queue ih =>
    rw [List.mem_cons, not_or] at ha
    rw [List.cons_append, place, if_neg (Ne.symm ha.1), ih ha.2, extent_cons]

/-- A copy ends before the end of the queue. -/
theorem place_add_size_le (ha : a ∈ queue) : c.place queue a + c.size a ≤ c.extent queue := by
  induction queue with
  | nil => cases ha
  | cons first queue ih =>
    rw [place, extent_cons]
    split
    · next heq => rw [heq]; omega
    · next hne =>
      have := ih ((List.mem_cons.mp ha).resolve_left fun e => hne e.symm)
      omega

/-- Copies do not overlap. -/
theorem place_apart (ha : a ∈ queue) (hb : b ∈ queue) (hne : a ≠ b) :
    c.place queue a + c.size a ≤ c.place queue b ∨
      c.place queue b + c.size b ≤ c.place queue a := by
  induction queue with
  | nil => cases ha
  | cons first queue ih =>
    rw [place, place]
    have hmem {x : Nat} (hx : x ∈ first :: queue) (hfirst : first ≠ x) : x ∈ queue :=
      (List.mem_cons.mp hx).resolve_left (Ne.symm hfirst)
    by_cases hfa : first = a <;> by_cases hfb : first = b
    · exact absurd (hfa.symm.trans hfb) hne
    · rw [if_pos hfa, if_neg hfb, hfa]
      omega
    · rw [if_neg hfa, if_pos hfb, hfb]
      omega
    · rw [if_neg hfa, if_neg hfb]
      have := ih (hmem ha hfa) (hmem hb hfb)
      omega

/-- The words of copies are told apart by the tuple and the number of the word in it. -/
theorem place_add_inj (ha : a ∈ queue) (hb : b ∈ queue) (hi : i < c.size a) (hj : j < c.size b)
    (h : c.place queue a + i = c.place queue b + j) : a = b ∧ i = j := by
  by_cases hab : a = b
  · subst hab
    exact ⟨rfl, by omega⟩
  · have := place_apart (c := c) ha hb hab
    omega

/-- Copies take no more words than were in use. -/
theorem Sound.extent_le_used (hc : c.Sound) (hnodup : queue.Nodup)
    (hsubset : ∀ a ∈ queue, a ∈ c.tuples) :
    c.extent queue ≤ c.used := by
  have hsum := hc.row.add_sum
  obtain ⟨sorted, hperm, hsublist⟩ := List.subperm_of_subset hnodup hsubset
  rw [extent, ← (hperm.map c.size).sum_nat]
  have hle := (hsublist.map c.size).sum_le_sum fun _ _ => Nat.zero_le _
  omega

/-- There is room for the copies. -/
theorem Sound.extent_le (hc : c.Sound) (hnodup : queue.Nodup)
    (hsubset : ∀ a ∈ queue, a ∈ c.tuples) :
    c.extent queue ≤ c.room :=
  Nat.le_trans (hc.extent_le_used hnodup hsubset) hc.used_le

/-! ## Slots -/

/-- A word that a pointer may be in: a root slot or a field of a tuple. -/
inductive Slot where
  | root (k : Nat)
  | field (tuple i : Nat)

namespace Slot

/-- Where the slot is at the start. -/
def origin : Slot → Cell
  | root k => .root k
  | field a i => .old (a + (i + 1))

/-- Where the slot is once its tuple was copied. -/
def current (c : Collection) (queue : List Nat) : Slot → Cell
  | root k => .root k
  | field a i => .new (c.place queue a + (i + 1))

/-- The slot is a root slot or belongs to a copy. -/
def IsOf (c : Collection) (queue : List Nat) : Slot → Prop
  | root k => k < c.rootCount
  | field a i => a ∈ queue ∧ i < c.fieldCount a

/-- The collector relocates the slot. -/
def IsPointer (c : Collection) : Slot → Prop
  | root _ => True
  | field a i => c.isPointer a i = true

variable {slot slot' : Slot} {queue' : List Nat}

/-- Slots stay slots when the queue grows. -/
theorem IsOf.mono (h : slot.IsOf c queue) (hgrows : queue <+: queue') : slot.IsOf c queue' := by
  cases slot with
  | root k => exact h
  | field a i => exact ⟨hgrows.subset h.1, h.2⟩

/-- A slot stays where it is when the queue grows. -/
theorem IsOf.current_eq (h : slot.IsOf c queue) (hgrows : queue <+: queue') :
    slot.current c queue' = slot.current c queue := by
  cases slot with
  | root k => rfl
  | field a i => rw [current, current, place_eq_of_grows hgrows h.1]

/-- Different slots are different cells. -/
theorem IsOf.current_inj (h : slot.IsOf c queue) (h' : slot'.IsOf c queue)
    (heq : slot.current c queue = slot'.current c queue) : slot = slot' := by
  cases slot with
  | root k =>
    cases slot' with
    | root k' => exact congrArg Slot.root (Cell.root.inj heq)
    | field b j => cases heq
  | field a i =>
    cases slot' with
    | root k' => cases heq
    | field b j =>
      obtain ⟨hab, hij⟩ := place_add_inj h.1 h'.1 (Nat.succ_lt_succ h.2) (Nat.succ_lt_succ h'.2)
        (Cell.new.inj heq)
      rw [hab, Nat.succ.inj hij]

/-- A slot is no header. -/
theorem IsOf.current_ne_place (h : slot.IsOf c queue) (ha : a ∈ queue) :
    slot.current c queue ≠ .new (c.place queue a) := by
  cases slot with
  | root k => exact nofun
  | field b j =>
    intro heq
    have hzero := (place_add_inj h.1 ha (Nat.succ_lt_succ h.2) (Nat.succ_pos _)
      (Cell.new.inj heq)).2
    cases hzero

/-- Slots are not in the old heap. -/
theorem current_ne_old (k : Nat) : slot.current c queue ≠ .old k := by
  cases slot <;> exact nofun

/-- The cell of a slot belongs to the collection. -/
theorem IsOf.has_current (h : slot.IsOf c queue) (hroom : c.extent queue ≤ c.room) :
    c.Has (slot.current c queue) := by
  cases slot with
  | root k => exact h
  | field a i =>
    have hsize := place_add_size_le (c := c) h.1
    have hi := h.2
    change c.place queue a + (i + 1) < c.room
    rw [size] at hsize
    omega

end Slot

/-! ## Progress -/

/-- The tuples that can be reached from the root slots. -/
inductive Reach (c : Collection) : Nat → Prop
  | root {k a : Nat} (hk : k < c.rootCount) (ha : a ∈ c.tuples)
      (h : c.initial (.root k) = c.address (.old a)) : c.Reach a
  | field {a i b : Nat} (hreach : c.Reach a) (hi : i < c.fieldCount a)
      (hpointer : c.isPointer a i = true) (hb : b ∈ c.tuples)
      (h : c.initial (.old (a + (i + 1))) = c.address (.old b)) : c.Reach b

/-- What can be reached is one of the tuples. -/
theorem Reach.mem (h : c.Reach a) : a ∈ c.tuples := by
  cases h with
  | root _ ha _ => exact ha
  | field _ _ _ hb _ => exact hb

/-- What becomes of a word: the address of a tuple is replaced by that of its copy, and a word that
does not point into the old heap stays the same. -/
inductive Forwards (c : Collection) (queue : List Nat) : Word → Word → Prop
  | outside {word : Word} (h : c.old.contains word = false) : c.Forwards queue word word
  | copy {a : Nat} (ha : a ∈ queue) :
      c.Forwards queue (c.address (.old a)) (c.address (.new (c.place queue a)))

/-- What was forwarded stays so when the queue grows. -/
theorem Forwards.mono (h : c.Forwards queue word word') (hgrows : queue <+: queue') :
    c.Forwards queue' word word' := by
  cases h with
  | outside h => exact .outside h
  | copy ha =>
    rw [← place_eq_of_grows hgrows ha]
    exact .copy (hgrows.subset ha)

/-- The tuples of `queue` were copied, and the slots in `fixed` were relocated. -/
structure Progress (c : Collection) (content : Cell → Word) (queue : List Nat)
    (fixed : Set Slot) : Prop where
  nodup : queue.Nodup
  reach : ∀ a ∈ queue, c.Reach a
  forward : ∀ a ∈ queue, content (.old a) = c.address (.new (c.place queue a))
  /-- Nothing else changed in the old heap. -/
  old_eq : ∀ k < c.used, k ∉ queue → content (.old k) = c.initial (.old k)
  tag_eq : ∀ a ∈ queue, content (.new (c.place queue a)) = c.tag a
  fixed_slot : ∀ slot ∈ fixed, slot.IsOf c queue ∧ slot.IsPointer c
  slot_fixed : ∀ slot ∈ fixed,
    c.Forwards queue (c.initial slot.origin) (content (slot.current c queue))
  slot_eq : ∀ slot, slot.IsOf c queue → slot ∉ fixed →
    content (slot.current c queue) = c.initial slot.origin

variable {content : Cell → Word} {fixed : Set Slot} {slot : Slot}

/-- The copies fit into the new heap. -/
theorem Progress.extent_le (hc : c.Sound) (h : c.Progress content queue fixed) :
    c.extent queue ≤ c.room :=
  hc.extent_le h.nodup fun a ha => (h.reach a ha).mem

/-- Nothing is copied and nothing relocated at the start. -/
theorem Progress.initial : c.Progress c.initial [] ∅ where
  nodup := List.nodup_nil
  reach _ ha := by cases ha
  forward _ ha := by cases ha
  old_eq _ _ _ := rfl
  tag_eq _ ha := by cases ha
  fixed_slot _ h := h.elim
  slot_fixed _ h := h.elim
  slot_eq slot h _ := by
    cases slot with
    | root k => rfl
    | field a i => cases h.1

/-- One more slot was relocated. -/
theorem Progress.write (h : c.Progress content queue fixed) (hslot : slot.IsOf c queue)
    (hpointer : slot.IsPointer c) (hword : c.Forwards queue (c.initial slot.origin) word) :
    c.Progress (Function.update content (slot.current c queue) word) queue (insert slot fixed) where
  nodup := h.nodup
  reach := h.reach
  forward a ha := by rw [Function.update_of_ne (Slot.current_ne_old a).symm, h.forward a ha]
  old_eq k hk hnot := by rw [Function.update_of_ne (Slot.current_ne_old k).symm, h.old_eq k hk hnot]
  tag_eq a ha := by rw [Function.update_of_ne (hslot.current_ne_place ha).symm, h.tag_eq a ha]
  fixed_slot other hother := by
    obtain rfl | hother := Set.mem_insert_iff.mp hother
    · exact ⟨hslot, hpointer⟩
    · exact h.fixed_slot other hother
  slot_fixed other hother := by
    by_cases heq : other = slot
    · subst heq
      rwa [Function.update_self]
    · have hfixed := (Set.mem_insert_iff.mp hother).resolve_left heq
      have hne := fun e => heq ((h.fixed_slot other hfixed).1.current_inj hslot e)
      rw [Function.update_of_ne hne]
      exact h.slot_fixed other hfixed
  slot_eq other hother hnot := by
    rw [Set.mem_insert_iff, not_or] at hnot
    have hne := fun e => hnot.1 (hother.current_inj hslot e)
    rw [Function.update_of_ne hne, h.slot_eq other hother hnot.2]

/-- The old tuple is left with the address of its copy. -/
theorem forwarded_old_self (target : Nat) :
    c.forwarded content b target (.old b) = c.address (.new target) :=
  Function.update_self ..

/-- Its other cells, and those of other tuples, stay. -/
theorem forwarded_old (h : k ≠ b) (target : Nat) :
    c.forwarded content b target (.old k) = content (.old k) :=
  Function.update_of_ne (fun e => h (Cell.old.inj e)) ..

/-- Earlier copies stay. -/
theorem forwarded_new_of_lt (h : k < target) :
    c.forwarded content b target (.new k) = content (.new k) :=
  if_neg (by omega)

/-- The copy has what the tuple had. -/
theorem forwarded_new_add (h : i < c.size b) :
    c.forwarded content b target (.new (target + i)) = content (.old (b + i)) := by
  refine (if_pos (by omega)).trans ?_
  rw [Nat.add_sub_cancel_left]

/-- A new copy leaves the slots that there were alone. -/
theorem Slot.IsOf.forwarded_current (h : slot.IsOf c queue) :
    c.forwarded content b (c.extent queue) (slot.current c queue) =
      content (slot.current c queue) := by
  cases slot with
  | root k => rfl
  | field a i =>
    have hsize := place_add_size_le (c := c) h.1
    have hi := h.2
    rw [size] at hsize
    exact forwarded_new_of_lt (by omega)

/-- A new copy brings its fields as slots. -/
theorem Slot.IsOf.of_append (h : slot.IsOf c (queue ++ [b])) :
    slot.IsOf c queue ∨ ∃ i < c.fieldCount b, slot = .field b i := by
  cases slot with
  | root k => exact .inl h
  | field a i =>
    obtain ⟨ha, hi⟩ := h
    obtain ha | ha := List.mem_append.mp ha
    · exact .inl ⟨ha, hi⟩
    · rw [List.mem_singleton] at ha
      subst ha
      exact .inr ⟨i, hi, rfl⟩

/-- The fields of a tuple that was not copied are as they were at the start. -/
theorem Progress.field_eq (hc : c.Sound) (h : c.Progress content queue fixed) (hb : b ∈ c.tuples)
    (hi : i < c.fieldCount b) : content (.old (b + (i + 1))) = c.initial (.old (b + (i + 1))) := by
  have hused := hc.add_size_le hb
  rw [size] at hused
  refine h.old_eq _ (by omega) fun hmem => ?_
  have hle := hc.row.add_size_le_of_lt hb (h.reach _ hmem).mem (by omega)
  rw [size] at hle
  omega

/-- One more tuple was copied. -/
theorem Progress.push (hc : c.Sound) (h : c.Progress content queue fixed) (hb : b ∉ queue)
    (hreach : c.Reach b) :
    c.Progress (c.forwarded content b (c.extent queue)) (queue ++ [b]) fixed := by
  have hgrows : queue <+: queue ++ [b] := List.prefix_append ..
  have hplace : c.place (queue ++ [b]) b = c.extent queue := place_append_cons hb []
  have hplaceOf {a : Nat} (ha : a ∈ queue) : c.place (queue ++ [b]) a = c.place queue a :=
    place_append_of_mem ha [b]
  have hne {a : Nat} (ha : a ∈ queue) : a ≠ b := fun e => hb (e ▸ ha)
  have hlt {a : Nat} (ha : a ∈ queue) : c.place queue a < c.extent queue :=
    Nat.lt_of_lt_of_le (Nat.lt_add_of_pos_right (Nat.succ_pos _)) (place_add_size_le ha)
  constructor
  case nodup =>
    exact List.nodup_append.mpr ⟨h.nodup, List.nodup_singleton b, fun a ha b' hb' =>
      List.mem_singleton.mp hb' ▸ hne ha⟩
  case reach =>
    intro a ha
    obtain ha | ha := List.mem_append.mp ha
    · exact h.reach a ha
    · exact List.mem_singleton.mp ha ▸ hreach
  case forward =>
    intro a ha
    obtain ha | ha := List.mem_append.mp ha
    · rw [forwarded_old (hne ha), h.forward a ha, hplaceOf ha]
    · rw [List.mem_singleton.mp ha, forwarded_old_self, hplace]
  case old_eq =>
    intro k hk hnot
    rw [List.mem_append, List.mem_singleton, not_or] at hnot
    rw [forwarded_old hnot.2, h.old_eq k hk hnot.1]
  case tag_eq =>
    intro a ha
    obtain ha | ha := List.mem_append.mp ha
    · rw [hplaceOf ha, forwarded_new_of_lt (hlt ha), h.tag_eq a ha]
    · rw [List.mem_singleton.mp ha, hplace]
      exact (forwarded_new_add (Nat.succ_pos _)).trans (h.old_eq b (hc.has_old hreach.mem) hb)
  case fixed_slot =>
    intro slot hslot
    obtain ⟨hof, hpointer⟩ := h.fixed_slot slot hslot
    exact ⟨hof.mono hgrows, hpointer⟩
  case slot_fixed =>
    intro slot hslot
    have hof := (h.fixed_slot slot hslot).1
    rw [hof.current_eq hgrows, hof.forwarded_current]
    exact (h.slot_fixed slot hslot).mono hgrows
  case slot_eq =>
    intro slot hslot hnot
    obtain hof | ⟨i, hi, rfl⟩ := hslot.of_append
    · rw [hof.current_eq hgrows, hof.forwarded_current, h.slot_eq slot hof hnot]
    · rw [Slot.current, hplace, forwarded_new_add (Nat.succ_lt_succ hi)]
      exact h.field_eq hc hreach.mem hi

/-- A slot that points into the old heap points to a tuple, which can be reached. -/
theorem Progress.exists_pointee (hc : c.Sound) (h : c.Progress content queue fixed)
    (hslot : slot.IsOf c queue) (hpointer : slot.IsPointer c)
    (hcontains : c.old.contains (c.initial slot.origin) = true) :
    ∃ a, c.Reach a ∧ c.initial slot.origin = c.address (.old a) := by
  cases slot with
  | root k =>
    obtain ⟨a, ha, heq⟩ := hc.root_mem k hslot hcontains
    exact ⟨a, .root hslot ha heq, heq⟩
  | field b i =>
    have hreach := h.reach b hslot.1
    obtain ⟨a, ha, heq⟩ := hc.field_mem b hreach.mem i hslot.2 hpointer hcontains
    exact ⟨a, .field hreach hslot.2 hpointer ha heq, heq⟩

/-! ## Runs -/

/-- The collection has come so far. -/
def Reaches (c : Collection) (copying : Copying) (queue : List Nat) (fixed : Set Slot) : Prop :=
  copying.free = c.address (.new (c.extent queue)) ∧
    ∃ content, c.Holds copying.memory content ∧ c.Progress content queue fixed

/-- The collection goes on, to where at least the slots in `more` were relocated too. -/
def Advances (c : Collection) (queue : List Nat) (fixed more : Set Slot)
    (result : Except MachineError Copying) : Prop :=
  ∃ copying' queue' fixed', result = .ok copying' ∧ c.Reaches copying' queue' fixed' ∧
    queue <+: queue' ∧ fixed ⊆ fixed' ∧ more ⊆ fixed'

variable {copying : Copying}

/-- What a slot holds after it was relocated is no address of the old heap. -/
theorem Forwards.not_contains (hc : c.Sound) (hroom : c.extent queue ≤ c.room)
    (h : c.Forwards queue word word') : c.old.contains word' = false := by
  cases h with
  | outside h => exact h
  | @copy a ha =>
    have hsize := place_add_size_le (c := c) ha
    rw [size] at hsize
    exact hc.old_not_contains _ (by omega)

/-- A word that is no address of the old heap stays. -/
theorem relocate_of_not_contains (hload : copying.memory.load address = .ok word)
    (hcontains : old.contains word = false) : copying.relocate old address = .ok copying := by
  rw [Copying.relocate, hload]
  refine Except.bind_eq_ok.mpr ⟨_, rfl, ?_⟩
  rw [hcontains]
  rfl

/-- An address of the old heap is replaced by that of the copy. -/
theorem relocate_of_copy {target : Word} {copying' : Copying} {memory : Memory}
    (hload : copying.memory.load address = .ok word) (hcontains : old.contains word = true)
    (hcopy : copying.copy word = .ok (target, copying'))
    (hstore : copying'.memory.store address target = .ok memory) :
    copying.relocate old address = .ok ⟨memory, copying'.free⟩ := by
  rw [Copying.relocate, hload]
  refine Except.bind_eq_ok.mpr ⟨_, rfl, ?_⟩
  rw [hcontains]
  exact Except.bind_eq_ok.mpr ⟨_, hcopy, Except.bind_eq_ok.mpr ⟨_, hstore, rfl⟩⟩

/-- Relocating a slot copies what it points to, if that is needed, and changes the slot. -/
theorem Reaches.relocate (hc : c.Sound) (h : c.Reaches copying queue fixed)
    (hslot : slot.IsOf c queue) (hpointer : slot.IsPointer c) :
    c.Advances queue fixed {slot}
      (copying.relocate c.old (c.address (slot.current c queue))) := by
  obtain ⟨memory, free⟩ := copying
  obtain ⟨hfree, content, hholds, hprogress⟩ := h
  dsimp only at hfree hholds
  subst hfree
  have hroom := hprogress.extent_le hc
  have hhas := hslot.has_current hroom
  have hload := hholds.load_eq _ hhas
  have hinsert : {slot} ⊆ insert slot fixed := Set.singleton_subset_iff.mpr (Set.mem_insert ..)
  cases hcontains : c.old.contains (content (slot.current c queue)) with
  | false =>
    -- The slot was relocated before, or it never pointed into the old heap.
    have hforwards : c.Forwards queue (c.initial slot.origin) (content (slot.current c queue)) := by
      by_cases hfixed : slot ∈ fixed
      · exact hprogress.slot_fixed slot hfixed
      · rw [hprogress.slot_eq slot hslot hfixed] at hcontains ⊢
        exact .outside hcontains
    have hnext := hprogress.write hslot hpointer hforwards
    rw [Function.update_eq_self] at hnext
    exact ⟨_, queue, _, relocate_of_not_contains hload hcontains, ⟨rfl, content, hholds, hnext⟩,
      List.prefix_rfl, Set.subset_insert .., hinsert⟩
  | true =>
    have hfixed : slot ∉ fixed := fun hfixed => by
      rw [(hprogress.slot_fixed slot hfixed).not_contains hc hroom] at hcontains
      cases hcontains
    have horigin := hprogress.slot_eq slot hslot hfixed
    obtain ⟨a, hreach, ha⟩ :=
      hprogress.exists_pointee hc hslot hpointer (horigin ▸ hcontains)
    rw [horigin, ha] at hload hcontains
    by_cases hmem : a ∈ queue
    · -- The tuple was copied before, so the place of its header has the address of the copy.
      have hcopy := hholds.copy_of_forwarded hc hreach.mem (hprogress.forward a hmem)
        (c.address (.new (c.extent queue)))
      obtain ⟨memory', hstore, hholds'⟩ :=
        hholds.exists_store hc hhas (c.address (.new (c.place queue a)))
      have hforwards : c.Forwards queue (c.initial slot.origin)
          (c.address (.new (c.place queue a))) := by
        rw [ha]
        exact .copy hmem
      have hnext := hprogress.write hslot hpointer hforwards
      exact ⟨_, queue, _, relocate_of_copy hload hcontains hcopy hstore, ⟨rfl, _, hholds', hnext⟩,
        List.prefix_rfl, Set.subset_insert .., hinsert⟩
    · have hpush := hprogress.push hc hmem hreach
      have hgrows : queue <+: queue ++ [a] := List.prefix_append ..
      have hroom' : c.extent queue + c.size a ≤ c.room := by simpa using hpush.extent_le hc
      have htag := hprogress.old_eq a (hc.has_old hreach.mem) hmem
      obtain ⟨memory₁, hcopy, hholds₁⟩ := hholds.exists_copy hc hreach.mem htag hroom'
      obtain ⟨memory', hstore, hholds'⟩ :=
        hholds₁.exists_store hc hhas (c.address (.new (c.extent queue)))
      have hforwards : c.Forwards (queue ++ [a]) (c.initial slot.origin)
          (c.address (.new (c.extent queue))) := by
        rw [ha, ← place_append_cons (c := c) hmem []]
        exact .copy (List.mem_append_right _ (List.mem_singleton_self a))
      have hnext := hpush.write (hslot.mono hgrows) hpointer hforwards
      rw [hslot.current_eq hgrows] at hnext
      exact ⟨_, queue ++ [a], _, relocate_of_copy hload hcontains hcopy hstore,
        ⟨by simp, _, hholds', hnext⟩, hgrows, Set.subset_insert .., hinsert⟩

/-- Where a run stands, nothing more was relocated. -/
theorem Reaches.advances (h : c.Reaches copying queue fixed) :
    c.Advances queue fixed ∅ (.ok copying) :=
  ⟨copying, queue, fixed, rfl, h, List.prefix_rfl, subset_rfl, Set.empty_subset _⟩

/-- Steps one after the other relocate the slots of both. -/
theorem Advances.bind {next : Copying → Except MachineError Copying}
    (h : c.Advances queue fixed more result)
    (hnext : ∀ copying' queue' fixed', c.Reaches copying' queue' fixed' → queue <+: queue' →
      c.Advances queue' fixed' more' (next copying')) :
    c.Advances queue fixed (more ∪ more') (result >>= next) := by
  obtain ⟨copying₁, queue₁, fixed₁, hresult, hreaches₁, hqueue₁, hfixed₁, hmore₁⟩ := h
  obtain ⟨copying₂, queue₂, fixed₂, hresult₂, hreaches₂, hqueue₂, hfixed₂, hmore₂⟩ :=
    hnext copying₁ queue₁ fixed₁ hreaches₁ hqueue₁
  exact ⟨copying₂, queue₂, fixed₂, Except.bind_eq_ok.mpr ⟨copying₁, hresult, hresult₂⟩, hreaches₂,
    hqueue₁.trans hqueue₂, hfixed₁.trans hfixed₂, Set.union_subset (hmore₁.trans hfixed₂) hmore₂⟩

/-- Fewer slots may be asked for. -/
theorem Advances.weaken (h : c.Advances queue fixed more result) (hsubset : more' ⊆ more) :
    c.Advances queue fixed more' result := by
  obtain ⟨copying', queue', fixed', hresult, hreaches, hqueue, hfixed, hmore⟩ := h
  exact ⟨copying', queue', fixed', hresult, hreaches, hqueue, hfixed, hsubset.trans hmore⟩

/-- The loop over root slots relocates them all. -/
theorem Reaches.relocateWords (hc : c.Sound) (h : c.Reaches copying queue fixed)
    (hcount : k + count ≤ c.rootCount) :
    c.Advances queue fixed {slot | ∃ j, k ≤ j ∧ j < k + count ∧ slot = .root j}
      (Copying.relocateWords c.old (c.address (.root k)) count copying) := by
  induction count generalizing k copying queue fixed with
  | zero =>
    refine h.advances.weaken ?_
    rintro _ ⟨j, hle, hlt, -⟩
    omega
  | succ count ih =>
    have hslot : (Slot.root k).IsOf c queue := by change k < c.rootCount; omega
    have hfirst := h.relocate hc hslot trivial
    have hrest : ∀ copying' queue' fixed', c.Reaches copying' queue' fixed' → queue <+: queue' →
        c.Advances queue' fixed' {slot | ∃ j, k + 1 ≤ j ∧ j < k + 1 + count ∧ slot = .root j}
          (Copying.relocateWords c.old (c.address (.root k) + 8) count copying') := by
      intro copying' queue' fixed' h' _
      have hnext := ih h' (k := k + 1) (by omega)
      rwa [address, Word.nth_succ] at hnext
    refine (hfirst.bind hrest).weaken ?_
    rintro _ ⟨j, hle, hlt, rfl⟩
    obtain rfl | hne := eq_or_ne j k
    · exact .inl rfl
    · exact .inr ⟨j, by omega, by omega, rfl⟩

/-- The fields of a tuple are looked at one by one. -/
theorem relocateFields_succ (old : AddressRange) (tuple mask : Word) (i count : Nat)
    (copying : Copying) : Copying.relocateFields old tuple mask i (count + 1) copying =
      (if Header.marks mask i then copying.relocate old (tuple + 8 * (Word.ofCount i + 1))
        else pure copying) >>= Copying.relocateFields old tuple mask (i + 1) count := by
  rw [Copying.relocateFields]
  split <;> rfl

/-- The loop over the fields of a copy relocates those that are pointers. -/
theorem Reaches.relocateFields (hc : c.Sound) (h : c.Reaches copying queue fixed) (ha : a ∈ queue)
    (hcount : i + count ≤ c.fieldCount a) :
    c.Advances queue fixed
      {slot | ∃ j, i ≤ j ∧ j < i + count ∧ c.isPointer a j = true ∧ slot = .field a j}
      (Copying.relocateFields c.old (c.address (.new (c.place queue a)))
        (Header.pointerMask (c.tag a)) i count copying) := by
  induction count generalizing i copying queue fixed with
  | zero =>
    refine h.advances.weaken ?_
    rintro _ ⟨j, hle, hlt, -⟩
    omega
  | succ count ih =>
    have hfirst : c.Advances queue fixed {slot | c.isPointer a i = true ∧ slot = .field a i}
        (if Header.marks (Header.pointerMask (c.tag a)) i then
          copying.relocate c.old (c.address (.new (c.place queue a)) + 8 * (Word.ofCount i + 1))
        else pure copying) := by
      split
      · next hpointer =>
        have hslot : (Slot.field a i).IsOf c queue := ⟨ha, by omega⟩
        rw [Word.add_eight_mul, address, ← Word.nth_add]
        refine (h.relocate hc hslot hpointer).weaken ?_
        rintro _ ⟨-, rfl⟩
        rfl
      · next hpointer =>
        refine h.advances.weaken ?_
        rintro _ ⟨hpointer', -⟩
        exact absurd hpointer' hpointer
    have hrest : ∀ copying' queue' fixed', c.Reaches copying' queue' fixed' → queue <+: queue' →
        c.Advances queue' fixed'
          {slot | ∃ j, i + 1 ≤ j ∧ j < i + 1 + count ∧ c.isPointer a j = true ∧ slot = .field a j}
          (Copying.relocateFields c.old (c.address (.new (c.place queue a)))
            (Header.pointerMask (c.tag a)) (i + 1) count copying') := by
      intro copying' queue' fixed' h' hgrows
      have hnext := ih h' (hgrows.subset ha) (i := i + 1) (by omega)
      rwa [place_eq_of_grows hgrows ha] at hnext
    rw [relocateFields_succ]
    refine (hfirst.bind hrest).weaken ?_
    rintro _ ⟨j, hle, hlt, hpointer, rfl⟩
    obtain rfl | hne := eq_or_ne j i
    · exact .inl ⟨hpointer, rfl⟩
    · exact .inr ⟨j, by omega, by omega, hpointer, rfl⟩

/-- All pointers of these copies were relocated. -/
def Scanned (c : Collection) (queue : List Nat) (fixed : Set Slot) : Prop :=
  ∀ a ∈ queue, ∀ i < c.fieldCount a, c.isPointer a i = true → Slot.field a i ∈ fixed

/-- Later cells of the new heap have higher addresses. -/
theorem Sound.address_new_lt (hc : c.Sound) (hij : i < j) (hj : j ≤ c.room) :
    c.address (.new i) < c.address (.new j) := by
  have htarget := hc.target_add_lt
  rw [Int64.lt_iff_toInt_lt, address, address, Word.toInt_nth (by omega),
    Word.toInt_nth (by omega)]
  omega

/-- No more tuples are copied than there are. -/
theorem Progress.length_le (h : c.Progress content queue fixed) :
    queue.length ≤ c.tuples.length :=
  (List.subperm_of_subset h.nodup fun a ha => (h.reach a ha).mem).length_le

/-- The scan goes through the queue while it grows, and ends when all of it was scanned. -/
theorem Reaches.exists_scans (hc : c.Sound) {copying : Copying} {fixed : Set Slot}
    {done rest : List Nat} (h : c.Reaches copying (done ++ rest) fixed)
    (hdone : c.Scanned done fixed) :
    ∃ turns copying' queue' fixed',
      Copying.Scans c.old turns (c.address (.new (c.extent done))) copying copying' ∧
      turns + done.length = queue'.length ∧
      c.Reaches copying' queue' fixed' ∧ fixed ⊆ fixed' ∧ c.Scanned queue' fixed' := by
  cases rest with
  | nil =>
    rw [List.append_nil] at h
    refine ⟨0, copying, done, fixed, .done ?_, Nat.zero_add _, h, subset_rfl, hdone⟩
    rw [h.1]
    exact Int64.lt_irrefl
  | cons a rest =>
    have hmem : a ∈ done ++ a :: rest := by simp
    obtain ⟨hfree, content, hholds, hprogress⟩ := h
    -- There are tuples that were not scanned, and from turn to turn there are fewer.
    have hlength : (done ++ a :: rest).length ≤ c.tuples.length := hprogress.length_le
    have hnotMem : a ∉ done := fun hin =>
      (List.nodup_append.mp hprogress.nodup).2.2 a hin a (List.mem_cons_self ..) rfl
    have hplace : c.place (done ++ a :: rest) a = c.extent done := place_append_cons hnotMem rest
    have hroom := hprogress.extent_le hc
    have hlt : c.extent done < c.extent (done ++ a :: rest) := by
      simp [size]
    have hload : copying.memory.load (c.address (.new (c.extent done))) = .ok (c.tag a) := by
      rw [← hprogress.tag_eq a hmem, hplace]
      exact hholds.load_eq _ (Nat.lt_of_lt_of_le hlt hroom)
    have hcount : 0 + c.fieldCount a ≤ c.fieldCount a := by omega
    obtain ⟨copying₁, queue₁, fixed₁, hrelocate, h₁, ⟨more, rfl⟩, hfixed₁, hmore₁⟩ :=
      Reaches.relocateFields hc ⟨hfree, content, hholds, hprogress⟩ hmem hcount
    have hsplit : done ++ a :: rest ++ more = done ++ [a] ++ (rest ++ more) := by simp
    rw [hsplit] at h₁
    have hdone₁ : c.Scanned (done ++ [a]) fixed₁ := by
      intro b hb i hi hpointer
      obtain hb | hb := List.mem_append.mp hb
      · exact hfixed₁ (hdone b hb i hi hpointer)
      · rw [List.mem_singleton] at hb
        subst hb
        exact hmore₁ ⟨i, by omega, by omega, hpointer, rfl⟩
    obtain ⟨turns, copying', queue', fixed', hscans, hturns, h', hfixed', hscanned⟩ :=
      h₁.exists_scans hc hdone₁
    have hnext : c.address (.new (c.extent done)) + 8 * (Header.length (c.tag a) + 1) =
        c.address (.new (c.extent (done ++ [a]))) := by
      rw [Header.add_length, extent_append, extent_cons, extent_nil, Nat.add_zero]
      exact (Word.nth_add ..).symm
    rw [List.length_append, List.length_singleton] at hturns
    rw [hplace] at hrelocate
    rw [← hnext] at hscans
    refine ⟨turns + 1, copying', queue', fixed', .turn ?_ hload hrelocate hscans, by omega, h',
      hfixed₁.trans hfixed', hscanned⟩
    rw [hfree]
    exact hc.address_new_lt hlt hroom
termination_by c.tuples.length - done.length
decreasing_by
  simp only [List.length_append, List.length_cons, List.length_nil] at hlength ⊢
  omega

/-- The scan has turns enough. -/
theorem Sound.length_tuples_lt (hc : c.Sound) :
    c.tuples.length < Copying.addressSpaceWords := by
  have hlength := hc.row.length_le fun _ => Nat.succ_pos _
  have hused := hc.used_lt
  omega

/-- A collection ends by itself, with all slots relocated. -/
theorem Sound.exists_scans (hc : c.Sound) :
    ∃ started copying queue fixed,
      Copying.relocateWords c.old c.roots c.rootCount ⟨c.memory, c.target⟩ = .ok started ∧
      Copying.Scans c.old queue.length c.target started copying ∧
      c.Reaches copying queue fixed ∧ (∀ k < c.rootCount, Slot.root k ∈ fixed) ∧
      c.Scanned queue fixed := by
  have hstart : c.Reaches ⟨c.memory, c.target⟩ [] ∅ :=
    ⟨(Word.nth_zero c.target).symm, c.initial, hc.holds_initial, .initial⟩
  obtain ⟨started, queue₁, fixed₁, hroots, h₁, -, -, hmore⟩ :=
    hstart.relocateWords hc (k := 0) (Nat.le_of_eq (Nat.zero_add _))
  have hqueue₁ : c.Reaches started ([] ++ queue₁) fixed₁ := h₁
  have hscanned : c.Scanned [] fixed₁ := fun a ha => by cases ha
  obtain ⟨turns, copying, queue, fixed, hscans, hturns, h, hfixed, hall⟩ :=
    hqueue₁.exists_scans hc hscanned
  rw [address, Word.nth_zero] at hroots
  rw [extent_nil, address, Word.nth_zero] at hscans
  refine ⟨started, copying, queue, fixed, hroots, ?_, h, ?_, hall⟩
  · rw [← hturns]
    exact hscans
  · exact fun k hk => hfixed (hmore ⟨k, by omega, by omega, rfl⟩)

/-- So it does within the turns that it is given. -/
theorem Sound.collect_eq_ok (hc : c.Sound) {started : Copying}
    (hcount : Copying.wordsBetween c.roots rootsEnd = c.rootCount)
    (hroots : Copying.relocateWords c.old c.roots c.rootCount ⟨c.memory, c.target⟩ = .ok started)
    (hscans : Copying.Scans c.old queue.length c.target started copying)
    (h : c.Reaches copying queue fixed) :
    Copying.collect c.old c.roots rootsEnd c.target c.memory = .ok copying := by
  obtain ⟨-, content, -, hprogress⟩ := h
  rw [Copying.collect, hcount]
  exact Except.bind_eq_ok.mpr ⟨_, hroots,
    hscans.scan_eq_ok (Nat.le_of_lt (Nat.lt_of_le_of_lt hprogress.length_le hc.length_tuples_lt))⟩

/-- A collection ends, with all slots relocated. -/
theorem Sound.exists_collect (hc : c.Sound)
    (hcount : Copying.wordsBetween c.roots rootsEnd = c.rootCount) :
    ∃ copying queue fixed,
      Copying.collect c.old c.roots rootsEnd c.target c.memory = .ok copying ∧
      c.Reaches copying queue fixed ∧ (∀ k < c.rootCount, Slot.root k ∈ fixed) ∧
      c.Scanned queue fixed := by
  obtain ⟨started, copying, queue, fixed, hroots, hscans, h, hfixed, hscanned⟩ := hc.exists_scans
  exact ⟨copying, queue, fixed, hc.collect_eq_ok hcount hroots hscans h, h, hfixed, hscanned⟩

/-- A tuple is known by its address. -/
theorem Sound.address_old_inj (hc : c.Sound) (ha : a ∈ c.tuples) (hb : b ∈ c.tuples)
    (h : c.address (.old a) = c.address (.old b)) : a = b :=
  Cell.old.inj (hc.address_inj _ _ (hc.has_old ha) (hc.has_old hb) h)

/-- The tuple that a relocated slot pointed to is in the queue. -/
theorem Progress.mem_of_fixed (hc : c.Sound) (h : c.Progress content queue fixed)
    (hslot : slot ∈ fixed) (ha : a ∈ c.tuples) (heq : c.initial slot.origin = c.address (.old a)) :
    a ∈ queue := by
  have hforwards := h.slot_fixed slot hslot
  rw [heq] at hforwards
  generalize content (slot.current c queue) = word' at hforwards
  generalize hword : c.address (.old a) = word at hforwards
  cases hforwards with
  | outside hcontains =>
    rw [← hword, hc.old_contains a ha] at hcontains
    cases hcontains
  | copy hb => exact hc.address_old_inj ha (h.reach _ hb).mem hword ▸ hb

/-- When all slots were relocated, all tuples that can be reached were copied. -/
theorem Progress.mem_of_reach (hc : c.Sound) (h : c.Progress content queue fixed)
    (hroots : ∀ k < c.rootCount, Slot.root k ∈ fixed) (hscanned : c.Scanned queue fixed)
    (hreach : c.Reach a) : a ∈ queue := by
  induction hreach with
  | root hk ha heq => exact h.mem_of_fixed hc (hroots _ hk) ha heq
  | field _ hi hpointer hb heq ih => exact h.mem_of_fixed hc (hscanned _ ih _ hi hpointer) hb heq

end Collection

end TupleLang
