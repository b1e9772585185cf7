import Mathlib.Algebra.GroupWithZero.Nat
import Mathlib.Logic.Function.Basic
import TupleLang.Proofs.Addresses

/-!
# The words a collection works on

A collection touches words of three kinds: those of the old heap, those of the new one, and the root
slots.  A `Cell` names such a word by its number, and a `Collection` has the addresses where each
kind begins, the tuples of the old heap, and the facts about them that the collector relies on.
While the collection runs, `Collection.Holds` describes the memory by a function from cells to
words; all words that are no cells stay as they were.

The steps of the collector are then changes of such functions (`Collection.Holds.exists_store`,
`Collection.Holds.exists_copyWords`, `Collection.Holds.exists_copy`).
-/

namespace TupleLang

/-- A word that a collection may touch. -/
inductive Cell where
  /-- A word of the old heap. -/
  | old (k : Nat)
  /-- A word of the new heap. -/
  | new (k : Nat)
  /-- A root slot. -/
  | root (k : Nat)
  deriving DecidableEq

/-- The number of a cell among those of its kind. -/
def Cell.number : Cell → Nat
  | old k | new k | root k => k

/-- Pieces of the given sizes without gaps between them, from `k` up to `n`, by the numbers at which
they begin. -/
inductive Row (size : Nat → Nat) : (k : Nat) → List Nat → (n : Nat) → Prop
  | nil (k : Nat) : Row size k [] k
  | cons {k n : Nat} {pieces : List Nat} (h : Row size (k + size k) pieces n) :
      Row size k (k :: pieces) n

namespace Row

variable {size : Nat → Nat} {k n a b : Nat} {pieces : List Nat}

/-- Pieces fill their row. -/
theorem add_sum (h : Row size k pieces n) : k + (pieces.map size).sum = n := by
  induction h with
  | nil k => rfl
  | cons _ ih => rw [List.map_cons, List.sum_cons, ← Nat.add_assoc, ih]

/-- Pieces lie in their row. -/
theorem bounds (h : Row size k pieces n) (ha : a ∈ pieces) : k ≤ a ∧ a + size a ≤ n := by
  induction h with
  | nil k => cases ha
  | cons h ih =>
    obtain rfl | ha := List.mem_cons.mp ha
    · have := h.add_sum
      omega
    · have := ih ha
      omega

/-- Pieces do not overlap. -/
theorem add_size_le_of_lt (h : Row size k pieces n) (ha : a ∈ pieces) (hb : b ∈ pieces)
    (hab : a < b) : a + size a ≤ b := by
  induction h with
  | nil k => cases ha
  | cons h ih =>
    obtain hb | hb := List.mem_cons.mp hb
    · -- Nothing begins before the first piece.
      have hfirst := ((Row.cons h).bounds ha).1
      omega
    · obtain ha | ha := List.mem_cons.mp ha
      · rw [ha]
        exact (h.bounds hb).1
      · exact ih ha hb

/-- There are no more pieces than cells. -/
theorem length_le (hsize : ∀ a, 0 < size a) (h : Row size k pieces n) :
    k + pieces.length ≤ n := by
  induction h with
  | nil k => exact Nat.le_refl k
  | @cons k n pieces _ ih =>
    have := hsize k
    rw [List.length_cons]
    omega

end Row

/-- A collection that is about to begin: the new heap is mapped, and nothing is copied yet. -/
structure Collection where
  /-- The memory at the start. -/
  memory : Memory
  /-- The old heap. -/
  old : AddressRange
  /-- Where the new heap begins. -/
  target : Word
  /-- Where the root slots begin. -/
  roots : Word
  /-- The number of words of the old heap that are in use. -/
  used : Nat
  /-- The number of words of the new heap. -/
  room : Nat
  /-- The number of root slots. -/
  rootCount : Nat
  /-- The tuples of the old heap, by the numbers of their first words. -/
  tuples : List Nat

namespace Collection

variable (c : Collection)

/-- The address of a cell. -/
def address : Cell → Word
  | .old k => c.old.start.nth k
  | .new k => c.target.nth k
  | .root k => c.roots.nth k

/-- The cells that there are. -/
def Has : Cell → Prop
  | .old k => k < c.used
  | .new k => k < c.room
  | .root k => k < c.rootCount

/-- What a cell holds at the start. -/
def initial (cell : Cell) : Word :=
  c.memory.wordAt (c.address cell)

/-- The header of a tuple. -/
def tag (a : Nat) : Word :=
  c.initial (.old a)

/-- The number of fields of a tuple. -/
def fieldCount (a : Nat) : Nat :=
  Header.fieldCount (c.tag a)

/-- The number of words of a tuple. -/
def size (a : Nat) : Nat :=
  c.fieldCount a + 1

/-- Whether a field of a tuple is marked as a pointer. -/
def isPointer (a i : Nat) : Bool :=
  Header.marks (Header.pointerMask (c.tag a)) i

/-- The facts that the collector relies on. -/
structure Sound : Prop where
  mapped : ∀ cell, c.Has cell →
    ∃ region, c.memory.region (c.address cell) = .ok region ∧ region.kind ≠ .stack
  address_inj : ∀ cell cell', c.Has cell → c.Has cell' → c.address cell = c.address cell' →
    cell = cell'
  isTag : ∀ a ∈ c.tuples, Header.isTag (c.tag a) = true
  row : Row c.size 0 c.tuples c.used
  used_lt : c.used < Copying.addressSpaceWords
  /-- The new heap has room for all tuples. -/
  used_le : c.used ≤ c.room
  old_contains : ∀ a ∈ c.tuples, c.old.contains (c.address (.old a)) = true
  old_not_contains : ∀ k < c.room, c.old.contains (c.address (.new k)) = false
  target_aligned : c.target % 8 = 0
  target_add_lt : c.target.toInt + 8 * c.room < 2 ^ 63
  root_mem : ∀ k < c.rootCount, c.old.contains (c.initial (.root k)) = true →
    ∃ a ∈ c.tuples, c.initial (.root k) = c.address (.old a)
  field_mem : ∀ a ∈ c.tuples, ∀ i < c.fieldCount a, c.isPointer a i = true →
    c.old.contains (c.initial (.old (a + (i + 1)))) = true →
    ∃ b ∈ c.tuples, c.initial (.old (a + (i + 1))) = c.address (.old b)

variable {c} {memory : Memory} {content : Cell → Word}

/-- Tuples lie in the used part of the heap. -/
theorem Sound.add_size_le (hc : c.Sound) {a : Nat} (ha : a ∈ c.tuples) : a + c.size a ≤ c.used :=
  (hc.row.bounds ha).2

/-- So do their headers. -/
theorem Sound.has_old (hc : c.Sound) {a : Nat} (ha : a ∈ c.tuples) : c.Has (.old a) :=
  Nat.lt_of_lt_of_le (Nat.lt_add_of_pos_right (Nat.succ_pos _)) (hc.add_size_le ha)

/-- The memory has these words in the cells, and elsewhere what it had at the start. -/
structure Holds (c : Collection) (memory : Memory) (content : Cell → Word) : Prop where
  regions_eq : memory.regions = c.memory.regions
  load_eq : ∀ cell, c.Has cell → memory.load (c.address cell) = .ok (content cell)
  words_eq : ∀ address, (∀ cell, c.Has cell → c.address cell ≠ address) →
    memory.words[address]? = c.memory.words[address]?

/-- The memory holds the cells at the start. -/
theorem Sound.holds_initial (hc : c.Sound) : c.Holds c.memory c.initial where
  regions_eq := rfl
  load_eq cell hcell := by
    obtain ⟨region, hregion, hkind⟩ := hc.mapped cell hcell
    exact Memory.load_eq_ok hregion hkind
  words_eq _ _ := rfl

/-- A word can be stored in any cell, and the other cells keep theirs. -/
theorem Holds.exists_store (hc : c.Sound) (h : c.Holds memory content) {cell : Cell}
    (hcell : c.Has cell) (word : Word) :
    ∃ memory', memory.store (c.address cell) word = .ok memory' ∧
      c.Holds memory' (Function.update content cell word) := by
  obtain ⟨region, hregion, -⟩ := hc.mapped cell hcell
  have hregion' : memory.region (c.address cell) = .ok region := by
    rw [← hregion, Memory.region, Memory.region, h.regions_eq]
  have hstore := Memory.store_eq_ok hregion' word
  refine ⟨_, hstore, h.regions_eq, ?_, ?_⟩
  · intro other hother
    by_cases heq : other = cell
    · subst heq
      rw [Function.update_self]
      exact Memory.load_of_store hstore
    · rw [Function.update_of_ne heq, ← h.load_eq other hother]
      refine Memory.load_congr rfl ?_
      have hne : c.address cell ≠ c.address other :=
        fun e => heq (hc.address_inj cell other hcell hother e).symm
      exact Std.ExtTreeMap.getElem?_insert.trans (if_neg (by simpa using hne))
  · intro address haddress
    rw [← h.words_eq address haddress]
    exact Std.ExtTreeMap.getElem?_insert.trans (if_neg (by simpa using haddress cell hcell))

/-- The cells after words of the old heap, from `source` on, were copied to the new one, from
`target` on. -/
def copied (content : Cell → Word) (source target count : Nat) : Cell → Word
  | .new k =>
    if target ≤ k ∧ k < target + count then content (.old (source + (k - target)))
    else content (.new k)
  | cell => content cell

/-- Nothing is copied yet. -/
theorem copied_zero (content : Cell → Word) (source target : Nat) :
    copied content source target 0 = content := by
  funext cell
  cases cell with
  | new k => exact if_neg (by omega)
  | old k | root k => rfl

/-- To copy words, copy the first one and then the rest. -/
theorem copied_succ (content : Cell → Word) (source target count : Nat) :
    copied (Function.update content (.new target) (content (.old source)))
      (source + 1) (target + 1) count = copied content source target (count + 1) := by
  funext cell
  cases cell with
  | new k =>
    by_cases hk : k = target
    · subst hk
      have hnot : ¬ (k + 1 ≤ k ∧ k < k + 1 + count) := by omega
      have hfirst : k ≤ k ∧ k < k + (count + 1) := by omega
      rw [copied, copied, if_neg hnot, if_pos hfirst, Function.update_self, Nat.sub_self,
        Nat.add_zero]
    · have hiff : target + 1 ≤ k ∧ k < target + 1 + count ↔
          target ≤ k ∧ k < target + (count + 1) := by omega
      simp only [copied, Function.update_apply, Cell.new.injEq, hk, if_false, reduceCtorEq, hiff]
      split
      · congr 2
        omega
      · rfl
  | old k | root k => simp [copied]

/-- Words are copied cell by cell. -/
theorem Holds.exists_copyWords (hc : c.Sound) {source target count : Nat}
    (h : c.Holds memory content) (hsource : source + count ≤ c.used)
    (htarget : target + count ≤ c.room) :
    ∃ memory', Copying.copyWords (c.address (.old source)) (c.address (.new target)) count memory =
        .ok memory' ∧ c.Holds memory' (copied content source target count) := by
  induction count generalizing source target memory content with
  | zero => exact ⟨memory, rfl, by rwa [copied_zero]⟩
  | succ count ih =>
    have hold : c.Has (.old source) := by change source < c.used; omega
    have hnew : c.Has (.new target) := by change target < c.room; omega
    have hsource' : source + 1 + count ≤ c.used := by omega
    have htarget' : target + 1 + count ≤ c.room := by omega
    obtain ⟨memory₁, hstore, h₁⟩ := h.exists_store hc hnew (content (.old source))
    obtain ⟨memory₂, hrest, h₂⟩ := ih h₁ hsource' htarget'
    refine ⟨memory₂, ?_, by rwa [copied_succ] at h₂⟩
    rw [Copying.copyWords, h.load_eq _ hold]
    refine Except.bind_eq_ok.mpr ⟨_, rfl, Except.bind_eq_ok.mpr ⟨_, hstore, ?_⟩⟩
    rw [address, address, Word.nth_succ, Word.nth_succ] at hrest
    exact hrest

/-- The cells after a tuple was copied: its copy stands at `target`, and in the place of its header
stands the address of the copy. -/
def forwarded (c : Collection) (content : Cell → Word) (tuple target : Nat) : Cell → Word :=
  Function.update (copied content tuple target (c.size tuple)) (.old tuple)
    (c.address (.new target))

/-- A tuple that still has its header is copied. -/
theorem Holds.exists_copy (hc : c.Sound) (h : c.Holds memory content) {tuple target : Nat}
    (htuple : tuple ∈ c.tuples) (htag : content (.old tuple) = c.tag tuple)
    (htarget : target + c.size tuple ≤ c.room) :
    ∃ memory', Copying.copy ⟨memory, c.address (.new target)⟩ (c.address (.old tuple)) =
        .ok (c.address (.new target), ⟨memory', c.address (.new (target + c.size tuple))⟩) ∧
      c.Holds memory' (c.forwarded content tuple target) := by
  have hold := hc.has_old htuple
  obtain ⟨memory₁, hcopy, h₁⟩ := h.exists_copyWords hc (hc.add_size_le htuple) htarget
  obtain ⟨memory₂, hstore, h₂⟩ := h₁.exists_store hc hold (c.address (.new target))
  refine ⟨memory₂, ?_, h₂⟩
  have hfree : c.address (.new target) + 8 * (Header.length (c.tag tuple) + 1) =
      c.address (.new (target + c.size tuple)) := by
    rw [Header.add_length]
    exact (Word.nth_add ..).symm
  rw [Copying.copy, h.load_eq _ hold, htag, ← hfree]
  refine Except.bind_eq_ok.mpr ⟨_, rfl, ?_⟩
  rw [hc.isTag tuple htuple]
  exact Except.bind_eq_ok.mpr ⟨_, hcopy, Except.bind_eq_ok.mpr ⟨_, hstore, rfl⟩⟩

/-- A tuple that was copied before is not copied again. -/
theorem Holds.copy_of_forwarded (hc : c.Sound) (h : c.Holds memory content) {tuple target : Nat}
    (htuple : tuple ∈ c.tuples) (hforward : content (.old tuple) = c.address (.new target))
    (free : Word) : Copying.copy ⟨memory, free⟩ (c.address (.old tuple)) =
      .ok (c.address (.new target), ⟨memory, free⟩) := by
  have hold := hc.has_old htuple
  have hnotTag : Header.isTag (c.address (.new target)) = false :=
    Header.isTag_of_aligned (Word.mod_eight_nth hc.target_aligned target)
  rw [Copying.copy, h.load_eq _ hold, hforward]
  refine Except.bind_eq_ok.mpr ⟨_, rfl, ?_⟩
  rw [hnotTag]
  rfl

end Collection

end TupleLang
