import TupleLang.Proofs.Addresses
import TupleLang.Proofs.StraightCode

/-!
# Words of the stack

The stack grows downwards: `Word.below top n` is the address of the `n`-th word below `top`.  As
with `Word.nth`, equations between such addresses hold without conditions, since all arithmetic
wraps; two of them are different as long as there are less than `2 ^ 61` words between them.

`Machine.ChangesOnly` says in which registers and in which words of memory a machine may have
changed, and nothing else.
-/

namespace TupleLang

open X86 (Operand Instruction Register)

namespace Word

/-- The address so many words below `top`. -/
def below (top : Word) (n : Nat) : Word :=
  top - 8 * ofCount n

/-- No words below the top. -/
theorem below_zero (top : Word) : top.below 0 = top := by
  simp [below, ofCount]

/-- Words below words. -/
theorem below_add (top : Word) (i j : Nat) : top.below (i + j) = (top.below i).below j := by
  rw [below, below, below, ofCount_add]
  grind

/-- The first word below. -/
theorem below_one (top : Word) : top.below 1 = top - 8 :=
  rfl

/-- Words lie eight bytes apart. -/
theorem below_succ (top : Word) (n : Nat) : top.below (n + 1) = top.below n - 8 :=
  below_add top n 1

/-- Some words up from an address below `top` there is another one. -/
theorem nth_below (top : Word) (i j : Nat) : (top.below (i + j)).nth j = top.below i := by
  rw [below_add, nth, below]
  grind

/-- Upwards again. -/
theorem nth_below_add (top : Word) (i j : Nat) : (top.below j).nth (j + i) = top.nth i := by
  have htop := nth_below top 0 j
  rw [Nat.zero_add, below_zero] at htop
  rw [nth_add, htop]

variable {top : Word} {words : Nat}

/-- A word above an address is none below it. -/
theorem nth_ne_below {i j : Nat} (hj : 0 < j) (hlt : j + i < 2 ^ 61) : top.nth i ≠ top.below j := by
  intro heq
  rw [← nth_below_add top i j] at heq
  have hzero := nth_inj hlt (by decide) (heq.trans (nth_zero _).symm)
  omega

/-- Words below have other addresses. -/
theorem ne_below {j : Nat} (hj : 0 < j) (hlt : j < 2 ^ 61) : top ≠ top.below j := by
  intro heq
  exact nth_ne_below hj hlt ((nth_zero top).trans heq)

/-- A number of bytes is positive exactly when the number of words is, if there are not too many. -/
theorem eight_mul_pos (h : words < 2 ^ 60) : 0 < 8 * ofCount words ↔ 0 < words := by
  rw [Int64.lt_iff_toInt_lt, toInt_eight_mul h]
  change (0 : Int) < _ ↔ _
  omega

/-- Nothing is taken off an address for no words. -/
theorem ite_sub_eight_mul (h : words < 2 ^ 60) (top : Word) :
    (if 0 < 8 * ofCount words then top - 8 * ofCount words else top) = top.below words := by
  split
  · rfl
  · next hnone =>
    rw [eight_mul_pos h, Nat.not_lt, Nat.le_zero] at hnone
    rw [hnone, below_zero]

/-- Nothing is added to an address for no words. -/
theorem ite_add_eight_mul (h : words < 2 ^ 60) (base : Word) :
    (if 0 < 8 * ofCount words then base + 8 * ofCount words else base) = base.nth words := by
  split
  · rfl
  · next hnone =>
    rw [eight_mul_pos h, Nat.not_lt, Nat.le_zero] at hnone
    rw [hnone, nth_zero]

/-- A few words have a number of bytes that can be encoded. -/
theorem isNarrow_eight_mul (h : words < 2 ^ 28) : (8 * ofCount words).isNarrow = true := by
  have hbytes : (8 * ofCount words).toInt = 8 * words := toInt_eight_mul (by omega)
  have hlow : Int64.toInt (-2147483648) = -2147483648 := rfl
  have hhigh : Int64.toInt 2147483647 = 2147483647 := rfl
  rw [isNarrow, Bool.and_eq_true, decide_eq_true_eq, decide_eq_true_eq, Int64.le_iff_toInt_le,
    Int64.le_iff_toInt_le, hbytes, hlow, hhigh]
  omega

/-- Alignment is divisibility by sixteen. -/
theorem mod_sixteen_eq_zero {address : Word} : address % 16 = 0 ↔ (16 : Int) ∣ address.toInt := by
  rw [← Int64.toInt_inj, Int64.toInt_mod]
  change address.toInt.tmod 16 = 0 ↔ _
  exact Int.dvd_iff_tmod_eq_zero.symm

/-- An even number of words keeps the stack pointer a multiple of sixteen. -/
theorem mod_sixteen_below (h : top % 16 = 0) {n : Nat} (hn : n % 2 = 0) : top.below n % 16 = 0 := by
  have height : Int64.toInt 8 = 8 := rfl
  have hcount : ((ofCount n).toInt) % 2 = 0 := by
    have hcount : (ofCount n).toInt = (n : Int).bmod (2 ^ 64) := Int64.toInt_ofNat
    rw [hcount]
    simp only [Int.bmod]
    omega
  rw [mod_sixteen_eq_zero] at h ⊢
  rw [below, Int64.toInt_sub, Int64.toInt_mul, height]
  simp only [Int.bmod]
  omega

/-- With an odd number of words below an entry, the stack pointer is a multiple of sixteen if it
was eight less than one. -/
theorem mod_sixteen_below_of_odd (h : (top + 8) % 16 = 0) {count : Nat} (hcount : count % 2 = 1) :
    top.below count % 16 = 0 := by
  have htop : top.below count = (top + 8).below (count + 1) := by
    have hone : (top + 8).below 1 = top := by
      rw [below_one]
      grind
    rw [Nat.add_comm count 1, below_add, hone]
  rw [htop]
  exact mod_sixteen_below h (by omega)

end Word

/-- Whether the word at an address can be stored to. -/
def Memory.isMapped (memory : Memory) (address : Word) : Bool :=
  (memory.region address).toOption.isSome

/-- Where there is memory depends on the regions only. -/
theorem Memory.isMapped_congr {memory memory' : Memory} (h : memory'.regions = memory.regions)
    (address : Word) : memory'.isMapped address = memory.isMapped address := by
  rw [isMapped, isMapped, Memory.region, Memory.region, h]

/-- Memory lies in a region. -/
theorem Memory.exists_region {memory : Memory} {address : Word}
    (h : memory.isMapped address = true) : ∃ region, memory.region address = .ok region :=
  Except.exists_ok_of_isSome h

/-- A store does not change what is found elsewhere. -/
theorem Memory.load_of_store_of_ne {memory stored : Memory} {address word other : Word}
    (h : memory.store address word = .ok stored) (hne : address ≠ other) :
    stored.load other = memory.load other := by
  obtain ⟨_, -, rfl⟩ := exists_region_of_store h
  refine load_congr rfl ?_
  rw [Std.ExtTreeMap.getElem?_insert, if_neg]
  rwa [Std.LawfulEqCmp.compare_eq_iff_eq]

namespace Machine

variable {image : Image} {machine machine' machine'' : Machine}

/-! ## What changes -/

/-- The machine has changed in these registers and these words of memory at most. -/
structure ChangesOnly (registers : List Register) (addresses : Word → Prop)
    (machine machine' : Machine) : Prop where
  register_eq : ∀ full ∉ registers, machine'.register full = machine.register full
  load_eq : ∀ address, ¬addresses address →
    machine'.memory.load address = machine.memory.load address
  regions_eq : machine'.memory.regions = machine.memory.regions
  globals_eq : machine'.globals = machine.globals
  bindings_eq : machine'.bindings = machine.bindings

namespace ChangesOnly

variable {registers registers' : List Register} {addresses addresses' : Word → Prop}

/-- Nothing changes. -/
theorem refl (registers : List Register) (addresses : Word → Prop) (machine : Machine) :
    ChangesOnly registers addresses machine machine :=
  ⟨fun _ _ => rfl, fun _ _ => rfl, rfl, rfl, rfl⟩

/-- One change after another. -/
theorem trans (h : ChangesOnly registers addresses machine machine')
    (h' : ChangesOnly registers addresses machine' machine'') :
    ChangesOnly registers addresses machine machine'' where
  register_eq full hfull := (h'.register_eq full hfull).trans (h.register_eq full hfull)
  load_eq address haddress := (h'.load_eq address haddress).trans (h.load_eq address haddress)
  regions_eq := h'.regions_eq.trans h.regions_eq
  globals_eq := h'.globals_eq.trans h.globals_eq
  bindings_eq := h'.bindings_eq.trans h.bindings_eq

/-- More may change. -/
theorem mono (h : ChangesOnly registers addresses machine machine')
    (hregisters : ∀ full ∈ registers, full ∈ registers')
    (haddresses : ∀ address, addresses address → addresses' address) :
    ChangesOnly registers' addresses' machine machine' where
  register_eq full hfull := h.register_eq full fun hmem => hfull (hregisters full hmem)
  load_eq address haddress := h.load_eq address fun hmem => haddress (haddresses address hmem)
  regions_eq := h.regions_eq
  globals_eq := h.globals_eq
  bindings_eq := h.bindings_eq

/-- Memory is where it was. -/
theorem isMapped_eq (h : ChangesOnly registers addresses machine machine') (address : Word) :
    machine'.memory.isMapped address = machine.memory.isMapped address :=
  Memory.isMapped_congr h.regions_eq address

end ChangesOnly

/-- Setting one register. -/
theorem changesOnly_setRegister (machine : Machine) {full : Register} {registers : List Register}
    (hfull : full ∈ registers) (addresses : Word → Prop) (word : Word) :
    ChangesOnly registers addresses machine (machine.setRegister full word) where
  register_eq _ hother :=
    register_setRegister_of_ne machine word fun heq => hother (heq ▸ hfull)
  load_eq _ _ := rfl
  regions_eq := rfl
  globals_eq := rfl
  bindings_eq := rfl

/-- A word is stored where something is mapped. -/
theorem exists_store {address : Word} (h : machine.memory.isMapped address = true) (word : Word) :
    ∃ m, machine.store address word = .ok m ∧ ChangesOnly [] (· = address) machine m ∧
      m.memory.load address = .ok word := by
  obtain ⟨region, hregion⟩ := Memory.exists_region h
  have hstore := Memory.store_eq_ok hregion word
  refine ⟨_, Except.bind_eq_ok.mpr ⟨_, hstore, rfl⟩, ⟨fun _ _ => rfl, ?_, rfl, rfl, rfl⟩,
    Memory.load_of_store hstore⟩
  exact fun _ hother => Memory.load_of_store_of_ne hstore fun heq => hother heq.symm

/-- A word is pushed where something is mapped. -/
theorem exists_push (h : machine.memory.isMapped ((machine.register .rsp).below 1) = true)
    (word : Word) :
    ∃ m, machine.push word = .ok m ∧
      ChangesOnly [.rsp] (· = (machine.register .rsp).below 1) machine m ∧
      m.register .rsp = (machine.register .rsp).below 1 ∧
      m.memory.load (m.register .rsp) = .ok word := by
  obtain ⟨m, hstore, hchanges, hload⟩ := exists_store h word
  refine ⟨m.setRegister .rsp ((machine.register .rsp).below 1),
    Except.bind_eq_ok.mpr ⟨m, hstore, rfl⟩, ?_, register_setRegister_self .., ?_⟩
  · exact (hchanges.mono (List.forall_mem_nil _) fun _ => id).trans
      (changesOnly_setRegister m List.mem_cons_self _ _)
  · rw [register_setRegister_self]
    exact hload

end Machine

end TupleLang
