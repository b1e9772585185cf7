import TupleLang.Machine.Step
import TupleLang.Proofs.Images
import TupleLang.Proofs.Stateful

/-!
# Straight code

Straight instructions are those after which the machine goes on with the instruction that follows:
no calls, no jumps and no returns (`Instruction.isStraight`).  What a list of them does is one
function on machines (`Machine.executeAll`), and it does not depend on where in an image they stand.

`Machine.Steps.of_executeAll` is the way back: straight code that stands in an image at the next
instruction is run in as many steps as it has instructions.
-/

namespace TupleLang

open X86 (BinaryOperator Operand Instruction)

/-- Instructions after which the machine goes on with the instruction that follows. -/
def X86.Instruction.isStraight : Instruction → Bool
  | .callq _ _ | .callIndirect _ _ | .tailJump _ _ | .jump _ | .jumpIf _ _ | .jumpIndirect _
  | .retq => false
  | .binary _ _ _ | .negq _ | .set _ _ | .pushq _ | .popq _ | .comment _ => true

namespace Machine

/-- The machine, whether it goes on or not. -/
def Progress.machine : Progress → Machine
  | running machine | halted machine => machine

/-- The machine after one instruction. -/
def advance (image : Image) (machine : Machine) (instruction : Instruction) :
    Except MachineError Machine := do
  return (← machine.execute image instruction).machine

/-- The machine after straight code. -/
def executeAll (image : Image) (machine : Machine) (code : List Instruction) :
    Except MachineError Machine :=
  code.foldlM (advance image) machine

variable {image : Image} {machine machine' machine'' : Machine} {code : List Instruction}
  {instruction : Instruction}

/-! ## One instruction -/

section Advance

/-- The machine of a step that goes on. -/
theorem bind_running (x : Except MachineError Machine) :
    ((x >>= fun m => pure (Progress.running m)) >>= fun progress => pure progress.machine) = x := by
  cases x <;> rfl

/-- What an instruction with two operands does. -/
theorem advance_binary (operator : BinaryOperator) (source destination : Operand) :
    machine.advance image (.binary operator source destination) =
      machine.executeBinary image operator source destination :=
  bind_running _

/-- What a negation does. -/
theorem advance_negq (operand : Operand) : machine.advance image (.negq operand) =
    (do machine.write operand (-(← machine.read operand))) := by
  rw [advance, execute]
  cases machine.read operand with
  | error error => rfl
  | ok value => exact bind_running _

/-- What setting a truth value does. -/
theorem advance_set (condition : X86.Condition) (destination : Operand) :
    machine.advance image (.set condition destination) =
      machine.write destination
        (Word.ofBool (condition.holds machine.flags.1 machine.flags.2)) :=
  bind_running _

/-- What a push does. -/
theorem advance_pushq (operand : Operand) : machine.advance image (.pushq operand) =
    (do machine.push (← machine.read operand)) := by
  rw [advance, execute]
  cases machine.read operand with
  | error error => rfl
  | ok value => exact bind_running _

/-- What a pop does. -/
theorem advance_popq (operand : Operand) : machine.advance image (.popq operand) =
    (do
      let (word, machine) ← machine.pop
      machine.write operand word) := by
  rw [advance, execute]
  cases machine.pop with
  | error error => rfl
  | ok popped => exact bind_running _

/-- A straight instruction does not halt. -/
theorem execute_of_advance {instruction : Instruction} (hstraight : instruction.isStraight = true)
    (h : machine.advance image instruction = .ok machine') :
    machine.execute image instruction = .ok (.running machine') := by
  cases instruction with
  | binary operator source destination =>
    rw [advance_binary] at h
    exact Except.bind_eq_ok.mpr ⟨machine', h, rfl⟩
  | negq operand =>
    rw [advance_negq] at h
    obtain ⟨value, hread, hwrite⟩ := Except.bind_eq_ok.mp h
    exact Except.bind_eq_ok.mpr ⟨value, hread, Except.bind_eq_ok.mpr ⟨machine', hwrite, rfl⟩⟩
  | set condition destination =>
    rw [advance_set] at h
    exact Except.bind_eq_ok.mpr ⟨machine', h, rfl⟩
  | pushq operand =>
    rw [advance_pushq] at h
    obtain ⟨value, hread, hpush⟩ := Except.bind_eq_ok.mp h
    exact Except.bind_eq_ok.mpr ⟨value, hread, Except.bind_eq_ok.mpr ⟨machine', hpush, rfl⟩⟩
  | popq operand =>
    rw [advance_popq] at h
    obtain ⟨popped, hpop, hwrite⟩ := Except.bind_eq_ok.mp h
    exact Except.bind_eq_ok.mpr ⟨popped, hpop, Except.bind_eq_ok.mpr ⟨machine', hwrite, rfl⟩⟩
  | comment text =>
    cases h
    rfl
  | _ => cases hstraight

end Advance

/-! ## Lists of instructions -/

/-- The first instruction, then the others. -/
theorem executeAll_cons (instruction : Instruction) (code : List Instruction) :
    machine.executeAll image (instruction :: code) =
      (machine.advance image instruction >>= fun m => m.executeAll image code) :=
  List.foldlM_cons

/-- Two pieces of code, one after the other. -/
theorem executeAll_append (code code' : List Instruction) :
    machine.executeAll image (code ++ code') =
      (machine.executeAll image code >>= fun m => m.executeAll image code') :=
  List.foldlM_append

/-- A single instruction. -/
theorem executeAll_singleton (instruction : Instruction) :
    machine.executeAll image [instruction] = machine.advance image instruction := by
  rw [executeAll_cons]
  cases machine.advance image instruction <;> rfl

/-- What comes after code that has been run. -/
theorem executeAll_append_of_ok (code' : List Instruction)
    (h : machine.executeAll image code = .ok machine') :
    machine.executeAll image (code ++ code') = machine'.executeAll image code' := by
  rw [executeAll_append, h]
  rfl

/-- The first instruction, if it succeeds. -/
theorem executeAll_cons_of_ok (code : List Instruction)
    (h : machine.advance image instruction = .ok machine') :
    machine.executeAll image (instruction :: code) = machine'.executeAll image code := by
  rw [executeAll_cons, h]
  rfl

/-! ## Where the code stands -/

/-- Operands do not depend on where the machine goes on. -/
theorem read_continueAt (machine : Machine) (number : Nat) (operand : Operand) :
    (machine.continueAt number).read operand = machine.read operand := by
  cases operand <;> rfl

section ContinueAt

variable (number : Nat) {word : Word}

/-- Nor do stores. -/
theorem store_continueAt {address : Word} (h : machine.store address word = .ok machine') :
    (machine.continueAt number).store address word = .ok (machine'.continueAt number) := by
  obtain ⟨memory, hmemory, hm⟩ := Except.bind_eq_ok.mp h
  cases hm
  exact Except.bind_eq_ok.mpr ⟨memory, hmemory, rfl⟩

/-- Writing a variable binds it, if there are bindings at all. -/
theorem write_var_eq_ok {name : Name} (h : machine.write (.var name) word = .ok machine') :
    ∃ values, machine.bindings = some values ∧ machine' = { machine with
      bindings := some fun other => if other = name then word else values other } := by
  cases hbindings : machine.bindings with
  | none =>
    rw [write, hbindings] at h
    cases h
  | some values =>
    rw [write, hbindings] at h
    cases h
    exact ⟨values, rfl, rfl⟩

/-- Nor do writes. -/
theorem write_continueAt {operand : Operand} (h : machine.write operand word = .ok machine') :
    (machine.continueAt number).write operand word = .ok (machine'.continueAt number) := by
  cases operand with
  | immediate value => cases h
  | register full | byteRegister low =>
    cases h
    rfl
  | var name =>
    obtain ⟨values, hbindings, rfl⟩ := write_var_eq_ok h
    rw [write, continueAt, hbindings]
    rfl
  | deref base offset => exact store_continueAt number h
  | global name =>
    obtain ⟨value, hvalue, hm⟩ := Except.bind_eq_ok.mp h
    cases hm
    exact Except.bind_eq_ok.mpr ⟨value, hvalue, rfl⟩

/-- Nor do pushes. -/
theorem push_continueAt (h : machine.push word = .ok machine') :
    (machine.continueAt number).push word = .ok (machine'.continueAt number) := by
  obtain ⟨m, hstore, hm⟩ := Except.bind_eq_ok.mp h
  cases hm
  exact Except.bind_eq_ok.mpr ⟨m.continueAt number, store_continueAt number hstore, rfl⟩

/-- Nor do pops. -/
theorem pop_continueAt (h : machine.pop = .ok (word, machine')) :
    (machine.continueAt number).pop = .ok (word, machine'.continueAt number) := by
  obtain ⟨loaded, hload, hm⟩ := Except.bind_eq_ok.mp h
  obtain ⟨rfl, rfl⟩ := Prod.mk.inj (Except.ok.inj hm)
  exact Except.bind_eq_ok.mpr ⟨loaded, hload, rfl⟩

/-- Nor do instructions with two operands. -/
theorem executeBinary_continueAt {operator : BinaryOperator} {source destination : Operand}
    (h : machine.executeBinary image operator source destination = .ok machine') :
    (machine.continueAt number).executeBinary image operator source destination =
      .ok (machine'.continueAt number) := by
  cases operator with
  | leaq =>
    obtain ⟨address, haddress, hwrite⟩ := Except.bind_eq_ok.mp h
    refine Except.bind_eq_ok.mpr ⟨address, ?_, write_continueAt number hwrite⟩
    cases source <;> exact haddress
  | cmpq =>
    obtain ⟨value, hvalue, h⟩ := Except.bind_eq_ok.mp h
    obtain ⟨old, hold, hm⟩ := Except.bind_eq_ok.mp h
    cases hm
    refine Except.bind_eq_ok.mpr ⟨value, (read_continueAt ..).trans hvalue, ?_⟩
    exact Except.bind_eq_ok.mpr ⟨old, (read_continueAt ..).trans hold, rfl⟩
  | movq | movzbq =>
    obtain ⟨value, hvalue, hwrite⟩ := Except.bind_eq_ok.mp h
    exact Except.bind_eq_ok.mpr
      ⟨value, (read_continueAt ..).trans hvalue, write_continueAt number hwrite⟩
  | addq | subq | imulq | andq | orq | xorq =>
    obtain ⟨value, hvalue, h⟩ := Except.bind_eq_ok.mp h
    obtain ⟨old, hold, hwrite⟩ := Except.bind_eq_ok.mp h
    refine Except.bind_eq_ok.mpr ⟨value, (read_continueAt ..).trans hvalue, ?_⟩
    exact Except.bind_eq_ok.mpr
      ⟨old, (read_continueAt ..).trans hold, write_continueAt number hwrite⟩

/-- A straight instruction does the same wherever it stands. -/
theorem advance_continueAt {instruction : Instruction} (hstraight : instruction.isStraight = true)
    (h : machine.advance image instruction = .ok machine') :
    (machine.continueAt number).advance image instruction = .ok (machine'.continueAt number) := by
  cases instruction with
  | binary operator source destination =>
    rw [advance_binary] at h ⊢
    exact executeBinary_continueAt number h
  | negq operand =>
    rw [advance_negq] at h ⊢
    obtain ⟨value, hread, hwrite⟩ := Except.bind_eq_ok.mp h
    exact Except.bind_eq_ok.mpr
      ⟨value, (read_continueAt ..).trans hread, write_continueAt number hwrite⟩
  | set condition destination =>
    rw [advance_set] at h ⊢
    exact write_continueAt number h
  | pushq operand =>
    rw [advance_pushq] at h ⊢
    obtain ⟨value, hread, hpush⟩ := Except.bind_eq_ok.mp h
    exact Except.bind_eq_ok.mpr
      ⟨value, (read_continueAt ..).trans hread, push_continueAt number hpush⟩
  | popq operand =>
    rw [advance_popq] at h ⊢
    obtain ⟨⟨word, m⟩, hpop, hwrite⟩ := Except.bind_eq_ok.mp h
    exact Except.bind_eq_ok.mpr ⟨_, pop_continueAt number hpop, write_continueAt number hwrite⟩
  | comment text =>
    cases h
    rfl
  | _ => cases hstraight

/-- Straight code does the same wherever it stands. -/
theorem executeAll_continueAt {code : List Instruction}
    (hstraight : ∀ instruction ∈ code, instruction.isStraight = true)
    (h : machine.executeAll image code = .ok machine') :
    (machine.continueAt number).executeAll image code = .ok (machine'.continueAt number) := by
  induction code generalizing machine with
  | nil =>
    cases h
    rfl
  | cons instruction code ih =>
    obtain ⟨hfirst, hrest⟩ := List.forall_mem_cons.mp hstraight
    rw [executeAll_cons] at h
    obtain ⟨m, hm, h⟩ := Except.bind_eq_ok.mp h
    rw [executeAll_cons_of_ok code (advance_continueAt number hfirst hm)]
    exact ih hrest h

end ContinueAt

/-- Straight instructions leave the number of the next instruction alone. -/
theorem next_execute (hstraight : instruction.isStraight = true)
    (h : machine.execute image instruction = .ok (.running machine')) :
    machine'.next = machine.next := by
  have hadvance : machine.advance image instruction = .ok machine' :=
    Except.bind_eq_ok.mpr ⟨_, h, rfl⟩
  have hsame : machine' = machine'.continueAt machine.next :=
    Except.ok.inj (hadvance.symm.trans (advance_continueAt machine.next hstraight hadvance))
  rw [hsame]
  rfl

/-! ## Steps -/

/-- The machine comes to another one by so many steps and has not halted then. -/
inductive Steps (image : Image) : Machine → Nat → Machine → Prop
  | refl (machine : Machine) : Steps image machine 0 machine
  | step {machine machine' machine'' : Machine} {count : Nat}
      (h : machine.step image = .ok (.running machine'))
      (hrest : Steps image machine' count machine'') : Steps image machine (count + 1) machine''

/-- One step. -/
theorem Steps.single (h : machine.step image = .ok (.running machine')) :
    machine.Steps image 1 machine' :=
  .step h (.refl machine')

/-- Steps add up. -/
theorem Steps.trans {count count' : Nat} (h : machine.Steps image count machine')
    (h' : machine'.Steps image count' machine'') :
    machine.Steps image (count + count') machine'' := by
  induction h with
  | refl machine =>
    rw [Nat.zero_add]
    exact h'
  | step hstep _ ih =>
    rw [Nat.add_right_comm]
    exact .step hstep (ih h')

/-- Straight code that stands at the next instruction is run step by step. -/
theorem Steps.of_executeAll (hcode : image.HasCode machine.next code)
    (hstraight : ∀ instruction ∈ code, instruction.isStraight = true)
    (h : machine.executeAll image code = .ok machine') :
    machine.Steps image code.length (machine'.continueAt (machine.next + code.length)) := by
  induction code generalizing machine machine' with
  | nil =>
    cases h
    exact .refl _
  | cons instruction code ih =>
    obtain ⟨hfirst, hrest⟩ := List.forall_mem_cons.mp hstraight
    rw [executeAll_cons] at h
    obtain ⟨m, hm, h⟩ := Except.bind_eq_ok.mp h
    have hstep : machine.step image = .ok (.running (m.continueAt (machine.next + 1))) := by
      rw [Machine.step, hcode.head]
      exact execute_of_advance hfirst (advance_continueAt _ hfirst hm)
    have hsteps := ih hcode.tail hrest (executeAll_continueAt (machine.next + 1) hrest h)
    have hnext : machine.next + 1 + code.length = machine.next + (code.length + 1) := by omega
    rw [List.length_cons, ← hnext]
    exact .step hstep hsteps

end Machine

end TupleLang
