import TupleLang.Proofs.CompiledBlocks
import TupleLang.Proofs.FinishedInstructions
import TupleLang.Proofs.FrameBuilding
import TupleLang.Proofs.StackDepth

/-!
# The stack discipline of compiled code

The code of an accepted program keeps the stack in order
(`Program.lowered_code_keeps_stack_discipline`): on every path through a function the stack pointer
is a multiple of sixteen at calls, is back at its value at the entry where the function is left, and
never exceeds that value.

The count of words is made statement by statement.  Code takes the stack from one number of words to
another (`X86.Shifts`) or passes control on (`X86.Closes`); a statement that passes control on finds
the stack as the prelude left it, `Frame.depth` words below the entry, and so does every other one.
-/

namespace TupleLang

open Stateful
open X86 (Balanced BinaryOperator Frame Instruction Operand PutsInHomes Register)

namespace X86

/-! ## Putting code together -/

variable {inside : Name → Prop} {depth count count' count'' : Nat} {code code' : List Instruction}

/-- The code takes the stack from one number of words to another and then goes on. -/
def Shifts (inside : Name → Prop) (depth count count' : Nat) (code : List Instruction) : Prop :=
  ∀ rest, Balanced inside depth count' rest → Balanced inside depth count (code ++ rest)

/-- The code finds the stack with so many words and passes control on in the end. -/
def Closes (inside : Name → Prop) (depth count : Nat) (code : List Instruction) : Prop :=
  ∀ rest, Balanced inside depth count (code ++ rest)

namespace Shifts

/-- No code shifts nothing. -/
theorem nil (count : Nat) : Shifts inside depth count count [] :=
  fun _ h => h

/-- Shifts add up. -/
theorem append (h : Shifts inside depth count count' code)
    (h' : Shifts inside depth count' count'' code') :
    Shifts inside depth count count'' (code ++ code') := by
  intro rest hrest
  rw [List.append_assoc]
  exact h _ (h' _ hrest)

/-- Code that goes on, before code that does not. -/
theorem closes (h : Shifts inside depth count count' code)
    (h' : Closes inside depth count' code') : Closes inside depth count (code ++ code') := by
  intro rest
  rw [List.append_assoc]
  exact h _ (h' rest)

/-- Code that keeps the stack pointer shifts nothing. -/
theorem of_keepsTop (count : Nat) (h : ∀ instruction ∈ code, instruction.keepsTop = true) :
    Shifts inside depth count count code := by
  intro rest hrest
  induction code with
  | nil => exact hrest
  | cons instruction code ih =>
    obtain ⟨hfirst, hcode⟩ := List.forall_mem_cons.mp h
    exact .keep hfirst (ih hcode)

/-- A push shifts the stack by a word. -/
theorem push {operand : Operand} (hroom : count + 1 < 2 ^ 60) :
    Shifts inside depth count (count + 1) [.pushq operand] :=
  fun _ h => .push hroom h

/-- Pushing registers takes a word for each of them. -/
theorem pushRegisters {registers : List Register} (hroom : count + registers.length < 2 ^ 60) :
    Shifts inside depth count (count + registers.length)
      (registers.map fun register => .pushq (.register register)) := by
  induction registers generalizing count with
  | nil => exact nil count
  | cons register registers ih =>
    rw [List.length_cons] at hroom ⊢
    rw [← Nat.succ_add_eq_add_succ]
    exact (push (by omega)).append (ih (by omega))

/-- Popping registers gives these words back. -/
theorem popRegisters {registers : List Register} (h : ∀ register ∈ registers, register ≠ .rsp) :
    Shifts inside depth (count + registers.length) count
      (registers.map fun register => .popq (.register register)) := by
  induction registers with
  | nil => exact nil count
  | cons register registers ih =>
    obtain ⟨hfirst, hregisters⟩ := List.forall_mem_cons.mp h
    have hoperand : (Operand.register register).isStackPointer = false := by
      cases register <;> first | rfl | exact absurd rfl hfirst
    intro rest hrest
    exact .pop hoperand (ih hregisters rest hrest)

end Shifts

/-! ## Building and leaving frames -/

namespace FrameCode

variable {frame : Frame}

/-- Clearing roots keeps the stack pointer. -/
theorem keepsTop_clearRoots (first count : Nat) :
    ∀ instruction ∈ clearRoots first count, instruction.keepsTop = true := by
  induction count generalizing first with
  | zero => exact List.forall_mem_nil _
  | succ count ih => exact List.forall_mem_cons.mpr ⟨rfl, ih (first + 1)⟩

variable (hroom : frame.depth < 2 ^ 60)
include hroom

/-- The prelude takes the words of the frame. -/
theorem shifts_reserve :
    Shifts inside depth (1 + frame.calleeSaved.length) frame.depth
      (if 0 < frame.stackAdjustment then
        [.subq (.immediate frame.stackAdjustment) rsp] else []) := by
  rw [Frame.depth] at hroom ⊢
  split
  · exact fun _ h => .reserve _ hroom h
  · next hnone =>
    rw [Frame.stackAdjustment, Word.eight_mul_pos (by omega), Nat.not_lt, Nat.le_zero] at hnone
    rw [hnone]
    exact .nil _

/-- The prelude leads from the entry to the depth of the frame. -/
theorem closes_prelude (config : Config) {name : Name} (hstart : inside name.startLabel) :
    Closes inside frame.depth 0 (prelude config name frame) := by
  have hbase : Shifts inside frame.depth 0 1 [.pushq rbp, .movq rsp rbp] :=
    fun _ h => .push (by decide) (.keep rfl h)
  have hpushes : Shifts inside frame.depth 1 (1 + frame.calleeSaved.length)
      (frame.calleeSaved.map fun register => .pushq (.register register)) :=
    .pushRegisters (by rw [Frame.depth] at hroom; omega)
  have hheap : Shifts inside frame.depth frame.depth frame.depth
      (if name = Name.entryPoint then mapHeap config else []) := by
    split
    · exact fun _ h => .keep rfl (.keep rfl (.call rfl frame.depth_odd (.keep rfl h)))
    · exact .nil _
  have hroots : Shifts inside frame.depth frame.depth frame.depth
      (if 0 < frame.rootSlots then [.addq (.immediate frame.rootStackBytes) r15] else []) := by
    split
    · exact .of_keepsTop _ (List.forall_mem_singleton.mpr rfl)
    · exact .nil _
  have hclear : Shifts inside frame.depth frame.depth frame.depth (clearRoots 0 frame.rootSlots) :=
    .of_keepsTop _ (keepsTop_clearRoots 0 frame.rootSlots)
  have hjump : Closes inside frame.depth frame.depth [.jump name.startLabel] :=
    fun _ => .jump hstart _
  exact (((((hbase.append hpushes).append (shifts_reserve hroom)).append hheap).append
    hclear).append hroots).closes hjump

/-- The conclusion gives the words of the frame back. -/
theorem shifts_release :
    Shifts inside depth frame.depth (1 + frame.calleeSaved.length)
      (if 0 < frame.stackAdjustment then
        [.addq (.immediate frame.stackAdjustment) rsp] else []) := by
  rw [Frame.depth] at hroom ⊢
  split
  · exact fun _ h => .release _ h
  · next hnone =>
    rw [Frame.stackAdjustment, Word.eight_mul_pos (by omega), Nat.not_lt, Nat.le_zero] at hnone
    rw [hnone]
    exact .nil _

variable (hsaved : ∀ register ∈ frame.calleeSaved, register ≠ .rsp)
include hsaved

/-- Undoing the frame gives up all words. -/
theorem shifts_teardown : Shifts inside depth frame.depth 0 (teardown frame) := by
  have hroots : Shifts inside depth frame.depth frame.depth
      (if 0 < frame.rootSlots then [.subq (.immediate frame.rootStackBytes) r15] else []) := by
    split
    · exact .of_keepsTop _ (List.forall_mem_singleton.mpr rfl)
    · exact .nil _
  have hpops : Shifts inside depth (1 + frame.calleeSaved.length) 1
      (frame.calleeSaved.reverse.map fun register => .popq (.register register)) := by
    rw [← List.length_reverse]
    exact .popRegisters fun register hregister => hsaved register (List.mem_reverse.mp hregister)
  have hbase : Shifts inside depth 1 0 [.popq rbp] := fun _ h => .pop rfl h
  exact ((hroots.append (shifts_release hroom)).append hpops).append hbase

/-- The conclusion leads from the depth of the frame back to the entry. -/
theorem closes_conclusion : Closes inside depth frame.depth (conclusion frame) :=
  (shifts_teardown hroom hsaved).closes fun _ => .retq _

/-- A tail jump leaves the function with no words on the stack. -/
theorem closes_tailJump (target : Operand) :
    Closes inside depth frame.depth (tailJump frame target) := by
  have hload (load : Instruction) (hload : load.keepsTop = true) :
      Closes inside depth frame.depth ([load] ++ teardown frame ++ [.jumpIndirect rax]) := by
    have hfirst : Shifts inside depth frame.depth frame.depth [load] :=
      .of_keepsTop _ (List.forall_mem_singleton.mpr hload)
    exact (hfirst.append (shifts_teardown hroom hsaved)).closes fun _ => .jumpIndirect _ _
  cases target <;> exact hload _ rfl

end FrameCode

/-! ## Finished code -/

/-- Selected code in its final form: variables have homes, instructions can be encoded, and tail
jumps leave the frame. -/
def finish (place : Operand → Operand) (frame : Frame) (code : List Instruction) :
    List Instruction :=
  ((code.map (·.mapOperands place)).flatMap Instruction.patch).flatMap
    (FrameCode.expandTailJump frame)

variable {place : Operand → Operand} {frame : Frame} {instruction : Instruction}

/-- Code is finished piece by piece. -/
theorem finish_append (code code' : List Instruction) :
    finish place frame (code ++ code') = finish place frame code ++ finish place frame code' := by
  rw [finish, List.map_append, List.flatMap_append, List.flatMap_append]
  rfl

/-- Code is finished instruction by instruction. -/
theorem finish_cons (instruction : Instruction) (code : List Instruction) :
    finish place frame (instruction :: code) =
      finish place frame [instruction] ++ finish place frame code :=
  finish_append [instruction] code

/-- The stack pointer is no home, and stays where it is. -/
theorem PutsInHomes.isStackPointer_eq (hplace : PutsInHomes place) (operand : Operand) :
    (place operand).isStackPointer = operand.isStackPointer := by
  refine hplace.apply_eq (fun home name hhome => ?_) operand
  cases home with
  | register home =>
    rw [Operand.isHome] at hhome
    cases home <;> first | rfl | cases hhome
  | deref base offset => rfl
  | _ => cases hhome

/-- Homes do not matter to whether the stack pointer is kept. -/
theorem keepsTop_mapOperands (hplace : PutsInHomes place) (instruction : Instruction) :
    (instruction.mapOperands place).keepsTop = instruction.keepsTop := by
  cases instruction with
  | binary | negq | set => exact congrArg (!·) (hplace.isStackPointer_eq _)
  | _ => rfl

/-- Patching leaves the stack pointer alone where the instruction does. -/
theorem keepsTop_patch (h : instruction.keepsTop = true) :
    ∀ patched ∈ instruction.patch, patched.keepsTop = true := by
  intro patched hpatched
  cases Instruction.mem_patch hpatched with
  | same | fromScratch | store => exact h
  | load hscratch =>
    rcases hscratch with rfl | rfl
    · rfl
    · rfl
  | fetch | toScratch | wide => rfl
  | push => cases h

/-- Only tail jumps are expanded. -/
theorem expandTailJump_of_keepsTop (h : instruction.keepsTop = true) :
    FrameCode.expandTailJump frame instruction = [instruction] := by
  cases instruction <;> first | rfl | cases h

/-- Finished code leaves the stack pointer alone where the selected code does. -/
theorem shifts_finish (hplace : PutsInHomes place) (count : Nat)
    (h : ∀ instruction ∈ code, instruction.keepsTop = true) :
    Shifts inside depth count count (finish place frame code) := by
  refine .of_keepsTop count fun instruction hinstruction => ?_
  obtain ⟨patched, hpatched, hexpanded⟩ := List.mem_flatMap.mp hinstruction
  obtain ⟨placed, hplaced, hpatched⟩ := List.mem_flatMap.mp hpatched
  obtain ⟨selected, hselected, rfl⟩ := List.mem_map.mp hplaced
  have hkeeps : patched.keepsTop = true :=
    keepsTop_patch ((keepsTop_mapOperands hplace selected).trans (h selected hselected)) _ hpatched
  rw [expandTailJump_of_keepsTop hkeeps] at hexpanded
  cases List.mem_singleton.mp hexpanded
  exact hkeeps

/-- A push is finished to a push, perhaps by way of `%rax`. -/
theorem finish_push_cases (place : Operand → Operand) (frame : Frame) (operand : Operand) :
    finish place frame [.pushq operand] =
        [.movq (place operand) Encoding.rax, .pushq Encoding.rax] ∨
      finish place frame [.pushq operand] = [.pushq (place operand)] := by
  by_cases hwide : (place operand).isWideImmediate = true
  · left
    simp [finish, Instruction.mapOperands, Instruction.patch, hwide, Instruction.movq,
      FrameCode.expandTailJump]
  · right
    simp [finish, Instruction.mapOperands, Instruction.patch, hwide, FrameCode.expandTailJump]

/-- In both cases it takes one word. -/
theorem shifts_finish_push {operand : Operand} (hroom : count + 1 < 2 ^ 60) :
    Shifts inside depth count (count + 1) (finish place frame [.pushq operand]) := by
  rcases finish_push_cases place frame operand with hfinish | hfinish
  · rw [hfinish]
    exact fun _ h => .keep rfl (.push hroom h)
  · rw [hfinish]
    exact .push hroom

/-- Several pushes take as many words. -/
theorem shifts_finish_pushes {operands : List Operand} (hroom : count + operands.length < 2 ^ 60) :
    Shifts inside depth count (count + operands.length)
      (finish place frame (operands.map .pushq)) := by
  induction operands generalizing count with
  | nil => exact .nil count
  | cons operand operands ih =>
    rw [List.length_cons] at hroom ⊢
    rw [List.map_cons, finish_cons, ← Nat.succ_add_eq_add_succ]
    exact (shifts_finish_push (by omega)).append (ih (by omega))

/-- Pushes are not finished to fewer instructions. -/
theorem length_le_finish_pushes (place : Operand → Operand) (frame : Frame)
    (operands : List Operand) :
    operands.length ≤ (finish place frame (operands.map .pushq)).length := by
  induction operands with
  | nil => exact Nat.le_refl _
  | cons operand operands ih =>
    rw [List.map_cons, finish_cons, List.length_append, List.length_cons]
    rcases finish_push_cases place frame operand with hfinish | hfinish <;>
      rw [hfinish] <;> simp only [List.length_cons, List.length_nil] <;> omega

/-- A call finds the stack aligned and shifts nothing. -/
theorem shifts_finish_call (hcall : instruction.isCall = true) (hodd : count % 2 = 1) :
    Shifts inside depth count count (finish place frame [instruction]) := by
  cases instruction with
  | callq | callIndirect => exact fun _ h => .call rfl hodd h
  | _ => cases hcall

end X86

open X86 (Shifts Closes finish)

/-! ## Statements -/

namespace Selection

variable {inside : Name → Prop} {place : Operand → Operand} {frame : Frame} {context : Context}

variable {code : List Instruction} {depth : Nat}

/-- Passing arguments in registers keeps the stack pointer. -/
theorem keepsTop_passInRegisters {registers : List Register}
    (h : ∀ register ∈ registers, register ≠ .rsp) (operands : List Operand) :
    ∀ instruction ∈ passInRegisters registers operands, instruction.keepsTop = true := by
  refine List.forall_mem_map.mpr fun entry hentry => ?_
  have hregister := h entry.2 (List.of_mem_zip hentry).2
  have hoperand : (Operand.register entry.2).isStackPointer = false := by
    cases hentry : entry.2 <;> first | rfl | exact absurd hentry hregister
  exact Bool.not_eq_eq_eq_not.mpr hoperand

/-- Remarks keep the stack pointer. -/
theorem keepsTop_remark (st : Flow.Stmt) :
    ∀ instruction ∈ remark context st, instruction.keepsTop = true := by
  unfold remark
  split
  · exact List.forall_mem_singleton.mpr rfl
  · exact List.forall_mem_nil _

/-- Copying parameters keeps the stack pointer. -/
theorem keepsTop_copyParameters (registers : List Register) (parameters : List Name) :
    ∀ instruction ∈ copyParameters registers parameters, instruction.keepsTop = true := by
  intro instruction hinstruction
  obtain ⟨index, hindex, rfl⟩ := List.mem_mapIdx.mp hinstruction
  rfl

variable (hplace : PutsInHomes place)
include hplace

/-- Padding takes a word for an odd number of words. -/
theorem shifts_padding (words : Nat) (hroom : depth + 1 < 2 ^ 60) :
    Shifts inside depth depth (depth + words % 2) (finish place frame (padding words)) := by
  have hreserve : finish place frame [.subq (.immediate 8) rsp] = [.subq (.immediate 8) rsp] := by
    have hpatch : (Instruction.subq (.immediate 8) rsp).patch = [.subq (.immediate 8) rsp] := by
      decide
    have hsame : (Instruction.subq (.immediate 8) rsp).mapOperands place =
        .subq (.immediate 8) rsp := by
      simp [Instruction.subq, Instruction.mapOperands, hplace.immediate, rsp, hplace.register]
    rw [finish, List.map_singleton, hsame, List.flatMap_singleton, hpatch]
    rfl
  unfold padding
  split
  · next hodd =>
    rw [hreserve, hodd]
    exact fun _ h => .reserve 1 hroom h
  · next heven =>
    rw [Nat.mod_two_ne_one.mp heven]
    exact .nil _

/-- Loads of addresses shift nothing. -/
theorem shifts_loads {loads : List Instruction} (h : ∀ i ∈ loads, IsLoad context i) :
    Shifts inside depth depth depth (finish place frame loads) :=
  X86.shifts_finish hplace depth fun i hi => (h i hi).keepsTop

/-- However many words there are to give up, they are given up, if need be by way of `%rax`. -/
theorem shifts_release {count words : Nat} (hroom : words + 1 < 2 ^ 60) :
    Shifts inside depth (count + (words + words % 2)) count
      (finish place frame (release words)) := by
  unfold release
  split
  · have hsame (bytes : Word) : (Instruction.addq (.immediate bytes) rsp).mapOperands place =
        .addq (.immediate bytes) rsp := by
      simp [Instruction.addq, Instruction.mapOperands, hplace.immediate, rsp, hplace.register]
    rw [finish, List.map_singleton, hsame, List.flatMap_singleton, Instruction.addq,
      Instruction.patch, X86.Encoding.binary, X86.Encoding.general]
    split
    · exact fun _ h => .releaseMany _ h
    · exact fun _ h => .release _ h
  · next hnone =>
    rw [Word.eight_mul_pos (by omega), Nat.not_lt, Nat.le_zero] at hnone
    rw [hnone]
    exact .nil _

variable (hparameters : ∀ register ∈ context.config.parameters, register ≠ .rsp)
include hparameters

/-- A call gives up all words that it takes, and the number of words is odd in between. -/
theorem shifts_callCode (hodd : depth % 2 = 1) {name : Name} {operands : List Operand}
    (hroom : depth + 1 + (finish place frame (callCode context name operands)).length < 2 ^ 60) :
    Shifts inside depth depth depth (finish place frame (callCode context name operands)) := by
  rw [callCode, setUp] at hroom ⊢
  generalize operands.drop context.config.parameters.length = onStack at hroom ⊢
  have hwords : depth + 1 + onStack.length < 2 ^ 60 := by
    have hpushes := X86.length_le_finish_pushes place frame onStack.reverse
    simp only [X86.finish_append, List.length_append, List.length_reverse] at hroom hpushes
    omega
  have hpushes : Shifts inside depth (depth + onStack.length % 2)
      (depth + onStack.length % 2 + onStack.length)
      (finish place frame (onStack.reverse.map .pushq)) := by
    have hreverse := onStack.length_reverse
    rw [← hreverse]
    exact X86.shifts_finish_pushes (by omega)
  have happroach : ∀ instruction ∈ approach context name, instruction.keepsTop = true := by
    unfold approach
    split
    · exact List.forall_mem_nil _
    · exact List.forall_mem_singleton.mpr rfl
  have hcall : (transfer context name
      (context.config.parameters.take operands.length)).isCall = true := by
    unfold transfer
    split <;> rfl
  have hrelease : Shifts inside depth (depth + onStack.length % 2 + onStack.length) depth
      (finish place frame (release onStack.length)) := by
    rw [Nat.add_assoc, Nat.add_comm (onStack.length % 2)]
    exact shifts_release hplace (by omega)
  rw [X86.finish_append, X86.finish_append, X86.finish_append, X86.finish_append,
    X86.finish_cons]
  have hpass := keepsTop_passInRegisters hparameters operands
  exact ((((shifts_padding hplace _ (by omega)).append hpushes).append
    (X86.shifts_finish hplace _ hpass)).append (X86.shifts_finish hplace _ happroach)).append
      ((X86.shifts_finish_call hcall (by omega)).append hrelease)

/-- The code of a statement that does not pass control on gives up all words that it takes. -/
theorem Shape.shifts {st : Flow.Stmt} (h : Shape context st code) (hplain : st.isTerminator = false)
    (hodd : depth % 2 = 1) (hroom : depth + 1 + (finish place frame code).length < 2 ^ 60) :
    Shifts inside depth depth depth (finish place frame code) := by
  cases h with
  | compute hload hcode =>
    rw [X86.finish_append]
    exact (shifts_loads hplace hload).append (X86.shifts_finish hplace _ hcode.keepsTop)
  | call hload hoperands hlength =>
    rw [X86.finish_append, X86.finish_append] at hroom ⊢
    simp only [List.length_append] at hroom
    refine ((shifts_loads hplace hload).append
      (shifts_callCode hplace hparameters hodd (by omega))).append ?_
    exact X86.shifts_finish hplace _ (List.forall_mem_singleton.mpr rfl)
  | print hload =>
    rw [X86.finish_append, X86.finish_cons]
    refine (shifts_loads hplace hload).append
      ((X86.shifts_finish hplace _ ?_).append (X86.shifts_finish_call rfl hodd))
    exact List.forall_mem_singleton.mpr rfl
  | collect bytes =>
    change Shifts inside depth depth depth (finish place frame ([_, _] ++ [_]))
    rw [X86.finish_append]
    refine (X86.shifts_finish hplace _ ?_).append (X86.shifts_finish_call rfl hodd)
    exact List.forall_mem_cons.mpr ⟨rfl, List.forall_mem_singleton.mpr rfl⟩
  | setField hload =>
    rw [X86.finish_append]
    refine (shifts_loads hplace hload).append (X86.shifts_finish hplace _ ?_)
    exact List.forall_mem_cons.mpr ⟨rfl, List.forall_mem_singleton.mpr rfl⟩
  | goto | branch | ret | finalCall | tailCall => cases hplain

variable (hsaved : ∀ register ∈ frame.calleeSaved, register ≠ .rsp)
include hsaved

/-- The code of a statement that passes control on does so with the stack as it found it, or with no
words at all. -/
theorem Shape.closes {st : Flow.Stmt} (h : Shape context st code)
    (hterminator : st.isTerminator = true) (hinside : ∀ label ∈ st.successors, inside label)
    (hconclusion : inside context.conclusion)
    (hroom : frame.depth + 1 + (finish place frame code).length < 2 ^ 60) :
    Closes inside frame.depth frame.depth (finish place frame code) := by
  have hjump {label : Name} (hlabel : inside label) :
      Closes inside frame.depth frame.depth (finish place frame [.jump label]) :=
    fun _ => .jump hlabel _
  cases h with
  | goto label => exact hjump (hinside label List.mem_cons_self)
  | @branch _ _ _ positive negative loads _ _ condition hload hlhs hrhs =>
    have hpositive : inside positive := hinside positive List.mem_cons_self
    have hbranch : Shifts inside frame.depth frame.depth frame.depth
        (finish place frame [.jumpIf condition positive]) := fun _ h => .jumpIf hpositive h
    change Closes inside frame.depth frame.depth
      (finish place frame (loads ++ ([_] ++ ([_] ++ [.jump negative]))))
    rw [X86.finish_append, X86.finish_append, X86.finish_append]
    refine (shifts_loads hplace hload).closes
      ((X86.shifts_finish hplace _ ?_).closes (hbranch.closes (hjump ?_)))
    · exact List.forall_mem_singleton.mpr (keepsTop_cmpq hlhs)
    · exact hinside negative (List.mem_cons_of_mem _ List.mem_cons_self)
  | ret hload =>
    rw [X86.finish_append, X86.finish_cons]
    refine (shifts_loads hplace hload).closes
      ((X86.shifts_finish hplace _ ?_).closes (hjump hconclusion))
    exact List.forall_mem_singleton.mpr rfl
  | finalCall hload hoperands hlength =>
    rw [X86.finish_append, X86.finish_append] at hroom ⊢
    simp only [List.length_append] at hroom
    exact ((shifts_loads hplace hload).append (shifts_callCode hplace hparameters frame.depth_odd
      (by omega))).closes (hjump hconclusion)
  | @tailCall name arguments loads operands destination hload _ hdestination =>
    have hleave : finish place frame [.tailJump destination
        (context.config.parameters.take operands.length)] =
          X86.FrameCode.tailJump frame (place destination) := List.append_nil _
    rw [X86.finish_append, X86.finish_append, hleave]
    refine ((shifts_loads hplace hload).append (X86.shifts_finish hplace _ ?_)).closes ?_
    · exact keepsTop_passInRegisters hparameters operands
    · exact X86.FrameCode.closes_tailJump (by omega) hsaved _
  | compute | call | print | collect | setField => cases hterminator

/-- The code of a block passes control on in the end. -/
theorem closes_statements {sts : List Flow.Stmt} (h : Flow.IsCode inside sts)
    (hconclusion : inside context.conclusion) {s s' : NameSupply}
    (hcode : statements context sts s = .ok (code, s'))
    (hroom : frame.depth + 1 + (finish place frame code).length < 2 ^ 60) :
    Closes inside frame.depth frame.depth (finish place frame code) := by
  induction h generalizing code s with
  | @last st hterminator _ hknown =>
    rw [statements, bind_eq_ok] at hcode
    obtain ⟨first, s₁, hfirst, hcode⟩ := hcode
    cases hcode
    rw [List.append_nil, X86.finish_append] at hroom ⊢
    rw [List.length_append] at hroom
    refine (X86.shifts_finish hplace _ (keepsTop_remark st)).closes ?_
    exact (statement_shape hfirst).closes hplace hparameters hsaved hterminator hknown hconclusion
      (by omega)
  | @cons st sts hplain _ _ ih =>
    rw [statements, bind₂_eq_ok] at hcode
    obtain ⟨first, s₁, rest, hfirst, hrest, rfl⟩ := hcode
    rw [X86.finish_append, X86.finish_append] at hroom ⊢
    simp only [List.length_append] at hroom
    refine ((X86.shifts_finish hplace _ (keepsTop_remark st)).append ?_).closes
      (ih hrest (by omega))
    exact (statement_shape hfirst).shifts hplace hparameters hplain frame.depth_odd (by omega)

end Selection

/-! ## Functions and programs -/

/-- The stack slots of the function and its instructions are so few that the words they take have
addresses of their own. -/
def X86.Function.Fits (function : X86.Function) : Prop :=
  function.frame.stackSlots + function.instructions.length < 2 ^ 58

instance (function : X86.Function) : Decidable function.Fits :=
  inferInstanceAs (Decidable (_ < _))

namespace X86.Function

variable {config : Config} {flow : Flow.Function} {function : X86.Function}

/-- A block is no longer than its function. -/
theorem length_le_instructions {block : Block} (h : block ∈ function.blocks) :
    block.instructions.length ≤ function.instructions.length := by
  rw [instructions, List.flatMap_def]
  exact (List.sublist_flatten_of_mem (List.mem_map_of_mem h)).length_le

/-- A function whose blocks all pass control on is in order. -/
theorem isBalanced_of_blocks {depth : Nat} (hdepth : depth < 2 ^ 60)
    (h : ∀ block ∈ function.blocks,
      (block.label = function.name → Closes (· ≠ function.name) depth 0 block.instructions) ∧
      (block.label ≠ function.name →
        Closes (· ≠ function.name) depth depth block.instructions)) :
    function.IsBalanced depth := by
  refine ⟨hdepth, ?_, ?_⟩
  · rintro code ⟨left, block, right, hblocks, hlabel, rfl⟩
    have hmem : block ∈ function.blocks := hblocks ▸ List.mem_append_right _ List.mem_cons_self
    exact (h block hmem).1 hlabel _
  · rintro label hne code ⟨left, block, right, hblocks, rfl, rfl⟩
    have hmem : block ∈ function.blocks := hblocks ▸ List.mem_append_right _ List.mem_cons_self
    exact (h block hmem).2 hne _

/-- A function with its frame, as it is finally written. -/
theorem blocks_enclose (config : Config) (function : X86.Function) :
    ((function.expand Instruction.patch).enclose config).blocks =
      ⟨function.name, FrameCode.prelude config function.name function.frame⟩ ::
        (function.blocks.map fun block => ⟨block.label, (block.instructions.flatMap
          Instruction.patch).flatMap (FrameCode.expandTailJump function.frame)⟩) ++
        [⟨function.name.conclusionLabel, FrameCode.conclusion function.frame⟩] := by
  rw [enclose, expand, expand]
  simp only [List.map_map]
  rfl

/-- There are no more saved registers than instructions. -/
theorem length_calleeSaved_le (config : Config) (function : X86.Function) :
    function.frame.calleeSaved.length ≤
      ((function.expand Instruction.patch).enclose config).instructions.length := by
  have hmem : ⟨function.name, FrameCode.prelude config function.name function.frame⟩ ∈
      ((function.expand Instruction.patch).enclose config).blocks := by
    rw [blocks_enclose]
    exact List.mem_append_left _ List.mem_cons_self
  refine Nat.le_trans ?_ (length_le_instructions hmem)
  simp only [FrameCode.prelude, List.length_append, List.length_map]
  omega

/-- A compiled function keeps the stack in order. -/
theorem Realizes.isBalanced (hconfig : config.validate = .ok ())
    (h : Realizes config flow function) (hclosed : flow.IsClosed) (hlabels : flow.HasOwnLabels)
    (hfits : ((function.expand Instruction.patch).enclose config).Fits) :
    ((function.expand Instruction.patch).enclose config).IsBalanced function.frame.depth := by
  obtain ⟨functionNames, place, hplace, hblocks⟩ := h.blocks
  have hname : function.name.isGenerated = false := h.name_eq ▸ hlabels.name
  have hinside {label : Name} (hlabel : label.isGenerated = true) : label ≠ function.name := by
    rintro rfl
    rw [hname] at hlabel
    cases hlabel
  have hsaved : ∀ register ∈ function.frame.calleeSaved, register ≠ .rsp := by
    rintro register hregister rfl
    exact h.saved _ hregister (by decide)
  have hparameters : ∀ register ∈ config.parameters, register ≠ .rsp := by
    rintro register hregister rfl
    exact (Config.parameters_of_validate hconfig).2 _ hregister (by decide)
  have hroom : function.frame.depth + 1 +
      ((function.expand Instruction.patch).enclose config).instructions.length < 2 ^ 60 := by
    have hlength := length_calleeSaved_le config function
    have hfits : function.frame.stackSlots + _ < 2 ^ 58 := hfits
    rw [Frame.depth]
    omega
  refine isBalanced_of_blocks (Nat.lt_of_le_of_lt (by omega) hroom) fun block hblock => ?_
  have hlength := length_le_instructions hblock
  rw [blocks_enclose, List.mem_append, List.mem_cons, List.mem_map, List.mem_singleton] at hblock
  rcases hblock with (rfl | ⟨allocated, hallocated, rfl⟩) | rfl
  · refine ⟨fun _ => FrameCode.closes_prelude (by omega) config ?_, fun hne => absurd rfl hne⟩
    exact hinside function.name.isGenerated_startLabel
  · obtain ⟨source, hsource, selected,
      ⟨hlabel, parameters, code, s, s', hcode, hinstructions⟩, rfl⟩ := hblocks allocated hallocated
    have hgenerated : selected.label.isGenerated = true :=
      hlabel ▸ (hlabels.labels _ (List.mem_map_of_mem hsource)).1
    refine ⟨fun heq => absurd heq (hinside hgenerated), fun _ => ?_⟩
    have hiscode : Flow.IsCode (· ≠ function.name) source.statements :=
      (hclosed source hsource).mono fun label hlabel => hinside (hlabels.labels label hlabel).1
    have hconclusion : flow.name.conclusionLabel ≠ function.name :=
      hinside flow.name.isGenerated_conclusionLabel
    change (finish place function.frame selected.instructions).length ≤ _ at hlength
    change Closes _ _ _ (finish place function.frame selected.instructions)
    rw [hinstructions, finish_append] at hlength ⊢
    rw [List.length_append] at hlength
    refine (shifts_finish hplace _ (Selection.keepsTop_copyParameters _ parameters)).closes ?_
    exact Selection.closes_statements hplace hparameters hsaved hiscode hconclusion hcode (by omega)
  · refine ⟨fun heq => ?_, fun _ => FrameCode.closes_conclusion (by omega) hsaved⟩
    exact absurd heq (hinside function.name.isGenerated_conclusionLabel)

/-- A function begins with its prelude, under its own name. -/
theorem exists_hasCodeAt_enclose (config : Config) (function : X86.Function) :
    ∃ instruction code, (function.enclose config).HasCodeAt function.name (instruction :: code) :=
  ⟨_, _, [], _, _, rfl, rfl, rfl⟩

end X86.Function

/-- The code of a program that the type checker accepts keeps the stack in order in all functions
whose frame and code fit into memory: on every path from the entry, where there is code, the stack
pointer is a multiple of sixteen at calls, is back at its value at the entry where the function is
left, and never exceeds that value. -/
theorem Program.lowered_code_keeps_stack_discipline {config : Config}
    (hconfig : config.validate = .ok ()) {program : Program} {types : TypeEnvironment}
    (htypes : program.typeCheck = .ok types) :
    ∃ lowered, (program.lower config).result = .ok lowered ∧
      ∀ function ∈ lowered.functions,
        (∃ instruction code, function.HasCodeAt function.name (instruction :: code)) ∧
        (function.Fits → function.KeepsStackDiscipline) := by
  obtain ⟨environment, selected, allocated, hstages⟩ :=
    (Typing.checkProgram_eq_ok.mp htypes).exists_stages hconfig
  obtain ⟨_, _, _, _, _, flow, _, -, -, -, hclosed, hlabels, hrealizes⟩ :=
    hstages.exists_realizes hconfig htypes
  refine ⟨_, hstages.lower, fun function hfunction => ?_⟩
  obtain ⟨patched, hpatched, rfl⟩ := List.mem_map.mp hfunction
  refine ⟨X86.Function.exists_hasCodeAt_enclose config patched, fun hfits => ?_⟩
  obtain ⟨homed, hhomed, rfl⟩ := List.mem_map.mp hpatched
  obtain ⟨source, hsource, hrealized⟩ := hrealizes homed hhomed
  exact (hrealized.isBalanced hconfig (hclosed source hsource) (hlabels source hsource)
    hfits).keepsStackDiscipline

/-- A call with two arguments on the stack, a call among the arguments of another one, and a call in
place of the function that makes it. -/
def Program.nestedCalls : Program := ⟨[
  .define "sum" [("a", .int), ("b", .int), ("c", .int)] .int
    [.ret (.primitive .add [.var "a", .primitive .add [.var "b", .var "c"]])],
  .define "countdown" [("n", .int)] .int
    [.ifElse (.primitive .lte [.var "n", .int 0]) [.ret (.int 0)]
      [.ret (.call (.var "countdown") [.primitive .sub [.var "n", .int 1]])]],
  .print (.call (.var "sum") [.int 1, .call (.var "countdown") [.int 9], .int 2])]⟩

/-- One parameter register only. -/
def Config.oneParameter : Config where
  parameters := [.rdi]

/-- All functions of `nestedCalls` fit into memory and keep the stack in order, on paths that begin
with some code. -/
theorem Program.lowered_code_keeps_stack_discipline_nestedCalls :
    Config.oneParameter.validate = .ok () ∧
      (∃ types, Program.nestedCalls.typeCheck = .ok types) ∧
      ∃ lowered, (Program.nestedCalls.lower Config.oneParameter).result = .ok lowered ∧
        lowered.functions.length = 3 ∧
        ∀ function ∈ lowered.functions, function.Fits ∧ function.KeepsStackDiscipline ∧
          ∃ instruction code, ∀ image start,
            function.Reaches image start (instruction :: code) start := by
  have hfits : ((Program.nestedCalls.lower Config.oneParameter).result.toOption.any fun lowered =>
      decide (lowered.functions.length = 3 ∧ ∀ function ∈ lowered.functions, function.Fits)) =
        true := by decide +kernel
  have hconfig : Config.oneParameter.validate = .ok () := by rfl
  obtain ⟨types, htypes⟩ : ∃ types, Program.nestedCalls.typeCheck = .ok types :=
    Except.exists_ok_of_isSome (by decide +kernel)
  obtain ⟨lowered, hlowered, hdiscipline⟩ :=
    Program.lowered_code_keeps_stack_discipline hconfig htypes
  rw [hlowered] at hfits
  obtain ⟨hlength, hfits⟩ := of_decide_eq_true hfits
  refine ⟨hconfig, ⟨types, htypes⟩, lowered, hlowered, hlength, fun function hfunction => ?_⟩
  obtain ⟨⟨instruction, code, hcode⟩, hkeeps⟩ := hdiscipline function hfunction
  exact ⟨hfits function hfunction, hkeeps (hfits function hfunction), instruction, code,
    fun _ _ => .entry hcode⟩

end TupleLang
