import TupleLang.Proofs.CodeShapes
import TupleLang.X86.Encoding
import TupleLang.X86.FrameCode

/-!
# Instructions of finished code

The last stages of a compilation patch instructions that cannot be encoded and put every function
into a frame.  Here is what single instructions they may leave behind: what a patched instruction
becomes (`X86.Instruction.mem_patch`), and what the code that builds and leaves a frame is made of
(`X86.FrameCode.forall_mem_prelude`, `X86.FrameCode.forall_mem_teardown`).
-/

namespace TupleLang.X86

/-! ## Patching -/

/-- The instructions that may stand in the place of an instruction once it is patched.  An address
is never moved like a word: the source of a `leaq` can only be moved if it is a constant. -/
inductive Instruction.BecomesPart : Instruction → Instruction → Prop
  | same (instruction : Instruction) : BecomesPart instruction instruction
  | load {operator : BinaryOperator} {source destination scratch : Operand}
      (hscratch : scratch = Encoding.rax ∨ scratch = Encoding.r11)
      (hsource : operator = .leaq → source.isWideImmediate = true) :
    BecomesPart (.binary operator source destination) (.movq source scratch)
  | fetch {operator : BinaryOperator} {source destination : Operand} :
    BecomesPart (.binary operator source destination) (.movq destination Encoding.rax)
  | fromScratch {operator : BinaryOperator} {source destination : Operand} :
    BecomesPart (.binary operator source destination)
      (.binary operator Encoding.rax destination)
  | toScratch {operator : BinaryOperator} {source source' destination : Operand}
      (hsource : source' = source ∨ source' = Encoding.r11) :
    BecomesPart (.binary operator source destination) (.binary operator source' Encoding.rax)
  | store {operator : BinaryOperator} {source destination : Operand} :
    BecomesPart (.binary operator source destination) (.movq Encoding.rax destination)
  | wide {operand : Operand} (hwide : operand.isWideImmediate = true) :
    BecomesPart (.pushq operand) (.movq operand Encoding.rax)
  | push {operand : Operand} : BecomesPart (.pushq operand) (.pushq Encoding.rax)

namespace Encoding

variable {operator : BinaryOperator} {source destination : Operand}

/-- The general rule adds moves only. -/
theorem becomesPart_general (h : operator = .leaq → destination.isMemory = false) :
    ∀ part ∈ general operator source destination,
      (Instruction.binary operator source destination).BecomesPart part := by
  unfold general
  split
  · next hcondition =>
    refine List.forall_mem_cons.mpr ⟨.load (.inl rfl) fun hoperator => ?_,
      List.forall_mem_singleton.mpr .fromScratch⟩
    simpa [h hoperator] using hcondition
  · exact List.forall_mem_singleton.mpr (.same _)

/-- So does the detour by way of `%rax`. -/
theorem becomesPart_throughScratch (h : operator ≠ .leaq) :
    ∀ part ∈ throughScratch operator source destination,
      (Instruction.binary operator source destination).BecomesPart part := by
  unfold throughScratch narrowSource
  split
  next code source' hnarrow =>
    split at hnarrow
    · cases hnarrow
      exact List.forall_mem_cons.mpr ⟨.load (.inr rfl) fun hoperator => absurd hoperator h,
        List.forall_mem_cons.mpr ⟨.fetch, List.forall_mem_singleton.mpr (.toScratch (.inr rfl))⟩⟩
    · cases hnarrow
      exact List.forall_mem_cons.mpr
        ⟨.fetch, List.forall_mem_singleton.mpr (.toScratch (.inl rfl))⟩

/-- So does every rule. -/
theorem becomesPart_binary : ∀ part ∈ binary operator source destination,
    (Instruction.binary operator source destination).BecomesPart part := by
  unfold binary
  split
  · split
    · exact List.forall_mem_nil _
    split
    · exact List.forall_mem_cons.mpr
        ⟨.load (.inl rfl) (fun h => by cases h), List.forall_mem_singleton.mpr .store⟩
    · exact List.forall_mem_singleton.mpr (.same _)
  · split
    · exact List.forall_mem_cons.mpr
        ⟨.toScratch (.inl rfl), List.forall_mem_singleton.mpr .store⟩
    · next hmemory => exact becomesPart_general fun _ => Bool.not_eq_true _ ▸ hmemory
  · split
    · exact List.forall_mem_cons.mpr
        ⟨.toScratch (.inl rfl), List.forall_mem_singleton.mpr .store⟩
    · next hmemory => exact becomesPart_general fun _ => Bool.not_eq_true _ ▸ hmemory
  · split
    · exact List.forall_mem_append.mpr ⟨becomesPart_throughScratch (by decide),
        List.forall_mem_singleton.mpr .store⟩
    · exact becomesPart_general fun h => by cases h
  · split
    · exact becomesPart_throughScratch (by decide)
    · exact becomesPart_general fun h => by cases h
  all_goals exact becomesPart_general fun h => by cases h

end Encoding

/-- A patched instruction consists of nothing else. -/
theorem Instruction.mem_patch {instruction part : Instruction} (h : part ∈ instruction.patch) :
    instruction.BecomesPart part := by
  cases instruction with
  | binary operator source destination => exact Encoding.becomesPart_binary part h
  | pushq operand =>
    rw [patch] at h
    split at h
    · next hwide =>
      rcases List.mem_cons.mp h with rfl | h
      · exact .wide hwide
      · cases List.mem_singleton.mp h
        exact .push
    · cases List.mem_singleton.mp h
      exact .same _
  | _ =>
    cases List.mem_singleton.mp h
    exact .same _

/-! ## Frames -/

namespace FrameCode

variable {p : Instruction → Prop}

theorem forall_mem_ite {condition : Prop} [Decidable condition] {code : List Instruction}
    (h : ∀ instruction ∈ code, p instruction) :
    ∀ instruction ∈ if condition then code else [], p instruction := by
  split
  · exact h
  · exact List.forall_mem_nil _

/-- The code that undoes a frame computes with registers and constants, and pops registers. -/
theorem forall_mem_teardown
    (hoperation : ∀ instruction : Instruction, instruction.isOperation = true →
      (∀ operand ∈ instruction.operands, operand.isGlobal = false) → p instruction)
    (hpop : ∀ register, p (.popq (.register register))) (frame : Frame) :
    ∀ instruction ∈ teardown frame, p instruction := by
  have hbinary (operator : BinaryOperator) (hoperator : (operator != .leaq) = true) (value : Word)
      (register : Register) :
      p (.binary operator (.immediate value) (.register register)) :=
    hoperation _ hoperator (List.forall_mem_cons.mpr ⟨rfl, List.forall_mem_singleton.mpr rfl⟩)
  refine List.forall_mem_append.mpr ⟨List.forall_mem_append.mpr ⟨List.forall_mem_append.mpr
    ⟨forall_mem_ite ?_, forall_mem_ite ?_⟩, ?_⟩, List.forall_mem_singleton.mpr (hpop _)⟩
  · exact List.forall_mem_singleton.mpr (hbinary _ rfl _ _)
  · exact List.forall_mem_singleton.mpr (hbinary _ rfl _ _)
  · exact List.forall_mem_map.mpr fun _ _ => hpop _

/-- What holds of clearing one root holds of all. -/
theorem forall_mem_clearRoots (hclear : ∀ offset, p (.movq (.immediate 0) (.deref .r15 offset)))
    (first count : Nat) : ∀ instruction ∈ clearRoots first count, p instruction := by
  induction count generalizing first with
  | zero => exact List.forall_mem_nil _
  | succ count ih => exact List.forall_mem_cons.mpr ⟨hclear _, ih (first + 1)⟩

/-- The code that builds a frame computes with registers, constants and words of the frame, may ask
for the root stack and the heap, and jumps to the first block. -/
theorem forall_mem_prelude {name : Name}
    (hoperation : ∀ instruction : Instruction, instruction.isOperation = true →
      (∀ operand ∈ instruction.operands, operand.isGlobal = false) → p instruction)
    (hcall : p (.callq Name.mapHeap Register.runtimeArguments))
    (hbegin : p (.movq (.global Name.rootStackBegin) r15)) (hjump : p (.jump name.startLabel))
    (config : Config) (frame : Frame) :
    ∀ instruction ∈ prelude config name frame, p instruction := by
  have hbinary {operator : BinaryOperator} {source destination : Operand}
      (hoperator : (operator != .leaq) = true) (hsource : source.isGlobal = false)
      (hdestination : destination.isGlobal = false) :
      p (.binary operator source destination) :=
    hoperation _ hoperator
      (List.forall_mem_cons.mpr ⟨hsource, List.forall_mem_singleton.mpr hdestination⟩)
  have hpush (register : Register) : p (.pushq (.register register)) :=
    hoperation _ rfl (List.forall_mem_singleton.mpr rfl)
  refine List.forall_mem_append.mpr ⟨List.forall_mem_append.mpr ⟨List.forall_mem_append.mpr
    ⟨List.forall_mem_append.mpr ⟨List.forall_mem_append.mpr ⟨List.forall_mem_append.mpr
      ⟨?_, ?_⟩, forall_mem_ite ?_⟩, forall_mem_ite ?_⟩, ?_⟩, forall_mem_ite ?_⟩,
        List.forall_mem_singleton.mpr hjump⟩
  · exact List.forall_mem_cons.mpr ⟨hpush _, List.forall_mem_singleton.mpr (hbinary rfl rfl rfl)⟩
  · exact List.forall_mem_map.mpr fun register _ => hpush register
  · exact List.forall_mem_singleton.mpr (hbinary rfl rfl rfl)
  · exact List.forall_mem_cons.mpr ⟨hbinary rfl rfl rfl, List.forall_mem_cons.mpr
      ⟨hbinary rfl rfl rfl, List.forall_mem_cons.mpr
        ⟨hcall, List.forall_mem_singleton.mpr hbegin⟩⟩⟩
  · exact forall_mem_clearRoots (fun _ => hbinary rfl rfl rfl) 0 frame.rootSlots
  · exact List.forall_mem_singleton.mpr (hbinary rfl rfl rfl)

end FrameCode

end TupleLang.X86
