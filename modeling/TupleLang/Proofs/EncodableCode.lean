import Mathlib.Data.List.Basic
import TupleLang.X86.Encoding

/-!
# What patched code looks like

`Encoding.Patches` says once what becomes of an instruction with a source and a destination, and
under which conditions.  Two statements follow from it.

* Patched code can be encoded (`Instruction.patched_code_isEncodable`), if only comparisons had
  constants for destinations and no address or byte of a constant was taken before.
* Patching a patched program changes nothing, except for one kind of instruction: an address or a
  byte of a wide constant that is put into memory is patched in two rounds
  (`Program.patch_patch_eq_iff`).
-/

namespace TupleLang.X86

/-! ## The ways to patch an instruction -/

/-- Whether the instruction can write to registers only. -/
def BinaryOperator.writesRegistersOnly : BinaryOperator → Bool
  | leaq | movzbq | imulq => true
  | _ => false

namespace Encoding

/-- The instruction is no move, and it can have the destination as it is. -/
structure Accepts (operator : BinaryOperator) (destination : Operand) : Prop where
  notMove : operator ≠ .movq
  memory (h : operator.writesRegistersOnly = true) : destination.isMemory = false
  immediate (h : operator = .cmpq) : destination.isImmediate = false

/-- A source that is no wide constant, with the code that provides it. -/
inductive Narrows (source : Operand) : List Instruction → Operand → Prop
  | same (h : source.isWideImmediate = false) : Narrows source [] source
  | load (h : source.isWideImmediate = true) : Narrows source [.movq source r11] r11

/-- What becomes of an instruction with a source and a destination. -/
inductive Patches : BinaryOperator → Operand → Operand → List Instruction → Prop
  | trivialMove (place : Operand) : Patches .movq place place []
  | move {source destination : Operand} (hne : source ≠ destination)
      (h : destination.isMemory = true →
        source.isMemory = false ∧ source.isWideImmediate = false) :
    Patches .movq source destination [.movq source destination]
  | moveThroughScratch {source destination : Operand} (hdestination : destination.isMemory = true)
      (hsource : source.isMemory = true ∨ source.isWideImmediate = true) :
    Patches .movq source destination [.movq source rax, .movq rax destination]
  | storeResult {operator : BinaryOperator} {source destination : Operand}
      (hoperator : operator = .leaq ∨ operator = .movzbq)
      (hdestination : destination.isMemory = true) :
    Patches operator source destination [.binary operator source rax, .movq rax destination]
  | multiply {source source' destination : Operand} {code : List Instruction}
      (hdestination : destination.isMemory = true) (hsource : Narrows source code source') :
    Patches .imulq source destination
      (code ++ [.movq destination rax, .binary .imulq source' rax] ++ [.movq rax destination])
  | compare {source source' destination : Operand} {code : List Instruction}
      (hdestination : destination.isImmediate = true) (hsource : Narrows source code source') :
    Patches .cmpq source destination
      (code ++ [.movq destination rax, .binary .cmpq source' rax])
  | loadSource {operator : BinaryOperator} {source destination : Operand}
      (haccepts : Accepts operator destination)
      (hsource : source.isMemory = true ∨ source.isWideImmediate = true) :
    Patches operator source destination [.movq source rax, .binary operator rax destination]
  | same {operator : BinaryOperator} {source destination : Operand}
      (haccepts : Accepts operator destination) (hsource : source.isWideImmediate = false)
      (hmemory : (source.isMemory && destination.isMemory) = false) :
    Patches operator source destination [.binary operator source destination]

variable {operator : BinaryOperator} {source destination : Operand}

/-- A wide constant goes through a register, and nothing else does. -/
theorem narrows_narrowSource (source : Operand) :
    Narrows source (narrowSource source).1 (narrowSource source).2 := by
  unfold narrowSource
  split
  · next h => exact .load h
  · next h => exact .same (Bool.not_eq_true _ ▸ h)

/-- An instruction that can have its destination is only patched for its source. -/
theorem Accepts.binary_eq (h : Accepts operator destination) (source : Operand) :
    binary operator source destination = general operator source destination := by
  cases operator with
  | movq => exact absurd rfl h.notMove
  | leaq | movzbq | imulq => simp [binary, h.memory rfl]
  | cmpq => simp [binary, h.immediate rfl]
  | _ => rfl

/-- Operators that accept a destination are patched by the general rule. -/
theorem Accepts.patches (h : Accepts operator destination) (source : Operand) :
    Patches operator source destination (binary operator source destination) := by
  rw [h.binary_eq, general]
  split
  · next hsource =>
    rw [Bool.or_eq_true, Bool.and_eq_true] at hsource
    exact .loadSource h (hsource.symm.imp And.left id)
  · next hsource =>
    rw [Bool.not_eq_true, Bool.or_eq_false_iff] at hsource
    exact .same h hsource.1 hsource.2

/-- An address or a byte for a word in memory is computed in the scratch register, whatever the
source is. -/
theorem binary_of_isMemory (hoperator : operator = .leaq ∨ operator = .movzbq)
    (hmemory : destination.isMemory = true) :
    binary operator source destination =
      [.binary operator source rax, .movq rax destination] := by
  rcases hoperator with rfl | rfl <;> simp only [binary, hmemory, if_true]

/-- Nothing else becomes of an instruction with a source and a destination. -/
theorem patches_binary (operator : BinaryOperator) (source destination : Operand) :
    Patches operator source destination (binary operator source destination) := by
  cases operator with
  | movq =>
    simp only [binary]
    split
    · next h => exact h ▸ .trivialMove source
    split
    · next hne h =>
      rw [Bool.and_eq_true, Bool.or_eq_true] at h
      exact .moveThroughScratch h.1 h.2
    · next hne h => exact .move hne fun hdestination => by simpa [hdestination] using h
  | leaq | movzbq =>
    cases hmemory : destination.isMemory with
    | true =>
      rw [binary_of_isMemory (by simp) hmemory]
      exact .storeResult (by simp) hmemory
    | false =>
      exact Accepts.patches ⟨by decide, fun _ => hmemory, fun h => absurd h (by decide)⟩ source
  | imulq =>
    cases hmemory : destination.isMemory with
    | true =>
      simp only [binary, hmemory, if_true, throughScratch]
      exact .multiply hmemory (narrows_narrowSource source)
    | false =>
      exact Accepts.patches ⟨by decide, fun _ => hmemory, fun h => absurd h (by decide)⟩ source
  | cmpq =>
    cases himmediate : destination.isImmediate with
    | true =>
      simp only [binary, himmediate, if_true, throughScratch]
      exact .compare himmediate (narrows_narrowSource source)
    | false =>
      exact Accepts.patches ⟨by decide, fun h => absurd h (by decide), fun _ => himmediate⟩ source
  | _ =>
    exact Accepts.patches
      ⟨by decide, fun h => absurd h (by decide), fun h => absurd h (by decide)⟩ source

end Encoding

/-- The instruction puts an address or a byte of a wide constant into memory. -/
inductive Instruction.StoresWideConstant : Instruction → Prop
  | intro {operator : BinaryOperator} {source destination : Operand}
      (hoperator : operator = .leaq ∨ operator = .movzbq)
      (hwide : source.isWideImmediate = true) (hmemory : destination.isMemory = true) :
    StoresWideConstant (.binary operator source destination)

namespace Encoding

variable {operator : BinaryOperator} {source destination : Operand} {code : List Instruction}

/-- Wide constants are constants. -/
theorem isImmediate_of_isWideImmediate (h : source.isWideImmediate = true) :
    source.isImmediate = true := by
  cases source with
  | immediate => rfl
  | _ => cases h

/-- A constant or a word in memory is no register. -/
theorem ne_register (h : source.isMemory = true ∨ source.isImmediate = true)
    (register : Register) : source ≠ .register register := by
  rintro rfl
  rcases h with h | h <;> cases h

/-- A word in memory is no constant. -/
theorem isImmediate_of_isMemory (h : destination.isMemory = true) :
    destination.isImmediate = false := by
  cases destination with
  | deref | global => rfl
  | _ => cases h

/-- Everything but a move can have a register for its destination. -/
theorem accepts_rax (h : operator ≠ .movq) : Accepts operator rax :=
  ⟨h, fun _ => rfl, fun _ => rfl⟩

/-- Unless it stores a wide constant, an instruction becomes moves that can be made at once and
instructions of its own kind that can have their operands.  A constant is the destination of such
an instruction only if it was before. -/
theorem Patches.forall_mem {p : Instruction → Prop} (h : Patches operator source destination code)
    (hwide : ¬(Instruction.binary operator source destination).StoresWideConstant)
    (hmove : ∀ {s d : Operand}, s ≠ d →
      (d.isMemory = true → s.isMemory = false ∧ s.isWideImmediate = false) →
      (d.isImmediate = true → operator = .movq ∧ d = destination) → p (.movq s d))
    (haccepted : ∀ {s d : Operand}, Accepts operator d → s.isWideImmediate = false →
      (s.isMemory && d.isMemory) = false → (d.isImmediate = true → d = destination) →
      p (.binary operator s d)) : ∀ part ∈ code, p part := by
  have hload {s : Operand} (hs : s.isMemory = true ∨ s.isImmediate = true) (register : Register) :
      p (.movq s (.register register)) :=
    hmove (ne_register hs register) (fun h => by cases h) fun h => by cases h
  have hstore (hmemory : destination.isMemory = true) : p (.movq rax destination) := by
    refine hmove (ne_register (.inl hmemory) _).symm (fun _ => ⟨rfl, rfl⟩) fun himmediate => ?_
    rw [isImmediate_of_isMemory hmemory] at himmediate
    cases himmediate
  have hscratch {s : Operand} (hoperator : operator ≠ .movq) (hs : s.isWideImmediate = false) :
      p (.binary operator s rax) :=
    haccepted (accepts_rax hoperator) hs (Bool.and_false _) fun h => by cases h
  have hnarrowed {s : Operand} {code : List Instruction} (hs : Narrows source code s) :
      (∀ part ∈ code, p part) ∧ s.isWideImmediate = false := by
    cases hs with
    | same hnarrow => exact ⟨List.forall_mem_nil _, hnarrow⟩
    | load hwide =>
      exact ⟨List.forall_mem_singleton.mpr
        (hload (.inr (isImmediate_of_isWideImmediate hwide)) _), rfl⟩
  cases h with
  | trivialMove => exact List.forall_mem_nil _
  | move hne h => exact List.forall_mem_singleton.mpr (hmove hne h fun _ => ⟨rfl, rfl⟩)
  | moveThroughScratch hmemory hsource =>
    exact List.forall_mem_cons.mpr
      ⟨hload (hsource.imp_right isImmediate_of_isWideImmediate) _,
        List.forall_mem_singleton.mpr (hstore hmemory)⟩
  | storeResult hoperator hmemory =>
    -- the only way to patch that leaves the source as it is, wide or not
    have hnarrow : source.isWideImmediate = false :=
      Bool.eq_false_iff.mpr fun h => hwide (.intro hoperator h hmemory)
    refine List.forall_mem_cons.mpr
      ⟨hscratch ?_ hnarrow, List.forall_mem_singleton.mpr (hstore hmemory)⟩
    rcases hoperator with rfl | rfl <;> decide
  | multiply hmemory hnarrows =>
    obtain ⟨hcode, hnarrow⟩ := hnarrowed hnarrows
    exact List.forall_mem_append.mpr ⟨List.forall_mem_append.mpr ⟨hcode, List.forall_mem_cons.mpr
      ⟨hload (.inl hmemory) _, List.forall_mem_singleton.mpr (hscratch (by decide) hnarrow)⟩⟩,
        List.forall_mem_singleton.mpr (hstore hmemory)⟩
  | compare himmediate hnarrows =>
    obtain ⟨hcode, hnarrow⟩ := hnarrowed hnarrows
    exact List.forall_mem_append.mpr ⟨hcode, List.forall_mem_cons.mpr
      ⟨hload (.inr himmediate) _, List.forall_mem_singleton.mpr (hscratch (by decide) hnarrow)⟩⟩
  | loadSource haccepts hsource =>
    exact List.forall_mem_cons.mpr
      ⟨hload (hsource.imp_right isImmediate_of_isWideImmediate) _,
        List.forall_mem_singleton.mpr (haccepted haccepts rfl rfl fun _ => rfl)⟩
  | same haccepts hnarrow hmemory =>
    exact List.forall_mem_singleton.mpr (haccepted haccepts hnarrow hmemory fun _ => rfl)

end Encoding

/-! ## Code that can be encoded -/

/-- The operand is no constant outside the range of signed 32-bit integers. -/
def Operand.IsNarrow (operand : Operand) : Prop :=
  ∀ value, operand = .immediate value → -0x80000000 ≤ value.toInt ∧ value.toInt ≤ 0x7fffffff

/-- The rules for the operands of an instruction with a source and a destination. -/
structure Encoding.Fits (operator : BinaryOperator) (source destination : Operand) : Prop where
  memory : ¬(source.isMemory = true ∧ destination.isMemory = true)
  immediate : destination.isImmediate = false
  wide (h : ¬source.IsNarrow) : operator = .movq ∧ destination.isMemory = false
  register (h : operator = .leaq ∨ operator = .movzbq ∨ operator = .imulq) :
    destination.isMemory = false

/-- The machine can encode the instruction. -/
def Instruction.IsEncodable : Instruction → Prop
  | .binary operator source destination => Encoding.Fits operator source destination
  | .pushq operand => operand.IsNarrow
  | _ => True

/-- Only a comparison has a constant for its destination, and an address or a byte is not that of
a constant. -/
def Instruction.IsRegular : Instruction → Prop
  | .binary operator source destination =>
    (destination.isImmediate = true → operator = .cmpq) ∧
      (operator = .leaq ∨ operator = .movzbq → source.isImmediate = false)
  | _ => True

/-- All but wide constants are narrow. -/
theorem Operand.isNarrow_iff {operand : Operand} :
    operand.IsNarrow ↔ operand.isWideImmediate = false := by
  cases operand with
  | immediate value =>
    have hmin : (-2147483648 : Word).toInt = -0x80000000 := by decide
    have hmax : (2147483647 : Word).toInt = 0x7fffffff := by decide
    simp only [IsNarrow, isWideImmediate, Word.isNarrow, Bool.not_eq_false', Bool.and_eq_true,
      decide_eq_true_eq, Int64.le_iff_toInt_le, hmin, hmax]
    exact ⟨fun h => h value rfl, fun h _ heq => by cases heq; exact h⟩
  | _ => exact ⟨fun _ => rfl, fun _ _ heq => by cases heq⟩

/-- Regular instructions store no wide constants. -/
theorem Instruction.IsRegular.not_storesWideConstant {instruction : Instruction}
    (h : instruction.IsRegular) : ¬instruction.StoresWideConstant := by
  rintro ⟨hoperator, hwide, -⟩
  have himmediate := Encoding.isImmediate_of_isWideImmediate hwide
  rw [h.2 hoperator] at himmediate
  cases himmediate

namespace Encoding

variable {operator : BinaryOperator} {source destination : Operand}

/-- Which moves can be encoded. -/
theorem fits_move
    (h : destination.isMemory = true → source.isMemory = false ∧ source.isWideImmediate = false)
    (himmediate : destination.isImmediate = false) : Fits .movq source destination where
  memory hboth := by
    rw [(h hboth.2).1] at hboth
    cases hboth.1
  immediate := himmediate
  wide hwide := by
    refine ⟨rfl, Bool.eq_false_iff.mpr fun hmemory => ?_⟩
    exact hwide (Operand.isNarrow_iff.mpr (h hmemory).2)
  register h := absurd h (by decide)

/-- Which other instructions can be. -/
theorem Accepts.fits (h : Accepts operator destination) (hsource : source.isWideImmediate = false)
    (hmemory : (source.isMemory && destination.isMemory) = false)
    (himmediate : destination.isImmediate = false) : Fits operator source destination where
  memory hboth := by simp [hboth] at hmemory
  immediate := himmediate
  wide hwide := absurd (Operand.isNarrow_iff.mpr hsource) hwide
  register hoperator := h.memory (by rcases hoperator with rfl | rfl | rfl <;> rfl)

end Encoding

/-- All parts of a patched instruction can be encoded. -/
theorem Instruction.isEncodable_patch {instruction : Instruction} (h : instruction.IsRegular) :
    ∀ part ∈ instruction.patch, part.IsEncodable := by
  cases instruction with
  | binary operator source destination =>
    refine (Encoding.patches_binary operator source destination).forall_mem
      h.not_storesWideConstant (fun _ hmove himmediate => ?_)
      fun haccepts hsource hmemory himmediate => ?_
    · -- a constant would be the destination of the instruction itself, which is no comparison
      refine Encoding.fits_move hmove (Bool.eq_false_iff.mpr fun hconstant => ?_)
      obtain ⟨rfl, rfl⟩ := himmediate hconstant
      exact absurd (h.1 hconstant) (by decide)
    · refine haccepts.fits hsource hmemory (Bool.eq_false_iff.mpr fun hconstant => ?_)
      obtain rfl := himmediate hconstant
      rw [haccepts.immediate (h.1 hconstant)] at hconstant
      cases hconstant
  | pushq operand =>
    rw [patch]
    split
    · exact List.forall_mem_cons.mpr ⟨Encoding.fits_move (fun h => by cases h) rfl,
        List.forall_mem_singleton.mpr (Operand.isNarrow_iff.mpr rfl)⟩
    · next hwide =>
      exact List.forall_mem_singleton.mpr
        (Operand.isNarrow_iff.mpr (Bool.not_eq_true _ ▸ hwide))
  | _ => exact List.forall_mem_singleton.mpr trivial

/-- Regular code can be encoded once it is patched. -/
theorem Instruction.patched_code_isEncodable {code : List Instruction}
    (h : ∀ instruction ∈ code, instruction.IsRegular) :
    ∀ instruction ∈ code.flatMap Instruction.patch, instruction.IsEncodable := by
  intro part hpart
  obtain ⟨instruction, hinstruction, hpart⟩ := List.mem_flatMap.mp hpart
  exact isEncodable_patch (h instruction hinstruction) part hpart

/-- Instructions of which none can be encoded. -/
def Instruction.wideOperands : List Instruction := [
  .cmpq (.immediate 5000000000) (.immediate 3),
  .binary .imulq (.immediate (-5000000000)) (.deref .rbp (-8)),
  .movq (.deref .rbp (-16)) (.deref .rbp (-8)),
  .binary .movzbq (.byteRegister .al) (.deref .rbp (-8)),
  .leaq (.global "f") (.deref .r15 (-8)),
  .subq (.immediate 5000000000) (.deref .rbp (-8)),
  .pushq (.immediate 5000000000)]

/-- The instructions of `wideOperands` can be encoded once they are patched. -/
theorem Instruction.patched_code_isEncodable_wideOperands :
    (∀ instruction ∈ wideOperands, instruction.IsRegular) ∧
      ∀ instruction ∈ wideOperands.flatMap Instruction.patch, instruction.IsEncodable := by
  have hregular : ∀ instruction ∈ wideOperands, instruction.IsRegular := by
    simp [wideOperands, IsRegular, Operand.isImmediate, cmpq, movq, leaq, subq]
  exact ⟨hregular, patched_code_isEncodable hregular⟩

/-! ## Patching again -/

/-- Patching leaves the instruction as it is. -/
def Instruction.IsKept (instruction : Instruction) : Prop :=
  instruction.patch = [instruction]

namespace Encoding

variable {operator : BinaryOperator} {source destination : Operand}

/-- Which moves are patched to themselves. -/
theorem isKept_move (hne : source ≠ destination)
    (h : destination.isMemory = true → source.isMemory = false ∧ source.isWideImmediate = false) :
    (Instruction.movq source destination).IsKept := by
  have hstays : (destination.isMemory && (source.isMemory || source.isWideImmediate)) = false := by
    cases hmemory : destination.isMemory with
    | true => rw [(h hmemory).1, (h hmemory).2]; rfl
    | false => rfl
  change binary .movq source destination = _
  simp only [binary, hne, hstays, if_false, Bool.false_eq_true]

/-- A wide constant can be moved into a register. -/
theorem isKept_load (register : Register) (h : source.isWideImmediate = true) :
    (Instruction.movq source (.register register)).IsKept :=
  isKept_move (ne_register (.inr (isImmediate_of_isWideImmediate h)) register)
    fun h => by cases h

/-- Which other instructions are. -/
theorem Accepts.isKept (h : Accepts operator destination) (hsource : source.isWideImmediate = false)
    (hmemory : (source.isMemory && destination.isMemory) = false) :
    (Instruction.binary operator source destination).IsKept := by
  change binary operator source destination = _
  simp only [h.binary_eq, general, hsource, hmemory, Bool.or_false, if_false, Bool.false_eq_true]

/-- Computed in the scratch register, the address or byte of a wide constant is patched again. -/
theorem binary_rax_of_isWideImmediate (hoperator : operator ≠ .movq)
    (hwide : source.isWideImmediate = true) :
    binary operator source rax = [.movq source rax, .binary operator rax rax] := by
  simp only [(accepts_rax hoperator).binary_eq, general, hwide, Bool.true_or, if_true]

end Encoding

namespace Instruction

variable {instruction : Instruction} {code : List Instruction}

/-- What an instruction becomes stays as it is, unless it stores a wide constant. -/
theorem isKept_patch (h : ¬instruction.StoresWideConstant) :
    ∀ part ∈ instruction.patch, part.IsKept := by
  cases instruction with
  | binary operator source destination =>
    exact (Encoding.patches_binary operator source destination).forall_mem h
      (fun hne hmove _ => Encoding.isKept_move hne hmove)
      fun haccepts hsource hmemory _ => haccepts.isKept hsource hmemory
  | pushq operand =>
    rw [patch]
    split
    · next hwide =>
      exact List.forall_mem_cons.mpr
        ⟨Encoding.isKept_load _ hwide, List.forall_mem_singleton.mpr rfl⟩
    · next hwide => exact List.forall_mem_singleton.mpr (if_neg hwide)
  | _ => exact List.forall_mem_singleton.mpr rfl

/-- Code whose instructions stay stays. -/
theorem flatMap_patch_of_isKept (h : ∀ instruction ∈ code, instruction.IsKept) :
    code.flatMap patch = code :=
  (List.flatMap_congr h).trans (List.flatMap_singleton' code)

/-- The instruction, patched twice. -/
def repatch (instruction : Instruction) : List Instruction :=
  instruction.patch.flatMap patch

/-- Patching twice is patching once, unless a wide constant is stored. -/
theorem repatch_eq_patch (h : ¬instruction.StoresWideConstant) :
    instruction.repatch = instruction.patch :=
  flatMap_patch_of_isKept (isKept_patch h)

/-- The second round makes the code longer, and the result stays. -/
theorem StoresWideConstant.repatch (h : instruction.StoresWideConstant) :
    instruction.patch.length < instruction.repatch.length ∧
      ∀ part ∈ instruction.repatch, part.IsKept := by
  obtain @⟨operator, source, destination, hoperator, hwide, hmemory⟩ := h
  have hmove : operator ≠ .movq := by rcases hoperator with rfl | rfl <;> decide
  have hstore : (movq Encoding.rax destination).IsKept :=
    Encoding.isKept_move (Encoding.ne_register (.inl hmemory) _).symm fun _ => ⟨rfl, rfl⟩
  have hscratch : (binary operator Encoding.rax Encoding.rax).IsKept :=
    (Encoding.accepts_rax hmove).isKept rfl rfl
  have hpatch : (binary operator source destination).patch =
      [.binary operator source Encoding.rax, .movq Encoding.rax destination] :=
    Encoding.binary_of_isMemory hoperator hmemory
  have hrepatch : (binary operator source destination).repatch = [.movq source Encoding.rax,
      .binary operator Encoding.rax Encoding.rax, .movq Encoding.rax destination] := by
    rw [Instruction.repatch, hpatch, List.flatMap_cons, List.flatMap_singleton, hstore]
    exact congrArg (· ++ _) (Encoding.binary_rax_of_isWideImmediate hmove hwide)
  rw [hpatch, hrepatch]
  exact ⟨Nat.lt_succ_self 2, List.forall_mem_cons.mpr ⟨Encoding.isKept_load _ hwide,
    List.forall_mem_cons.mpr ⟨hscratch, List.forall_mem_singleton.mpr hstore⟩⟩⟩

/-- Patching again drops no instruction. -/
theorem length_patch_le (instruction : Instruction) :
    instruction.patch.length ≤ instruction.repatch.length := by
  by_cases h : instruction.StoresWideConstant
  · exact Nat.le_of_lt h.repatch.1
  · exact Nat.le_of_eq (congrArg List.length (repatch_eq_patch h).symm)

/-- Patching once more only changes instructions that store a wide constant. -/
theorem repatch_eq_patch_iff :
    instruction.repatch = instruction.patch ↔ ¬instruction.StoresWideConstant := by
  refine ⟨fun h hstores => ?_, repatch_eq_patch⟩
  have hlength := hstores.repatch.1
  rw [h] at hlength
  exact Nat.lt_irrefl _ hlength

/-- A third round changes nothing. -/
theorem flatMap_patch_repatch (instruction : Instruction) :
    instruction.repatch.flatMap patch = instruction.repatch := by
  refine flatMap_patch_of_isKept ?_
  by_cases h : instruction.StoresWideConstant
  · exact h.repatch.2
  · rw [repatch_eq_patch h]
    exact isKept_patch h

end Instruction

/-- Longer pieces make longer lists. -/
theorem length_flatMap_le {α β : Type} {f g : α → List β}
    (h : ∀ a, (f a).length ≤ (g a).length) (as : List α) :
    (as.flatMap f).length ≤ (as.flatMap g).length := by
  induction as with
  | nil => exact Nat.le_refl _
  | cons a as ih =>
    rw [List.flatMap_cons, List.flatMap_cons, List.length_append, List.length_append]
    exact Nat.add_le_add (h a) ih

/-- Two expansions of a list, of which one is never longer than the other, agree only if they agree
on each member. -/
theorem flatMap_eq_flatMap_iff {α β : Type} {f g : α → List β}
    (h : ∀ a, (f a).length ≤ (g a).length) {as : List α} :
    as.flatMap g = as.flatMap f ↔ ∀ a ∈ as, g a = f a := by
  refine ⟨fun heq => ?_, List.flatMap_congr⟩
  induction as with
  | nil => exact List.forall_mem_nil _
  | cons a as ih =>
    rw [List.flatMap_cons, List.flatMap_cons] at heq
    have hfirst := h a
    have hrest := length_flatMap_le h as
    have hlength := congrArg List.length heq
    rw [List.length_append, List.length_append] at hlength
    obtain ⟨ha, has⟩ := List.append_inj heq (by omega)
    exact List.forall_mem_cons.mpr ⟨ha, ih has⟩

namespace Function

variable {f g : Instruction → List Instruction}

/-- Expanding twice. -/
theorem expand_expand (f g : Instruction → List Instruction) (function : Function) :
    (function.expand f).expand g =
      function.expand fun instruction => (f instruction).flatMap g := by
  simp [expand, List.flatMap_assoc]

/-- Two expansions are the same if they are on each instruction. -/
theorem expand_eq_expand_iff {function : Function}
    (h : ∀ instruction, (f instruction).length ≤ (g instruction).length) :
    function.expand g = function.expand f ↔
      ∀ instruction ∈ function.instructions, g instruction = f instruction := by
  have hblock (block : Block) :
      ({ block with instructions := block.instructions.flatMap g } : Block) =
          { block with instructions := block.instructions.flatMap f } ↔
        ∀ instruction ∈ block.instructions, g instruction = f instruction := by
    rw [← flatMap_eq_flatMap_iff h, Block.mk.injEq, and_iff_right rfl]
  simp only [expand, Function.mk.injEq, List.map_inj_left, hblock, instructions, List.mem_flatMap,
    true_and, and_true]
  constructor
  · rintro h instruction ⟨block, hblock, hmem⟩
    exact h block hblock instruction hmem
  · exact fun h block hblock instruction hmem => h instruction ⟨block, hblock, hmem⟩

end Function

namespace Program

/-- Patching a program twice. -/
theorem patch_patch (program : Program) :
    program.patch.patch = ⟨program.functions.map (Function.expand Instruction.repatch)⟩ := by
  simp only [patch, List.map_map, Function.comp_def, Function.expand_expand]
  rfl

/-- Patching a patched program changes nothing exactly when no instruction of the program stored an
address or a byte of a wide constant; patching it once more never changes anything. -/
theorem patch_patch_eq_iff (program : Program) :
    (program.patch.patch = program.patch ↔ ∀ function ∈ program.functions,
      ∀ instruction ∈ function.instructions, ¬instruction.StoresWideConstant) ∧
    program.patch.patch.patch = program.patch.patch := by
  constructor
  · rw [patch_patch, patch, Program.mk.injEq, List.map_inj_left]
    simp only [Function.expand_eq_expand_iff Instruction.length_patch_le,
      Instruction.repatch_eq_patch_iff]
  · rw [patch_patch program]
    simp only [patch, List.map_map, Function.comp_def, Function.expand_expand,
      Instruction.flatMap_patch_repatch]

/-- A function that stores the address of a wide constant. -/
def wideAddress : Program := ⟨[{
  name := "f"
  blocks := [⟨"f.start", [.leaq (.immediate 1099511627776) (.deref .rbp (-8)), .retq]⟩] }]⟩

/-- Patching `wideAddress` again makes its code longer. -/
theorem patch_patch_wideAddress_ne : wideAddress.patch.patch ≠ wideAddress.patch := by
  intro h
  have hcode := congrArg (fun program => program.functions.map Function.instructions) h
  revert hcode
  decide

end Program

end TupleLang.X86
