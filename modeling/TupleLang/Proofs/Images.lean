import Mathlib.Data.List.Basic
import TupleLang.Liveness
import TupleLang.Machine.Basic

/-!
# Code in images

Where the instructions of a program stand in its image, and what its labels stand for.  The
instructions come one after the other in the order of the program (`Image.HasCode`), and a label
stands for the place of the last block that has it.  Inside of a function this is the block that the
analysis of the function takes for the label (`Liveness.exists_of_blockNumbers`).
-/

namespace TupleLang

open X86 (Instruction)

namespace Image

/-- The instructions stand in the image, one after the other, from a number on. -/
def HasCode (image : Image) (number : Nat) (code : List Instruction) : Prop :=
  ∀ i < code.length, image.code[number + i]? = code[i]?

instance (image : Image) (number : Nat) (code : List Instruction) :
    Decidable (image.HasCode number code) :=
  inferInstanceAs (Decidable (∀ i < code.length, image.code[number + i]? = code[i]?))

variable {image : Image} {number : Nat} {instruction : Instruction} {code code' : List Instruction}

/-- The first instruction. -/
theorem HasCode.head (h : image.HasCode number (instruction :: code)) :
    image.code[number]? = some instruction :=
  h 0 (Nat.succ_pos _)

/-- The code behind it. -/
theorem HasCode.tail (h : image.HasCode number (instruction :: code)) :
    image.HasCode (number + 1) code := by
  intro i hi
  rw [Nat.add_assoc, Nat.add_comm 1 i]
  exact h (i + 1) (Nat.succ_lt_succ hi)

/-- The first part of the code. -/
theorem HasCode.left (h : image.HasCode number (code ++ code')) : image.HasCode number code := by
  intro i hi
  rw [h i (by rw [List.length_append]; omega), List.getElem?_append_left hi]

/-- The part behind it. -/
theorem HasCode.right (h : image.HasCode number (code ++ code')) :
    image.HasCode (number + code.length) code' := by
  intro i hi
  rw [Nat.add_assoc, h (code.length + i) (by rw [List.length_append]; omega),
    List.getElem?_append_right (Nat.le_add_right _ _), Nat.add_sub_cancel_left]

/-- Code stands where it is found. -/
theorem hasCode_of_code_eq {front back : List Instruction}
    (h : image.code.toList = front ++ (code ++ back)) : image.HasCode front.length code := by
  intro i hi
  rw [← Array.getElem?_toList, h, List.getElem?_append_right (Nat.le_add_right _ _),
    Nat.add_sub_cancel_left, List.getElem?_append_left hi]

/-! ## The image of a program -/

/-- The number of instructions of some blocks. -/
def codeLength (blocks : List X86.Block) : Nat :=
  (blocks.flatMap X86.Block.instructions).length

/-- Blocks follow each other. -/
theorem code_foldl_addBlock (image : Image) (blocks : List X86.Block) :
    (blocks.foldl addBlock image).code.toList =
      image.code.toList ++ blocks.flatMap X86.Block.instructions := by
  induction blocks generalizing image with
  | nil => simp
  | cons block blocks ih =>
    rw [List.foldl_cons, ih, addBlock, List.flatMap_cons, Array.toList_append,
      List.append_assoc]

/-- Each of them adds its length. -/
theorem size_foldl_addBlock (image : Image) (blocks : List X86.Block) :
    (blocks.foldl addBlock image).code.size = image.code.size + codeLength blocks := by
  have hcode := congrArg List.length (code_foldl_addBlock image blocks)
  rwa [List.length_append, Array.length_toList, Array.length_toList] at hcode

/-- Blocks without a label leave it alone. -/
theorem labels_foldl_addBlock_of_notMem {image : Image} {blocks : List X86.Block} {label : Name}
    (h : label ∉ blocks.map X86.Block.label) :
    (blocks.foldl addBlock image).labels[label]? = image.labels[label]? := by
  induction blocks generalizing image with
  | nil => rfl
  | cons block blocks ih =>
    rw [List.map_cons, List.mem_cons, not_or] at h
    rw [List.foldl_cons, ih h.2, addBlock]
    simp [Std.ExtTreeMap.getElem?_insert, Ne.symm h.1]

/-- The last block with a label is what it stands for. -/
theorem labels_foldl_addBlock {image : Image} {left right : List X86.Block} {block : X86.Block}
    (h : block.label ∉ right.map X86.Block.label) :
    ((left ++ block :: right).foldl addBlock image).labels[block.label]? =
      some (image.code.size + codeLength left) := by
  rw [List.foldl_append, List.foldl_cons, labels_foldl_addBlock_of_notMem h, addBlock,
    size_foldl_addBlock]
  simp

variable {front back : List X86.Function} {function : X86.Function}

/-- The code of functions, block by block. -/
theorem flatMap_blocks (functions : List X86.Function) :
    (functions.flatMap X86.Function.blocks).flatMap X86.Block.instructions =
      functions.flatMap X86.Function.instructions := by
  rw [List.flatMap_assoc]
  rfl

/-- The code of a program, function by function. -/
theorem code_ofProgram (program : X86.Program) :
    (ofProgram program).code.toList = program.functions.flatMap X86.Function.instructions := by
  rw [ofProgram, code_foldl_addBlock, flatMap_blocks]
  rfl

/-- The instructions of a function follow those of the functions before it. -/
theorem hasCode_ofProgram (front back : List X86.Function) (function : X86.Function) :
    (ofProgram ⟨front ++ function :: back⟩).HasCode
      (front.flatMap X86.Function.instructions).length function.instructions := by
  have hcode := code_ofProgram ⟨front ++ function :: back⟩
  rw [List.flatMap_append, List.flatMap_cons] at hcode
  exact hasCode_of_code_eq hcode

/-- What a label of a function stands for, if no later block has it. -/
theorem label_ofProgram {left right : List X86.Block} {block : X86.Block}
    (hblocks : function.blocks = left ++ block :: right)
    (hright : block.label ∉ right.map X86.Block.label)
    (hback : block.label ∉ (back.flatMap X86.Function.blocks).map X86.Block.label) :
    (ofProgram ⟨front ++ function :: back⟩).label block.label =
      .ok ((front.flatMap X86.Function.instructions).length + codeLength left) := by
  have hlabel : (ofProgram ⟨front ++ function :: back⟩).labels[block.label]? =
      some (0 + codeLength (front.flatMap X86.Function.blocks ++ left)) := by
    have hall : (front ++ function :: back).flatMap X86.Function.blocks =
        (front.flatMap X86.Function.blocks ++ left) ++
          block :: (right ++ back.flatMap X86.Function.blocks) := by
      rw [List.flatMap_append, List.flatMap_cons, hblocks]
      simp
    rw [ofProgram, hall]
    refine labels_foldl_addBlock ?_
    rw [List.map_append, List.mem_append]
    exact not_or.mpr ⟨hright, hback⟩
  rw [label, hlabel, Nat.zero_add, codeLength, codeLength, List.flatMap_append, flatMap_blocks,
    List.length_append]

/-- Where all labels are different, each one stands for its own block. -/
theorem label_of_nodup {program : X86.Program}
    (hnodup : ((program.functions.flatMap X86.Function.blocks).map X86.Block.label).Nodup)
    {left right : List X86.Block} {block : X86.Block}
    (hblocks : program.functions.flatMap X86.Function.blocks = left ++ block :: right) :
    (ofProgram program).labels[block.label]? = some (codeLength left) ∧
      (ofProgram program).HasCode (codeLength left) block.instructions := by
  constructor
  · rw [hblocks, List.map_append, List.map_cons] at hnodup
    rw [ofProgram, hblocks, labels_foldl_addBlock
      (List.nodup_cons.mp (List.nodup_append.mp hnodup).2.1).1]
    exact congrArg some (Nat.zero_add _)
  · have hcode := code_ofProgram program
    rw [← flatMap_blocks, hblocks, List.flatMap_append, List.flatMap_cons] at hcode
    exact hasCode_of_code_eq hcode

end Image

namespace Liveness

/-- The number of a label is that of the last block with the label. -/
theorem exists_of_foldl_insert {blocks : List X86.Block} {start number : Nat} {label : Name}
    {numbers : Std.ExtTreeMap Name Nat}
    (h : ((blocks.zipIdx start).foldl
      (fun numbers (block, number) => numbers.insert block.label number) numbers)[label]? =
        some number) :
    numbers[label]? = some number ∧ label ∉ blocks.map X86.Block.label ∨
      ∃ left block right, blocks = left ++ block :: right ∧ start + left.length = number ∧
        block.label = label ∧ label ∉ right.map X86.Block.label := by
  induction blocks generalizing start numbers with
  | nil => exact .inl ⟨h, List.not_mem_nil⟩
  | cons block blocks ih =>
    rw [List.zipIdx_cons, List.foldl_cons] at h
    rcases ih h with ⟨hinsert, hnotMem⟩ | ⟨left, found, right, rfl, hnumber, hlabel, hright⟩
    · rw [Std.ExtTreeMap.getElem?_insert] at hinsert
      split at hinsert
      · rename_i heq
        rw [Std.LawfulEqCmp.compare_eq_iff_eq] at heq
        exact .inr ⟨[], block, blocks, rfl, Option.some.inj hinsert, heq, hnotMem⟩
      · rename_i hne
        rw [Std.LawfulEqCmp.compare_eq_iff_eq] at hne
        exact .inl ⟨hinsert, by simp [Ne.symm hne, hnotMem]⟩
    · refine .inr ⟨block :: left, found, right, rfl, ?_, hlabel, hright⟩
      rw [List.length_cons, ← hnumber]
      omega

/-- The number of a label is that of the last block with it. -/
theorem exists_of_blockNumbers {function : X86.Function} {label : Name} {number : Nat}
    (h : (blockNumbers function)[label]? = some number) :
    ∃ left block right, function.blocks = left ++ block :: right ∧ left.length = number ∧
      block.label = label ∧ label ∉ right.map X86.Block.label := by
  rcases exists_of_foldl_insert h with ⟨hempty, -⟩ | ⟨left, block, right, hblocks, hnumber, hlabel⟩
  · simp at hempty
  · exact ⟨left, block, right, hblocks, by omega, hlabel⟩

end Liveness

end TupleLang
