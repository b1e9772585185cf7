import TupleLang.Proofs.CallSizes
import TupleLang.Proofs.CallingConvention
import TupleLang.Proofs.CompiledBlocks
import TupleLang.Proofs.ScratchRegisters

/-!
# Patched segments of compiled blocks

Patched code overwrites `%rax` and `%r11`, which selected code uses too: for results and addresses
of functions, for truth values, and to address fields.  `X86.Patchable` is code in which this never
matters: it is made of straight pieces that survive, with some scratch registers unknown in between,
and of instructions that pass control on; those that take the word in `%rax` come only where it is
known.

The code of every statement is such code (`Selection.Shape.patchable`).  The size of a call matters
for one instruction: while `%rax` holds the result, the words of the arguments are given up, and
their number of bytes can be encoded if there were fewer than `2 ^ 28` arguments.  So the patched
form of a segment of a compiled block does what the segment does
(`Program.patched_segments_keep_meaning`).
-/

namespace TupleLang

open Stateful
open X86 (BinaryOperator Condition Instruction Operand Register Mirrors Survives PutsInHomes)

namespace X86

/-- The registers that patched code may overwrite. -/
def scratch : List Register :=
  [.rax, .r11]

/-- Whether the instruction uses the word in `%rax`: as the address of a function, or as the result
of this one. -/
def Instruction.takesResult (conclusion : Name) : Instruction → Bool
  | .callIndirect target _ => target = .register .rax
  | .jump label | .jumpIf _ label => label = conclusion
  | _ => false

/-- Code that may be patched piece by piece, if the registers that are unknown at its start are the
given ones: afterwards at most those of `after` are.  Where control is passed on only scratch
registers may be unknown; everything is known again where it comes back. -/
inductive Patchable (image : Image) (conclusion : Name) (after : List Register) :
    List Register → List Instruction → Prop
  | nil {unknown : List Register} (h : unknown ⊆ after) :
    Patchable image conclusion after unknown []
  | straight {unknown unknown' : List Register} {segment code : List Instruction}
      (hstraight : ∀ instruction ∈ segment, instruction.isStraight = true)
      (hsurvives : Survives image unknown unknown' segment)
      (hcode : Patchable image conclusion after unknown' code) :
    Patchable image conclusion after unknown (segment ++ code)
  | control {unknown : List Register} {instruction : Instruction} {code : List Instruction}
      (hcontrol : instruction.isStraight = false) (hscratch : unknown ⊆ scratch)
      (hresult : instruction.takesResult conclusion = true → .rax ∉ unknown)
      (hcode : Patchable image conclusion after [] code) :
    Patchable image conclusion after unknown (instruction :: code)

namespace Patchable

variable {image : Image} {conclusion : Name} {unknown unknown' after middle : List Register}
  {code code' : List Instruction}

/-- Fewer registers may be unknown. -/
theorem mono (h : Patchable image conclusion after unknown code) (hless : unknown' ⊆ unknown) :
    Patchable image conclusion after unknown' code := by
  cases h with
  | nil h => exact .nil (List.Subset.trans hless h)
  | straight hstraight hsurvives hcode =>
    exact .straight hstraight (hsurvives.mono hless (List.Subset.refl _)) hcode
  | control hcontrol hscratch hresult hcode =>
    exact .control hcontrol (List.Subset.trans hless hscratch)
      (fun htakes hmem => hresult htakes (hless hmem)) hcode

/-- Code can be patched piece by piece. -/
theorem append (h : Patchable image conclusion middle unknown code)
    (h' : Patchable image conclusion after middle code') :
    Patchable image conclusion after unknown (code ++ code') := by
  induction h with
  | nil hsubset => exact h'.mono hsubset
  | straight hstraight hsurvives _ ih =>
    rw [List.append_assoc]
    exact .straight hstraight hsurvives ih
  | control hcontrol hscratch hresult _ ih => exact .control hcontrol hscratch hresult ih

/-- A straight piece alone. -/
theorem of_survives (hstraight : ∀ instruction ∈ code, instruction.isStraight = true)
    (h : Survives image unknown after code) : Patchable image conclusion after unknown code := by
  rw [← List.append_nil code]
  exact .straight hstraight h (.nil (List.Subset.refl _))

/-- An instruction alone that passes control on. -/
theorem of_control {instruction : Instruction} (hcontrol : instruction.isStraight = false)
    (hscratch : unknown ⊆ scratch)
    (hresult : instruction.takesResult conclusion = true → .rax ∉ unknown) :
    Patchable image conclusion after unknown [instruction] :=
  .control hcontrol hscratch hresult (.nil (List.nil_subset _))

/-- What follows an instruction that passes control on starts with everything known. -/
theorem of_append_cons {before rest : List Instruction} {instruction : Instruction}
    (h : Patchable image conclusion after unknown code)
    (hcode : code = before ++ instruction :: rest) (hcontrol : instruction.isStraight = false) :
    Patchable image conclusion after [] rest := by
  induction h generalizing before with
  | nil => simp at hcode
  | @straight _ _ segment _ hstraight _ hrest ih =>
    rcases List.append_eq_append_iff.mp hcode with ⟨middle, rfl, hmiddle⟩ | ⟨middle, rfl, hmiddle⟩
    · exact ih hmiddle
    · cases middle with
      | nil =>
        have hcode : _ = [] ++ instruction :: rest := hmiddle.symm
        exact ih hcode
      | cons first middle =>
        -- a straight piece holds no such instruction
        cases hmiddle
        have hfirst := hstraight instruction (List.mem_append_right _ List.mem_cons_self)
        rw [hcontrol] at hfirst
        cases hfirst
  | control _ _ _ hrest ih =>
    cases before with
    | nil =>
      cases hcode
      exact hrest
    | cons first before =>
      cases hcode
      exact ih rfl

/-- The straight instructions at the start survive, as far as they go. -/
theorem exists_survives {segment rest : List Instruction}
    (h : Patchable image conclusion scratch unknown code) (hcode : code = segment ++ rest)
    (hsegment : ∀ instruction ∈ segment, instruction.isStraight = true)
    (hrest : ∀ instruction ∈ rest.head?, instruction.isStraight = false) :
    ∃ unknown', Survives image unknown unknown' segment ∧ unknown' ⊆ scratch ∧
      ∀ next ∈ rest.head?, next.takesResult conclusion = true → .rax ∉ unknown' := by
  induction h generalizing segment with
  | @nil unknown hsubset =>
    obtain ⟨rfl, rfl⟩ := List.append_eq_nil_iff.mp hcode.symm
    exact ⟨unknown, .nil unknown, hsubset, fun _ h => by cases h⟩
  | @straight _ _ piece _ hstraight hsurvives _ ih =>
    rcases List.append_eq_append_iff.mp hcode with ⟨middle, rfl, hmiddle⟩ | ⟨middle, rfl, hmiddle⟩
    · obtain ⟨-, hsegment⟩ := List.forall_mem_append.mp hsegment
      obtain ⟨unknown', hmiddle, hresult⟩ := ih hmiddle hsegment
      exact ⟨unknown', hsurvives.append hmiddle, hresult⟩
    · cases middle with
      | nil =>
        have hcode : _ = [] ++ rest := hmiddle.symm
        obtain ⟨unknown', hnil, hresult⟩ := ih hcode (List.forall_mem_nil _)
        refine ⟨unknown', ?_, hresult⟩
        have hall := hsurvives.append hnil
        rwa [List.append_nil, List.append_nil] at hall
      | cons first middle =>
        -- the segment would go on
        have hfirst := hstraight first (List.mem_append_right _ List.mem_cons_self)
        rw [hmiddle] at hrest
        rw [hrest first rfl] at hfirst
        cases hfirst
  | @control unknown instruction _ hcontrol hscratch hresult _ _ =>
    cases segment with
    | nil =>
      cases hcode
      refine ⟨unknown, .nil unknown, hscratch, fun next hnext => ?_⟩
      cases hnext
      exact hresult
    | cons first segment =>
      cases hcode
      have hfirst := hsegment instruction List.mem_cons_self
      rw [hcontrol] at hfirst
      cases hfirst

end Patchable

/-- The instructions between two that pass control on, or between one of them and an end of the
code. -/
structure IsSegment (before segment rest : List Instruction) : Prop where
  starts : ∀ instruction ∈ before.getLast?, instruction.isStraight = false
  straight : ∀ instruction ∈ segment, instruction.isStraight = true
  stops : ∀ instruction ∈ rest.head?, instruction.isStraight = false

/-- Every segment survives if the machines agree at its start. -/
theorem Patchable.segment {image : Image} {conclusion : Name}
    {before segment rest : List Instruction}
    (h : Patchable image conclusion scratch scratch (before ++ segment ++ rest))
    (hsegment : IsSegment before segment rest) :
    ∃ unknown, Survives image [] unknown segment ∧ unknown ⊆ scratch ∧
      ∀ next ∈ rest.head?, next.takesResult conclusion = true → .rax ∉ unknown := by
  rw [List.append_assoc] at h
  rcases List.eq_nil_or_concat' before with rfl | ⟨before, last, rfl⟩
  · exact (h.mono (List.nil_subset _)).exists_survives rfl hsegment.straight hsegment.stops
  · have hlast := hsegment.starts last List.getLast?_concat
    have hrest := h.of_append_cons (List.append_assoc _ _ _) hlast
    exact hrest.exists_survives rfl hsegment.straight hsegment.stops

/-- Patching keeps what the segments of the block do.  Whatever machine runs a segment, it can run
the patched segment too, and the two machines that come out agree in everything but the scratch
registers, and in `%rax` as well if the instruction after the segment takes the word in it. -/
def Block.SurvivesPatching (conclusion : Name) (block : Block) : Prop :=
  ∀ before segment rest, block.instructions = before ++ segment ++ rest →
    IsSegment before segment rest → ∀ image (machine result : Machine),
    machine.executeAll image segment = .ok result →
    ∃ result', machine.executeAll image (segment.flatMap Instruction.patch) = .ok result' ∧
      result.AgreesExcept scratch result' ∧
      ∀ next ∈ rest.head?, next.takesResult conclusion = true →
        result'.register .rax = result.register .rax

/-- So the segments of a block survive. -/
theorem Block.survivesPatching {block : Block} {conclusion : Name}
    (h : ∀ image, Patchable image conclusion scratch scratch block.instructions) :
    block.SurvivesPatching conclusion := by
  intro before segment rest hcode hsegment image machine result hexecute
  have hpatchable := h image
  rw [hcode] at hpatchable
  obtain ⟨unknown, hsurvives, hscratch, hresult⟩ := hpatchable.segment hsegment
  -- both machines start out as the same one
  obtain ⟨result', hexecute', hagrees⟩ :=
    hsurvives machine machine result (.refl [] machine) hexecute
  exact ⟨result', hexecute', hagrees.mono hscratch, fun next hnext htakes =>
    hagrees.register_eq .rax (hresult next hnext htakes)⟩

/-! ## Homes -/

namespace PutsInHomes

variable {place : Operand → Operand}

/-- Variables do not live in scratch registers. -/
theorem avoids_var (hplace : PutsInHomes place) (name : Name) :
    (place (.var name)).Avoids scratch := by
  have hhome := hplace.isHome name
  cases hoperand : place (.var name) with
  | register home =>
    rw [hoperand, Operand.isHome] at hhome
    refine List.forall_mem_singleton.mpr fun hmem => ?_
    rcases List.mem_pair.mp hmem with rfl | rfl <;> cases hhome
  | deref base offset =>
    rw [hoperand, Operand.isHome, decide_eq_true_eq] at hhome
    refine List.forall_mem_singleton.mpr ?_
    rcases hhome with rfl | rfl <;> decide
  | _ =>
    rw [hoperand] at hhome
    cases hhome

/-- Homes of values are no scratch registers. -/
theorem avoids_value (hplace : PutsInHomes place) {operand : Operand}
    (h : operand.isValue = true) : (place operand).Avoids scratch := by
  cases operand with
  | immediate value =>
    rw [hplace.immediate]
    exact List.forall_mem_nil _
  | var name => exact hplace.avoids_var name
  | _ => cases h

end PutsInHomes

/-- Homes do not matter to whether code is straight. -/
theorem Instruction.isStraight_mapOperands (f : Operand → Operand) (instruction : Instruction) :
    (instruction.mapOperands f).isStraight = instruction.isStraight := by
  cases instruction <;> rfl

/-- Code with homes in place of variables. -/
def settle (place : Operand → Operand) (code : List Instruction) : List Instruction :=
  code.map (·.mapOperands place)

/-- Homes are put in piece by piece. -/
theorem settle_append (place : Operand → Operand) (code code' : List Instruction) :
    settle place (code ++ code') = settle place code ++ settle place code' :=
  List.map_append

/-- Straight code stays straight. -/
theorem isStraight_settle {place : Operand → Operand} {code : List Instruction}
    (h : ∀ instruction ∈ code, instruction.isStraight = true) :
    ∀ instruction ∈ settle place code, instruction.isStraight = true :=
  List.forall_mem_map.mpr fun instruction hinstruction =>
    (instruction.isStraight_mapOperands place).trans (h instruction hinstruction)

end X86

open X86 (Patchable scratch settle)

/-! ## Values -/

namespace Selection

variable {image : Image} {place : Operand → Operand} {context : Context} {source : Operand}
  {code : List Instruction} {registers : List Register} {operands : List Operand}

/-- `%rax` may be overwritten. -/
theorem rax_mem_scratch : Register.rax ∈ scratch :=
  List.mem_cons_self

/-- `%r11` may be overwritten. -/
theorem r11_mem_scratch : Register.r11 ∈ scratch :=
  List.mem_cons_of_mem _ List.mem_cons_self

/-- Scratch registers are reserved. -/
theorem scratch_subset_reserved : scratch ⊆ Config.reservedRegisters := by
  decide

/-- A move between operands that do not depend on scratch registers. -/
theorem survives_move {destination : Operand} (hsource : (place source).Avoids scratch)
    (hdestination : (place destination).Avoids scratch) :
    Survives image scratch scratch (settle place [.movq source destination]) :=
  X86.survives_movq rax_mem_scratch hsource hdestination

/-- Avoiding scratch registers is avoiding `%rax`. -/
theorem avoids_rax {operand : Operand} (h : operand.Avoids scratch) : operand.Avoids [.rax] :=
  fun full hfull hmem => h full hfull (List.mem_singleton.mp hmem ▸ rax_mem_scratch)

/-- A field is moved while `%r11` is known. -/
theorem survives_access {destination : Operand} (hsource : (place source).Avoids [.rax])
    (hdestination : (place destination).Avoids [.rax]) :
    Survives image [.rax] scratch (settle place [.movq source destination]) :=
  (X86.survives_movq List.mem_cons_self hsource hdestination).mono (List.Subset.refl _)
    (List.cons_subset.mpr ⟨rax_mem_scratch, List.nil_subset _⟩)

/-- Remarks can be patched. -/
theorem patchable_remark (st : Flow.Stmt) :
    Patchable image context.conclusion scratch scratch (settle place (remark context st)) := by
  unfold remark
  split
  · exact .of_survives (List.forall_mem_singleton.mpr rfl) (X86.survives_comment _)
  · exact .nil (List.Subset.refl _)

variable (hplace : PutsInHomes place)
include hplace

/-- Loads of addresses survive. -/
theorem IsLoad.survives {instruction : Instruction} (h : IsLoad context instruction) :
    Survives image scratch scratch [instruction.mapOperands place] := by
  obtain ⟨function, temporary, -, rfl⟩ := h
  change Survives image scratch scratch [.leaq (place (.global function)) _]
  rw [hplace.global]
  exact X86.survives_leaq rax_mem_scratch (List.forall_mem_nil _) (hplace.avoids_var _) rfl

/-- Moves to variables survive. -/
theorem survives_moveUnlessSame (hsource : source.isValue = true) (target : Name) :
    Survives image scratch scratch (settle place (moveUnlessSame source (.var target))) := by
  unfold moveUnlessSame
  split
  · exact .nil scratch
  · exact survives_move (hplace.avoids_value hsource) (hplace.avoids_var target)

/-- Arithmetic on variables survives. -/
theorem survives_operation {operator : BinaryOperator} {operand : Operand}
    (hoperator : operator.isArithmetic = true) (hoperand : operand.isValue = true) (target : Name) :
    Survives image scratch scratch (settle place [.binary operator operand (.var target)]) :=
  X86.survives_arithmetic rax_mem_scratch (hplace.avoids_value hoperand) (hplace.avoids_var target)
    hoperator fun _ => r11_mem_scratch

/-! While the address of a tuple is in `%r11`, at most `%rax` is unknown. -/

/-- The address of a tuple is known once it is in `%r11`. -/
theorem survives_address (hsource : (place source).Avoids scratch) :
    Survives image scratch [.rax] (settle place [.movq source r11]) := by
  change Survives image scratch [.rax] [.movq (place source) (place r11)]
  rw [r11, hplace.register]
  exact X86.survives_movq_register hsource r11_mem_scratch (by decide)

/-- Fields are addressed through `%r11`, not `%rax`. -/
theorem avoids_field (index : Nat) : (place (field index)).Avoids [.rax] := by
  rw [field, hplace.deref]
  exact List.forall_mem_singleton.mpr (by decide)

/-- Allocation survives. -/
theorem survives_allocate (bytes : Nat) (fields : List Ty) (target : Name) :
    Survives image scratch scratch (settle place (allocate bytes fields (.var target))) := by
  have hfree : place (.global Name.freePointer) = .global Name.freePointer := hplace.global _
  have hglobal (unknown : List Register) :
      (place (.global Name.freePointer)).Avoids unknown := by
    rw [hfree]
    exact List.forall_mem_nil _
  have hconstant (value : Word) (unknown : List Register) :
      (place (.immediate value)).Avoids unknown := by
    rw [hplace.immediate]
    exact List.forall_mem_nil _
  have hheader : (place (.deref .r11 0)).Avoids [.rax] := by
    rw [hplace.deref]
    exact List.forall_mem_singleton.mpr (by decide)
  have hresult : (place r11).Avoids [.rax] := by
    rw [r11, hplace.register]
    exact List.forall_mem_singleton.mpr (by decide)
  refine (survives_address hplace (hglobal _)).append ?_
  refine .cons (X86.survives_arithmetic List.mem_cons_self (hconstant _ _) (hglobal _) rfl
    fun h => by cases h) ?_
  refine .cons (X86.survives_movq List.mem_cons_self (hconstant _ _) hheader) ?_
  exact survives_access hresult (avoids_rax (hplace.avoids_var target))

/-- The code that computes a value survives. -/
theorem Computes.survives {value : Flow.Operation} {target : Name}
    (h : Computes context value (.var target) code) :
    Survives image scratch scratch (settle place code) := by
  have htarget := hplace.avoids_var target
  cases h with
  | move hsource => exact survives_move (hplace.avoids_value hsource) htarget
  | global =>
    refine survives_move ?_ htarget
    rw [hplace.global]
    exact List.forall_mem_nil _
  | @address name _ =>
    change Survives image scratch scratch [.leaq (place (.global name)) _]
    rw [hplace.global]
    exact X86.survives_leaq rax_mem_scratch (List.forall_mem_nil _) htarget rfl
  | negation hsource =>
    rw [X86.settle_append]
    exact (survives_moveUnlessSame hplace hsource target).append (X86.survives_negq htarget)
  | operation hoperator hlhs hrhs =>
    rw [X86.settle_append]
    exact (survives_moveUnlessSame hplace hlhs target).append
      (survives_operation hplace hoperator hrhs target)
  | update hoperator hoperand => exact survives_operation hplace hoperator hoperand target
  | difference hoperand =>
    exact (X86.survives_negq htarget).cons (survives_operation hplace rfl hoperand target)
  | comparison condition hlhs hrhs =>
    refine .cons (X86.survives_cmpq rax_mem_scratch (hplace.avoids_value hrhs)
      (hplace.avoids_value hlhs) r11_mem_scratch) ?_
    change Survives image scratch scratch [.set condition (place (.byteRegister .al)),
      .binary .movzbq (place (.byteRegister .al)) _]
    rw [hplace.byteRegister]
    exact X86.survives_setAndExtend condition rax_mem_scratch htarget
  | field index htuple =>
    exact (survives_address hplace (hplace.avoids_value htuple)).append
      (survives_access (avoids_field hplace index) (avoids_rax htarget))
  | allocation bytes fields => exact survives_allocate hplace bytes fields target

/-! ## Calls -/

/-- A value in `%rax` is known. -/
theorem survives_result (hsource : source.isValue = true) :
    Survives image scratch [.r11] (settle place [.movq source rax]) := by
  change Survives image scratch [.r11] [.movq (place source) (place rax)]
  rw [rax, hplace.register]
  exact X86.survives_movq_register (hplace.avoids_value hsource) rax_mem_scratch (by decide)

/-- Loads of addresses can be patched. -/
theorem patchable_loads {loads : List Instruction}
    (hloads : ∀ instruction ∈ loads, IsLoad context instruction) :
    Patchable image context.conclusion scratch scratch (settle place loads) := by
  refine .of_survives (X86.isStraight_settle fun instruction h => (hloads instruction h).isStraight)
    (.of_forall (List.forall_mem_map.mpr fun instruction hinstruction => ?_))
  exact (hloads instruction hinstruction).survives hplace

/-- Arguments of the run-time system. -/
theorem patchable_argument (hsource : (place source).Avoids scratch) {register : Register}
    (hregister : register ∉ scratch) :
    Patchable image context.conclusion scratch scratch
      (settle place [.movq source (.register register)]) := by
  refine .of_survives (List.forall_mem_singleton.mpr rfl) (survives_move hsource ?_)
  rw [hplace.register]
  exact List.forall_mem_singleton.mpr hregister

section Passing

variable (hregisters : ∀ register ∈ registers, register ∉ Config.reservedRegisters)
include hregisters

/-- Copying parameters can be patched. -/
theorem patchable_copyParameters (parameters : List Name) :
    Patchable image context.conclusion scratch scratch
      (settle place (copyParameters registers parameters)) := by
  have hsource (index : Nat) : (place (argumentSource registers index)).Avoids scratch := by
    unfold argumentSource
    split
    · next register hregister =>
      rw [hplace.register]
      exact List.forall_mem_singleton.mpr fun hmem =>
        hregisters _ (List.mem_of_getElem? hregister) (scratch_subset_reserved hmem)
    · rw [hplace.deref]
      exact List.forall_mem_singleton.mpr (by decide)
  refine .of_survives (X86.isStraight_settle fun instruction hinstruction => ?_)
    (.of_forall (List.forall_mem_map.mpr fun instruction hinstruction => ?_))
  · obtain ⟨index, hindex, rfl⟩ := List.mem_mapIdx.mp hinstruction
    rfl
  · obtain ⟨index, hindex, rfl⟩ := List.mem_mapIdx.mp hinstruction
    exact survives_move (hsource index) (hplace.avoids_var _)

variable (hoperands : ∀ operand ∈ operands, operand.isValue = true)
include hoperands

/-- Passing arguments in registers survives. -/
theorem survives_passInRegisters :
    Survives image scratch scratch (settle place (passInRegisters registers operands)) := by
  refine .of_forall (List.forall_mem_map.mpr (List.forall_mem_map.mpr fun entry hentry => ?_))
  obtain ⟨hoperand, hregister⟩ := List.of_mem_zip hentry
  refine survives_move (hplace.avoids_value (hoperands _ hoperand)) ?_
  rw [hplace.register]
  exact List.forall_mem_singleton.mpr fun hmem =>
    hregisters _ hregister (scratch_subset_reserved hmem)

/-- So it can be patched. -/
theorem patchable_passInRegisters :
    Patchable image context.conclusion scratch scratch
      (settle place (passInRegisters registers operands)) :=
  .of_survives (X86.isStraight_settle fun _ => isStraight_of_mem_passInRegisters)
    (survives_passInRegisters hplace hregisters hoperands)

/-- Bringing arguments to their places survives. -/
theorem survives_setUp :
    Survives image scratch scratch (settle place (setUp registers operands)) := by
  have hpadding (count : Nat) : Survives image scratch scratch (settle place (padding count)) := by
    unfold padding
    split
    · change Survives image scratch scratch [.binary .subq (place (.immediate 8)) (place rsp)]
      rw [hplace.immediate, rsp, hplace.register]
      exact X86.survives_narrow rfl rfl (by decide)
    · exact .nil scratch
  have hpushes : Survives image scratch scratch
      (settle place ((operands.drop registers.length).reverse.map .pushq)) := by
    refine .of_forall (List.forall_mem_map.mpr (List.forall_mem_map.mpr fun operand hmem => ?_))
    have hoperand := hoperands operand (List.mem_of_mem_drop (List.mem_reverse.mp hmem))
    exact X86.survives_pushq rax_mem_scratch (by decide) (hplace.avoids_value hoperand)
  rw [setUp, X86.settle_append, X86.settle_append]
  exact ((hpadding _).append hpushes).append (survives_passInRegisters hplace hregisters hoperands)

end Passing

/-- The words of few enough arguments are given up without a scratch register. -/
theorem survives_release {count : Nat} (hcount : count + count % 2 < 2 ^ 28) :
    Survives image [] [] (settle place (release count)) := by
  unfold release
  split
  · change Survives image [] [] [.binary .addq (place (.immediate _)) (place rsp)]
    rw [hplace.immediate, rsp, hplace.register]
    exact X86.survives_narrow rfl (Word.isNarrow_eight_mul hcount) List.not_mem_nil
  · exact .nil []

variable (hne : context.config.parameters ≠ [])
  (hparameters : ∀ register ∈ context.config.parameters, register ∉ Config.reservedRegisters)
include hne hparameters

/-- The address of a function that is called is in `%rax` when it is, and afterwards everything is
known until the result is used. -/
theorem patchable_callCode {name : Name} (hoperands : ∀ operand ∈ operands, operand.isValue = true)
    (hcount : operands.length < 2 ^ 28) :
    Patchable image context.conclusion [] scratch
      (settle place (callCode context name operands)) := by
  have hsetUp : Survives image scratch scratch
      (settle place (setUp context.config.parameters operands)) :=
    survives_setUp hplace hparameters hoperands
  have hstraight : ∀ instruction ∈ settle place (setUp context.config.parameters operands),
      instruction.isStraight = true :=
    X86.isStraight_settle fun _ => isStraight_of_mem_setUp
  have hwords : (operands.drop context.config.parameters.length).length < 2 ^ 28 - 1 := by
    have hlength := List.length_pos_iff.mpr hne
    rw [List.length_drop]
    omega
  unfold callCode
  generalize (operands.drop context.config.parameters.length).length = words at hwords
  have hrelease : Patchable image context.conclusion [] [] (settle place (release words)) :=
    .of_survives (X86.isStraight_settle fun _ => X86.isStraight_of_mem_ite rfl)
      (survives_release hplace (by omega))
  by_cases hlabel : context.functionNames.contains name = true
  · rw [approach, transfer, if_pos hlabel, if_pos hlabel, List.append_nil, X86.settle_append]
    exact .straight hstraight hsetUp
      (.control rfl (List.Subset.refl _) (fun h => by cases h) hrelease)
  · rw [approach, transfer, if_neg hlabel, if_neg hlabel, X86.settle_append, X86.settle_append,
      List.append_assoc]
    refine .straight hstraight hsetUp (.straight (List.forall_mem_singleton.mpr rfl)
      (survives_result hplace rfl) (.control rfl ?_ (fun _ => by decide) hrelease))
    exact List.cons_subset.mpr ⟨r11_mem_scratch, List.nil_subset _⟩

/-! ## Statements -/

/-- The code of every statement may be patched. -/
theorem Shape.patchable {st : Flow.Stmt} (h : Shape context st code)
    (hlabels : ∀ label ∈ st.successors, label ≠ context.conclusion)
    (hcount : st.isCallBelow (2 ^ 28) = true) :
    Patchable image context.conclusion scratch scratch (settle place code) := by
  have hloads {loads : List Instruction}
      (hload : ∀ instruction ∈ loads, IsLoad context instruction) :
      Patchable image context.conclusion scratch scratch (settle place loads) :=
    patchable_loads hplace hload
  -- control is passed on; only a jump to the conclusion takes the word in `%rax`
  have hjump {label : Name} (hlabel : label ≠ context.conclusion) :
      Patchable image context.conclusion scratch scratch [.jump label] :=
    .of_control rfl (List.Subset.refl _) fun h => absurd (of_decide_eq_true h) hlabel
  have hleave {unknown : List Register} (hscratch : unknown ⊆ scratch) (hrax : .rax ∉ unknown) :
      Patchable image context.conclusion scratch unknown [.jump context.conclusion] :=
    .of_control rfl hscratch fun _ => hrax
  have hcall {label : Name} {used : List Register} :
      Patchable image context.conclusion scratch scratch [.callq label used] :=
    .of_control rfl (List.Subset.refl _) fun h => by cases h
  cases h with
  | compute hload hcode =>
    rw [X86.settle_append]
    exact (hloads hload).append
      (.of_survives (X86.isStraight_settle hcode.isStraight) (hcode.survives hplace))
  | @call target name arguments loads operands hload hoperands hlength =>
    have hoperandCount : operands.length < 2 ^ 28 := hlength ▸ of_decide_eq_true hcount
    rw [X86.settle_append, X86.settle_append]
    refine ((hloads hload).append
      (patchable_callCode hplace hne hparameters hoperands hoperandCount)).append ?_
    refine .of_survives (List.forall_mem_singleton.mpr rfl) ?_
    change Survives image [] scratch [.movq (place rax) _]
    rw [rax, hplace.register]
    exact (X86.survives_movq_fromRegister List.not_mem_nil fun _ _ => List.not_mem_nil).mono
      (List.Subset.refl _) (List.nil_subset _)
  | print hload hoperand =>
    rw [X86.settle_append]
    exact (hloads hload).append
      ((patchable_argument hplace (hplace.avoids_value hoperand) (by decide)).append hcall)
  | collect bytes =>
    have hroots : (place r15).Avoids scratch := by
      rw [r15, hplace.register]
      exact List.forall_mem_singleton.mpr (by decide)
    have hbytes : (place (.immediate (Word.ofCount bytes))).Avoids scratch :=
      hplace.avoids_value rfl
    exact (patchable_argument hplace hroots (by decide)).append
      ((patchable_argument hplace hbytes (by decide)).append hcall)
  | setField hload hoperand =>
    rw [X86.settle_append]
    refine (hloads hload).append (.of_survives (X86.isStraight_settle ?_) ?_)
    · exact List.forall_mem_cons.mpr ⟨rfl, List.forall_mem_singleton.mpr rfl⟩
    · exact (survives_address hplace (hplace.avoids_var _)).append
        (survives_access (avoids_rax (hplace.avoids_value hoperand)) (avoids_field hplace _))
  | goto label => exact hjump (hlabels label List.mem_cons_self)
  | @branch _ _ _ positive negative loads lhs rhs condition hload hlhs hrhs =>
    have hpositive := hlabels positive List.mem_cons_self
    have hnegative := hlabels negative (List.mem_cons_of_mem _ List.mem_cons_self)
    have hcompare : Survives image scratch scratch (settle place [.cmpq rhs lhs]) :=
      X86.survives_cmpq rax_mem_scratch (hplace.avoids_value hrhs) (hplace.avoids_value hlhs)
        r11_mem_scratch
    have hbranch : Patchable image context.conclusion scratch scratch
        [.jumpIf condition positive] :=
      .of_control rfl (List.Subset.refl _) fun h => absurd (of_decide_eq_true h) hpositive
    rw [X86.settle_append]
    exact (hloads hload).append (.straight (List.forall_mem_singleton.mpr rfl) hcompare
      (hbranch.append (hjump hnegative)))
  | ret hload hoperand =>
    rw [X86.settle_append]
    refine (hloads hload).append (.straight (List.forall_mem_singleton.mpr rfl)
      (survives_result hplace hoperand) (hleave ?_ (by decide)))
    exact List.cons_subset.mpr ⟨r11_mem_scratch, List.nil_subset _⟩
  | @finalCall name arguments loads operands hload hoperands hlength =>
    have hoperandCount : operands.length < 2 ^ 28 := hlength ▸ of_decide_eq_true hcount
    rw [X86.settle_append, X86.settle_append]
    exact ((hloads hload).append
      (patchable_callCode hplace hne hparameters hoperands hoperandCount)).append
        (hleave (List.nil_subset _) List.not_mem_nil)
  | tailCall hload hoperands =>
    rw [X86.settle_append, X86.settle_append]
    exact ((hloads hload).append (patchable_passInRegisters hplace hparameters hoperands)).append
      (.of_control rfl (List.Subset.refl _) fun h => by cases h)

/-- The code of statements can be patched. -/
theorem patchable_statements {sts : List Flow.Stmt}
    (hlabels : ∀ st ∈ sts, ∀ label ∈ st.successors, label ≠ context.conclusion)
    (hcount : Flow.AreBelow (2 ^ 28) sts) {s s' : NameSupply}
    (h : statements context sts s = .ok (code, s')) :
    Patchable image context.conclusion scratch scratch (settle place code) := by
  induction sts generalizing code s with
  | nil =>
    cases h
    exact .nil (List.Subset.refl _)
  | cons st sts ih =>
    obtain ⟨hlabel, hlabels⟩ := List.forall_mem_cons.mp hlabels
    obtain ⟨hbelow, hcount⟩ := List.forall_mem_cons.mp hcount
    rw [statements, bind₂_eq_ok] at h
    obtain ⟨first, s₁, rest, hfirst, hrest, rfl⟩ := h
    rw [X86.settle_append, X86.settle_append]
    exact ((patchable_remark st).append ((statement_shape hfirst).patchable hplace hne hparameters
      hlabel hbelow)).append (ih hlabels hcount hrest)

end Selection

/-! ## Blocks and programs -/

/-- Control continues at known labels only. -/
theorem Flow.IsCode.known_of_mem {known : Name → Prop} {code : List Flow.Stmt}
    (h : Flow.IsCode known code) : ∀ st ∈ code, ∀ label ∈ st.successors, known label := by
  induction h with
  | last _ _ hknown => exact List.forall_mem_singleton.mpr hknown
  | @cons st code hplain _ _ ih =>
    refine List.forall_mem_cons.mpr ⟨fun label hlabel => ?_, ih⟩
    cases st with
    | goto | branch => cases hplain
    | _ => cases hlabel

namespace X86.Function

variable {config : Config} {flow : Flow.Function} {function : X86.Function}

/-- The blocks of a compiled function may be patched. -/
theorem Realizes.patchable (hconfig : config.validate = .ok ())
    (h : Realizes config flow function) (hclosed : flow.IsClosed) (hlabels : flow.HasOwnLabels)
    (hcount : ∀ block ∈ flow.blocks, Flow.AreBelow (2 ^ 28) block.statements) (image : Image) :
    ∀ block ∈ function.blocks,
      Patchable image function.name.conclusionLabel scratch scratch block.instructions := by
  intro block hblock
  obtain ⟨functionNames, place, hplace, hblocks⟩ := h.blocks
  obtain ⟨hne, hparameters⟩ := Config.parameters_of_validate hconfig
  obtain ⟨source, hsource, selected, ⟨-, parameters, code, s, s', hcode, hinstructions⟩, rfl⟩ :=
    hblocks block hblock
  have hknown := (hclosed source hsource).known_of_mem
  have hapart : ∀ st ∈ source.statements, ∀ label ∈ st.successors,
      label ≠ flow.name.conclusionLabel := fun st hst label hlabel =>
    (hlabels.labels label (hknown st hst label hlabel)).2
  rw [h.name_eq]
  change Patchable image flow.name.conclusionLabel scratch scratch
    (settle place selected.instructions)
  rw [hinstructions, settle_append]
  exact (Selection.patchable_copyParameters hplace hparameters parameters).append
    (Selection.patchable_statements hplace hne hparameters hapart (hcount source hsource) hcode)

end X86.Function

/-- The type checker accepts the program, and no call has `2 ^ 28` arguments or more: then patching
keeps what all segments do of all blocks that the program has once its variables have homes. -/
theorem Program.patched_segments_keep_meaning {config : Config}
    (hconfig : config.validate = .ok ()) {program : Program} {types : TypeEnvironment}
    (htypes : program.typeCheck = .ok types) (hcalls : program.callsBelow (2 ^ 28) = true) :
    (∃ environment selected allocated, program.Stages config environment selected allocated) ∧
      ∀ environment selected allocated, program.Stages config environment selected allocated →
        ∀ function ∈ allocated, ∀ block ∈ function.blocks,
          block.SurvivesPatching function.name.conclusionLabel := by
  refine ⟨(Typing.checkProgram_eq_ok.mp htypes).exists_stages hconfig, ?_⟩
  intro environment selected allocated hstages function hfunction block hblock
  obtain ⟨flat, _, _, exposed, _, flow, _, hflat, hexposed, hflow, hclosed, hlabels, hrealizes⟩ :=
    hstages.exists_realizes hconfig htypes
  have hcount := Program.isCallBelow_toFlow (Program.callsBelow_exposeAllocation
    (Program.callsBelow_flatten hcalls hflat) hexposed) hflow
  obtain ⟨source, hsource, hrealized⟩ := hrealizes function hfunction
  exact X86.Block.survivesPatching fun image => hrealized.patchable hconfig
    (hclosed source hsource) (hlabels source hsource) (hcount source hsource) image block hblock

/-- Wide constants, a tuple, a call of a function that a variable holds, and more variables than
registers. -/
def Program.wideWords : Program := ⟨[
  .define "mix" [("a", .int), ("b", .int)] .int
    [.assign "c" (.primitive .mult [.var "b", .int 5000000000]),
      .ret (.primitive .add [.var "a", .var "c"])],
  .assign "f" (.var "mix"),
  .assign "t" (.tuple [.int 6000000000, .bool false]),
  .assign "u" (.primitive .eq [.primitive .subscript [.var "t", .int 0], .int 7000000000]),
  .ifElse (.var "u") []
    [.print (.call (.var "f") [.primitive .subscript [.var "t", .int 0], .int 7])]]⟩

/-- A single register for all variables. -/
def Config.oneRegister : Config where
  callerSaved := [.rdi]
  calleeSaved := []
  parameters := [.rdi]

/-- Patching keeps what the blocks of `wideWords` do. -/
theorem Program.patched_segments_keep_meaning_wideWords :
    Config.oneRegister.validate = .ok () ∧
      (∃ types, Program.wideWords.typeCheck = .ok types) ∧
      Program.wideWords.callsBelow (2 ^ 28) = true ∧
      ∃ environment selected allocated,
        Program.wideWords.Stages Config.oneRegister environment selected allocated ∧
        ∀ function ∈ allocated, ∀ block ∈ function.blocks,
          block.SurvivesPatching function.name.conclusionLabel := by
  have hconfig : Config.oneRegister.validate = .ok () := by rfl
  have hcalls : Program.wideWords.callsBelow (2 ^ 28) = true := by decide +kernel
  obtain ⟨types, htypes⟩ : ∃ types, Program.wideWords.typeCheck = .ok types :=
    Except.exists_ok_of_isSome (by decide +kernel)
  obtain ⟨⟨environment, selected, allocated, hstages⟩, hsurvives⟩ :=
    Program.patched_segments_keep_meaning hconfig htypes hcalls
  exact ⟨hconfig, ⟨types, htypes⟩, hcalls, environment, selected, allocated, hstages,
    hsurvives environment selected allocated hstages⟩

end TupleLang
