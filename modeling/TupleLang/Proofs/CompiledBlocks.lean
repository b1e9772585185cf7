import TupleLang.Proofs.CodeShapes
import TupleLang.Proofs.Compilation
import TupleLang.Proofs.Explication
import TupleLang.Proofs.SeparateHomes
import TupleLang.Proofs.SettledTypes

/-!
# Blocks of compiled functions

What the code of an accepted program is made of once its variables have homes.  Every function comes
from a function of the control-flow program (`X86.Function.Realizes`): its blocks are the selected
code of the blocks of that function, with homes in place of variables (`X86.PutsInHomes`).

The labels of its blocks are generated names and none of them is the label of its conclusion, while
the name of the function itself is not generated (`Flow.Function.HasOwnLabels`).
`Program.Stages.exists_realizes` collects all this for the functions of a program.
-/

namespace TupleLang

open Stateful
open X86 (Instruction Operand Register)

/-- What is related to something that is related to the members of a list one by one. -/
theorem forall₂_comp {α β γ : Type} {r : α → β → Prop} {r' : β → γ → Prop} {r'' : α → γ → Prop}
    {as : List α} {bs : List β} {cs : List γ} (h : List.Forall₂ r as bs)
    (h' : List.Forall₂ r' bs cs) (hcomp : ∀ a b c, r a b → r' b c → r'' a c) :
    List.Forall₂ r'' as cs := by
  induction h generalizing cs with
  | nil =>
    cases h'
    exact .nil
  | cons hfirst _ ih =>
    cases h' with
    | cons hfirst' hrest' => exact .cons (hcomp _ _ _ hfirst hfirst') (ih hrest')

variable {config : Config} {environment types : TypeEnvironment} {program : Program}
  {selected : X86.Program} {allocated : List X86.Function}

/-! ## Homes -/

/-- A valid configuration has parameter registers, and none of them is reserved. -/
theorem Config.parameters_of_validate (h : config.validate = .ok ()) :
    config.parameters ≠ [] ∧ ∀ register ∈ config.parameters, register ∉ reservedRegisters := by
  have hchecks : config.parameters ≠ [] ∧
      config.parameters.find? (!config.isCallerSaved ·) = none := by
    rw [validate] at h
    split at h
    · cases h
    next hfault =>
    unfold fault? at hfault
    -- the parameters are the sixth and the eighth thing to be checked
    iterate 5
      split at hfault
      · cases hfault
    split at hfault
    · cases hfault
    next hsome =>
    iterate 2
      split at hfault
      · cases hfault
    next hnone =>
    exact ⟨mt List.isEmpty_iff.mpr hsome, Option.eq_none_iff_forall_ne_some.mpr hnone⟩
  refine ⟨hchecks.1, fun register hregister => ?_⟩
  have hsaved := List.find?_eq_none.mp hchecks.2 register hregister
  rw [isCallerSaved] at hsaved
  refine (allocatable_of_validate h).2 register (List.mem_append_left _ ?_)
  simpa using hsaved

namespace X86

/-- Whether a variable may live there: in a register that is not reserved, in the frame, or on the
root stack. -/
def Operand.isHome : Operand → Bool
  | .register home => !Config.reservedRegisters.contains home
  | .deref base _ => base = .rbp ∨ base = .r15
  | _ => false

/-- The function replaces variables by homes, and nothing else. -/
structure PutsInHomes (place : Operand → Operand) : Prop where
  isHome (name : Name) : (place (.var name)).isHome = true
  immediate (value : Word) : place (.immediate value) = .immediate value
  register (register : Register) : place (.register register) = .register register
  byteRegister (low : ByteRegister) : place (.byteRegister low) = .byteRegister low
  deref (base : Register) (offset : Word) : place (.deref base offset) = .deref base offset
  global (name : Name) : place (.global name) = .global name

/-- What is the same for homes as for variables does not change. -/
theorem PutsInHomes.apply_eq {α : Type} {place : Operand → Operand} (hplace : PutsInHomes place)
    {f : Operand → α} (hf : ∀ home name, home.isHome = true → f home = f (.var name))
    (operand : Operand) : f (place operand) = f operand := by
  cases operand with
  | var name => exact hf _ name (hplace.isHome name)
  | immediate value => rw [hplace.immediate]
  | register full => rw [hplace.register]
  | byteRegister low => rw [hplace.byteRegister]
  | deref base offset => rw [hplace.deref]
  | global name => rw [hplace.global]

/-- Only the operands of an instruction matter. -/
theorem Instruction.mapOperands_congr {f g : Operand → Operand} {instruction : Instruction}
    (h : ∀ operand ∈ instruction.operands, f operand = g operand) :
    instruction.mapOperands f = instruction.mapOperands g := by
  cases instruction <;> simp_all [Instruction.operands, Instruction.mapOperands]

/-- The second function is the code of the first one, with homes in place of variables. -/
structure Function.Realizes (config : Config) (flow : Flow.Function) (function : X86.Function) :
    Prop where
  name_eq : function.name = flow.name
  saved : ∀ register ∈ function.frame.calleeSaved, register ∉ Config.reservedRegisters
  blocks : ∃ functionNames place, PutsInHomes place ∧
    ∀ block ∈ function.blocks, ∃ source ∈ flow.blocks, ∃ selected : X86.Block,
      Selection.IsCodeOf ⟨config, functionNames, flow.name.conclusionLabel⟩ source selected ∧
      block = ⟨selected.label, selected.instructions.map (·.mapOperands place)⟩

end X86

namespace Allocation

variable {config : Config} {graph : InterferenceGraph}

/-- Registers that are saved can be homes. -/
theorem mem_allocatable_of_mem_savedRegisters {colored : List (Name × Nat)} {register : Register}
    (h : register ∈ savedRegisters config colored) : register ∈ config.allocatable := by
  obtain ⟨⟨other, color⟩, hmem, hsome⟩ := List.mem_filterMap.mp h
  dsimp only at hsome
  split at hsome
  · cases hsome
    exact List.fst_mem_of_mem_zipIdx hmem
  · cases hsome

/-- Saved registers are not reserved. -/
theorem not_reserved_of_mem_calleeSaved (hconfig : config.validate = .ok ()) {register : Register}
    (h : register ∈ (ofGraph config graph).frame.calleeSaved) :
    register ∉ Config.reservedRegisters := by
  rw [ofGraph, ofColoring, calleeSaved_foldl_addHome] at h
  exact (Config.allocatable_of_validate hconfig).2 register
    (mem_allocatable_of_mem_savedRegisters h)

/-- Colors are homes. -/
theorem isHome_homeAt (hconfig : config.validate = .ok ()) (roots : Std.ExtTreeSet Name)
    (saved : Nat) (name : Name) (color : Nat) :
    (homeAt config roots saved name color).isHome = true := by
  obtain ⟨register, hregister, hhome⟩ | ⟨-, ⟨-, hhome⟩ | ⟨-, hhome⟩⟩ :=
    homeAt_cases config roots saved name color
  · have hreserved := (Config.allocatable_of_validate hconfig).2 register
      (List.mem_of_getElem? hregister)
    rw [hhome, Operand.isHome]
    simpa using hreserved
  · rw [hhome]
    rfl
  · rw [hhome]
    rfl

/-- An operand with its home in place of a variable.  Variables that no instruction mentions have
none, so any home will do for them. -/
def settle (allocation : Allocation) : Operand → Operand
  | .var name => allocation.homes.getD name (.register .rbx)
  | operand => operand

/-- A variable with a home is put there. -/
theorem settle_eq_place {allocation : Allocation} {name : Name} (h : name ∈ allocation.homes) :
    allocation.settle (.var name) = allocation.place (.var name) := by
  obtain ⟨home, hhome⟩ := Option.isSome_iff_exists.mp (Std.ExtTreeMap.mem_iff_isSome_getElem?.mp h)
  rw [settle, place, Std.ExtTreeMap.getD_eq_getD_getElem?, Std.ExtTreeMap.getD_eq_getD_getElem?,
    hhome]
  rfl

end Allocation

namespace X86.Function

variable {config : Config} {function allocated : X86.Function} {liveness : Liveness}

/-- Variables get homes, and other operands stay. -/
theorem putsInHomes_settle (hconfig : config.validate = .ok ()) :
    PutsInHomes (function.allocation config liveness).settle := by
  refine ⟨fun name => ?_, fun _ => rfl, fun _ => rfl, fun _ => rfl, fun _ _ => rfl, fun _ => rfl⟩
  rw [Allocation.settle, Std.ExtTreeMap.getD_eq_getD_getElem?]
  cases hhome : (function.allocation config liveness).homes[name]? with
  | none => rfl
  | some home =>
    obtain ⟨node, -, hhomeAt⟩ := exists_homeAt hhome
    rw [Option.getD_some, hhomeAt]
    exact Allocation.isHome_homeAt hconfig _ _ _ _

/-- An allocation only replaces variables by homes. -/
theorem AllocatesTo.exists_place (hconfig : config.validate = .ok ())
    (h : function.AllocatesTo config allocated) :
    allocated.name = function.name ∧
      (∀ register ∈ allocated.frame.calleeSaved, register ∉ Config.reservedRegisters) ∧
      ∃ place, PutsInHomes place ∧ allocated.blocks = function.blocks.map
        fun block => ⟨block.label, block.instructions.map (·.mapOperands place)⟩ := by
  obtain ⟨liveness, hliveness, hallocated⟩ := h
  have hhomes {instruction : Instruction} (hinstruction : instruction ∈ function.instructions)
      {name : Name} (hname : .var name ∈ instruction.operands) :
      name ∈ (function.allocation config liveness).homes :=
    mem_homes_interference hliveness hinstruction hname
  rw [allocate_eq_ok fun _ hinstruction _ => hhomes hinstruction] at hallocated
  cases hallocated
  refine ⟨rfl, fun register => Allocation.not_reserved_of_mem_calleeSaved hconfig,
    (function.allocation config liveness).settle, putsInHomes_settle hconfig, ?_⟩
  refine List.map_congr_left fun block hblock => congrArg (Block.mk block.label) ?_
  rw [← List.map_eq_flatMap]
  refine List.map_congr_left fun instruction hinstruction => Instruction.mapOperands_congr ?_
  intro operand hoperand
  cases operand with
  | var name =>
    have hmem : instruction ∈ function.instructions :=
      List.mem_flatMap.mpr ⟨block, hblock, hinstruction⟩
    exact (Allocation.settle_eq_place (hhomes hmem hoperand)).symm
  | _ => rfl

/-- What is selected and allocated realizes the function. -/
theorem Realizes.of_select (hconfig : config.validate = .ok ()) {flow : Flow.Function}
    {functionNames : Std.ExtTreeSet Name} {s s' : NameSupply}
    (hselect : flow.select config functionNames s = .ok (function, s'))
    (hallocates : function.AllocatesTo config allocated) : Realizes config flow allocated := by
  obtain ⟨hname, hblocks⟩ := Flow.Function.select_eq_ok hselect
  obtain ⟨hname', hsaved, place, hplace, hblocks'⟩ := hallocates.exists_place hconfig
  refine ⟨hname'.trans hname, hsaved, functionNames, place, hplace, ?_⟩
  rw [hblocks']
  refine List.forall_mem_map.mpr fun selected hselected => ?_
  obtain ⟨source, hsource, hcode⟩ := exists_of_forall₂ hblocks hselected
  exact ⟨source, hsource, selected, hcode, rfl⟩

end X86.Function

/-- The function is made from a control-flow function: instructions are selected, and then its
variables get homes. -/
def X86.Function.ComesFrom (config : Config) (functionNames : Std.ExtTreeSet Name)
    (function : X86.Function) (flow : Flow.Function) : Prop :=
  ∃ selected s s', flow.select config functionNames s = .ok (selected, s') ∧
    selected.AllocatesTo config function

/-! ## Labels -/

namespace Name

/-- The characters of a start label. -/
theorem toList_startLabel (function : Name) :
    function.startLabel.toList = function.toList ++ separator :: "start".toList := by
  simp [startLabel, separator]

/-- The characters of the label of a conclusion. -/
theorem toList_conclusionLabel (function : Name) :
    function.conclusionLabel.toList = function.toList ++ separator :: "conclusion".toList := by
  simp [conclusionLabel, separator]

/-- Start labels are generated. -/
theorem isGenerated_startLabel (function : Name) : function.startLabel.isGenerated = true := by
  simp [isGenerated, toList_startLabel]

/-- Labels of conclusions are generated. -/
theorem isGenerated_conclusionLabel (function : Name) :
    function.conclusionLabel.isGenerated = true := by
  simp [isGenerated, toList_conclusionLabel]

/-- The label of a function's conclusion is no label from a supply. -/
theorem conclusionLabel_ne_nameAt (function : Name) (base : String) (number : Nat) :
    NameSupply.nameAt base number ≠ function.conclusionLabel := by
  intro h
  have hlist := congrArg String.toList h.symm
  rw [toList_conclusionLabel, NameSupply.toList_nameAt] at hlist
  obtain ⟨-, hdigits⟩ := NameSupply.append_cons_inj (by decide)
    (NameSupply.separator_notMem_toDigits number) hlist
  have hc : 'c' ∈ Nat.toDigits 10 number := hdigits ▸ (by decide)
  exact absurd (Nat.isDigit_of_mem_toDigits (by decide) (by decide) hc) (by decide)

/-- No start of a function is the conclusion of a function. -/
theorem startLabel_ne_conclusionLabel (function function' : Name) :
    function.startLabel ≠ function'.conclusionLabel := by
  intro h
  have hlist := congrArg String.toList h
  rw [toList_startLabel, toList_conclusionLabel] at hlist
  exact absurd (NameSupply.append_cons_inj (by decide) (by decide) hlist).2 (by decide)

end Name

/-- The name of the function is not generated.  The labels of its blocks are, and they differ from
the label of its conclusion. -/
structure Flow.Function.HasOwnLabels (function : Flow.Function) : Prop where
  name : function.name.isGenerated = false
  labels : ∀ label ∈ function.labels,
    label.isGenerated = true ∧ label ≠ function.name.conclusionLabel

/-- A function has labels of its own. -/
theorem Flow.hasOwnLabels_functionOf {name : Name} {parameters : List Name}
    {body : List TupleLang.Stmt} {s s' : NameSupply} {function : Flow.Function}
    (hname : name.isGenerated = false)
    (h : Flow.functionOf environment name parameters body s = .ok (function, s')) :
    function.HasOwnLabels := by
  obtain ⟨start, blocks, hblocks, rfl⟩ := Flow.functionOf_eq_ok h
  have hadds := Stmt.addsBlocks_toFlowBlock (addsBlocks_toFlow.stmts body) _ _ _ _ _ _ hblocks
  obtain ⟨-, added, hadded, -, hlabels⟩ := hadds
  rw [List.append_nil] at hadded
  subst hadded
  refine ⟨hname, List.forall_mem_cons.mpr ⟨?_, List.forall_mem_map.mpr fun block hblock => ?_⟩⟩
  · exact ⟨name.isGenerated_startLabel, name.startLabel_ne_conclusionLabel name⟩
  · obtain ⟨base, -, number, hlabel, -, -⟩ := hlabels block hblock
    rw [hlabel]
    exact ⟨NameSupply.isGenerated_nameAt base number, name.conclusionLabel_ne_nameAt base number⟩

/-- The functions of a control-flow program have their own labels if no function of the program has
a generated name. -/
theorem Program.hasOwnLabels_toFlow {flow : Flow.Program} {s s' : NameSupply}
    (hnames : ∀ f ∈ program.functions, f.name.isGenerated = false)
    (h : program.toFlow environment s = .ok (flow, s')) :
    ∀ function ∈ flow.functions, function.HasOwnLabels := by
  have hname : Name.entryPoint.isGenerated = false := by decide
  exact Program.forall_mem_toFlow
    (fun f hf _ _ _ => Flow.hasOwnLabels_functionOf (hnames f hf))
    (fun _ _ _ => Flow.hasOwnLabels_functionOf hname) h

/-! ## Programs -/

namespace Typing

/-- Functions of the program have types. -/
theorem ProgramChecks.contains_of_mem {lowered : Bool} {program : Program}
    {environment : TypeEnvironment} (h : ProgramChecks lowered program environment) {f : Function}
    (hf : f ∈ program.functions) : environment.functions.contains f.name = true := by
  rw [h.contains_functions]
  exact List.contains_iff_mem.mpr (List.mem_map_of_mem hf)

/-- Names in a program are not generated. -/
theorem isGenerated_of_mayBind {name : Name} (h : mayBind false name = true) :
    name.isGenerated = false := by
  rw [mayBind, Bool.and_eq_true, Bool.false_or] at h
  exact (Bool.not_eq_eq_eq_not).mp h.2

end Typing

/-- All stages know the same functions. -/
theorem Program.Stages.functions_eq (htypes : program.typeCheck = .ok types)
    (h : program.Stages config environment selected allocated) :
    environment.functions = types.functions := by
  obtain ⟨flat, s₁, environment₁, exposed, s₂, flow, s₃, s₄, hflat, htypes₁, hexposed, htypes₂,
    -, -⟩ := h.select
  obtain ⟨flat', s₁', environment₁', exposed', s₂', environment₂', ⟨hflat', hchecks₁', hcarries₁⟩,
    hexposed', hchecks₂', hcarries₂⟩ := (Typing.checkProgram_eq_ok.mp htypes).exists_carried {}
  cases hflat.symm.trans hflat'
  cases htypes₁.symm.trans (Typing.checkProgram_eq_ok.mpr hchecks₁')
  cases hexposed.symm.trans hexposed'
  cases htypes₂.symm.trans (Typing.checkProgram_eq_ok.mpr hchecks₂')
  exact hcarries₂.functions.trans hcarries₁.functions

/-- The control-flow program of an accepted program is closed, and the functions with homes in place
of variables come from its functions. -/
theorem Program.Stages.exists_flow (h : program.Stages config environment selected allocated) :
    ∃ flat s₁ environment₁ exposed s₂ flow s₃,
      program.flatten {} = .ok (flat, s₁) ∧
      flat.exposeAllocation environment₁ s₁ = .ok (exposed, s₂) ∧
      Typing.ProgramChecks true exposed environment ∧
      exposed.toFlow environment s₂ = .ok (flow, s₃) ∧ flow.IsClosed ∧
      List.Forall₂ (fun source function => X86.Function.ComesFrom config flow.functionNames function
        source) flow.functions allocated := by
  obtain ⟨flat, s₁, environment₁, exposed, s₂, flow, s₃, s₄, hflat, -, hexposed, htypes₂, hflow,
    hselect⟩ := h.select
  have hchecks₂ := Typing.checkProgram_eq_ok.mp htypes₂
  refine ⟨flat, s₁, environment₁, exposed, s₂, flow, s₃, hflat, hexposed, hchecks₂, hflow, ?_, ?_⟩
  · have hnormal := Program.isNormal_exposeAllocation (Program.isNormal_flatten hflat) hexposed
    obtain ⟨flow', s₃', hflow', hclosed⟩ := hchecks₂.toFlow hnormal s₂
    cases hflow.symm.trans hflow'
    exact hclosed
  · rw [Flow.Program.select, bind_pure_eq_ok] at hselect
    obtain ⟨functions, hfunctions, rfl⟩ := hselect
    refine forall₂_comp (forall₂_of_mapM hfunctions) h.allocate fun _ _ _ hcode hallocates => ?_
    obtain ⟨s, s', hcode⟩ := hcode
    exact ⟨_, s, s', hcode, hallocates⟩

/-- The names of functions are not generated. -/
theorem Program.Stages.isGenerated_name {exposed : Program} (htypes : program.typeCheck = .ok types)
    (h : program.Stages config environment selected allocated)
    (hchecks : Typing.ProgramChecks true exposed environment) :
    ∀ f ∈ exposed.functions, f.name.isGenerated = false := by
  intro f hf
  have hcontains := hchecks.contains_of_mem hf
  rw [h.functions_eq htypes] at hcontains
  exact Typing.isGenerated_of_mayBind
    ((Typing.checkProgram_eq_ok.mp htypes).mayBind_of_contains hcontains)

/-- The functions of an accepted program, their variables in homes, realize the functions of its
control-flow program. -/
theorem Program.Stages.exists_realizes (hconfig : config.validate = .ok ())
    (htypes : program.typeCheck = .ok types)
    (h : program.Stages config environment selected allocated) :
    ∃ flat s₁ environment₁ exposed s₂ flow s₃,
      program.flatten {} = .ok (flat, s₁) ∧
      flat.exposeAllocation environment₁ s₁ = .ok (exposed, s₂) ∧
      exposed.toFlow environment s₂ = .ok (flow, s₃) ∧ flow.IsClosed ∧
      (∀ function ∈ flow.functions, function.HasOwnLabels) ∧
      ∀ function ∈ allocated, ∃ source ∈ flow.functions,
        X86.Function.Realizes config source function := by
  obtain ⟨flat, s₁, environment₁, exposed, s₂, flow, s₃, hflat, hexposed, hchecks₂, hflow, hclosed,
    hfrom⟩ := h.exists_flow
  refine ⟨flat, s₁, environment₁, exposed, s₂, flow, s₃, hflat, hexposed, hflow, hclosed,
    Program.hasOwnLabels_toFlow (h.isGenerated_name htypes hchecks₂) hflow, ?_⟩
  intro function hfunction
  obtain ⟨source, hsource, selected, s, s', hcode, hallocates⟩ := exists_of_forall₂ hfrom hfunction
  exact ⟨source, hsource, .of_select hconfig hcode hallocates⟩

end TupleLang
