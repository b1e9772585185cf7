import TupleLang.Proofs.Compilation
import TupleLang.Proofs.Explication
import TupleLang.Proofs.SeparateHomes

/-!
# Homes that the collector finds

Whenever a collection may happen, every tuple that is still needed is in a root slot, where the
collector finds it, and root slots hold nothing else
(`Program.live_tuples_have_root_slots`).

A variable that holds a tuple and is live after a call becomes a root of the interference graph, and
roots interfere with all allocatable registers (`InterferenceGraph.interferes_root`).  So the color
of a root is none of a register, and its home is a root slot (`Allocation.exists_rootSlot`).
-/

namespace TupleLang

open X86 (Instruction Operand Register Frame)

/-! ## Roots of a graph -/

namespace InterferenceGraph

variable {config : Config} {types : Std.ExtTreeMap Name Ty}
  {rows : List (Instruction × List Location)} {name : Name}

/-- Roots interfere with all allocatable registers. -/
theorem interferes_root (h : name ∈ (ofRows config types rows).roots) {register : Register}
    (hregister : register ∈ config.allocatable) :
    (ofRows config types rows).Interferes (.var name) (.register register) := by
  refine interferes_ofRows.mpr ⟨nofun, .inl (List.mem_append_right _ ?_)⟩
  refine List.mem_flatMap.mpr ⟨name, Std.ExtTreeSet.mem_toList.mpr h, ?_⟩
  exact List.mem_map_of_mem hregister

end InterferenceGraph

namespace Allocation

variable {config : Config} {graph : InterferenceGraph} {name : Name} {node : Nat}

/-- The home of a root that interferes with all allocatable registers is a root slot of the
frame. -/
theorem exists_rootSlot (hwf : graph.WellFormed) (hnodup : config.allocatable.Nodup)
    (hroot : name ∈ graph.roots) (hnode : graph.find? (.var name) = some node)
    (hinterferes : ∀ register ∈ config.allocatable,
      graph.Interferes (.var name) (.register register)) :
    ∃ slot < (ofGraph config graph).frame.rootSlots,
      (ofGraph config graph).homes[name]? = some (Frame.rootSlot slot) := by
  have hhome := getElem?_homes_ofGraph hwf config hnode
  obtain ⟨register, hregister, hcase⟩ | ⟨hle, ⟨-, hcase⟩ | ⟨hnot, -⟩⟩ :=
    homeAt_cases config graph.roots (ofGraph config graph).frame.calleeSaved.length name
      ((graph.color config).getD node 0)
  · -- the register with this color is a neighbor, so it cannot have it
    obtain ⟨i, j, hi, hj, hmem⟩ := hinterferes register (List.mem_of_getElem? hregister)
    cases hnode.symm.trans hi
    exact absurd hcase (homeAt_ne_register hwf hnodup _ _ hj (hwf.color_ne config hmem).symm)
  · refine ⟨_, ?_, hhome.trans (congrArg some hcase)⟩
    have hentry : (name, (graph.color config).getD node 0) ∈
        coloredVariables graph (graph.color config) :=
      (mem_coloredVariables hwf).mpr ⟨node, hnode, rfl⟩
    exact lt_rootSlots_foldl_addHome (.inr ⟨_, hentry, hle, hroot, rfl⟩)
  · exact absurd hroot hnot

end Allocation

/-! ## Types of variables -/

/-- The variable of the function holds tuples. -/
def TypeEnvironment.HoldsTuple (environment : TypeEnvironment) (function name : Name) : Prop :=
  ∃ fields, (environment.variablesOf? function).bind (·[name]?) = some (.tuple fields)

variable {environment : TypeEnvironment}

theorem TypeEnvironment.holdsTuple_iff {function name : Name} :
    environment.HoldsTuple function name ↔
      (((environment.variablesOf? function).getD ∅)[name]?).any Ty.isTuple = true := by
  have htuple (ty? : Option Ty) : (∃ fields, ty? = some (.tuple fields)) ↔
      ty?.any Ty.isTuple = true := by
    cases ty? with
    | none => exact ⟨nofun, nofun⟩
    | some ty => cases ty <;> simp [Ty.isTuple]
  rw [HoldsTuple, htuple]
  cases environment.variablesOf? function with
  | none => simp
  | some known => rfl

/-- The functions of a control-flow program know the types of their variables. -/
theorem Program.variableTypes_toFlow {program : Program} {s s' : NameSupply} {flow : Flow.Program}
    (h : program.toFlow environment s = .ok (flow, s')) :
    ∀ function ∈ flow.functions,
      function.variableTypes = (environment.variablesOf? function.name).getD ∅ := by
  have hfunction {name : Name} {parameters : List Name} {body : List Stmt} {s s' : NameSupply}
      {function : Flow.Function}
      (h : Flow.functionOf environment name parameters body s = .ok (function, s')) :
      function.variableTypes = (environment.variablesOf? function.name).getD ∅ := by
    obtain ⟨start, blocks, -, rfl⟩ := Flow.functionOf_eq_ok h
    rfl
  exact Program.forall_mem_toFlow (fun _ _ _ _ _ => hfunction) (fun _ _ _ => hfunction) h

/-- Selected functions know the types of their variables as well. -/
theorem Flow.Program.variableTypes_select {config : Config} {flow : Flow.Program}
    (hflow : ∀ function ∈ flow.functions,
      function.variableTypes = (environment.variablesOf? function.name).getD ∅) {s s' : NameSupply}
    {selected : X86.Program} (h : flow.select config s = .ok (selected, s')) :
    ∀ function ∈ selected.functions,
      function.variableTypes = (environment.variablesOf? function.name).getD ∅ := by
  rw [Flow.Program.select, Stateful.bind_pure_eq_ok] at h
  obtain ⟨functions, hfunctions, rfl⟩ := h
  refine Stateful.forall_mem_of_mapM (fun f hf s function s' hfunction => ?_) hfunctions
  rw [Flow.Function.select, Stateful.bind_pure_eq_ok] at hfunction
  obtain ⟨blocks, -, rfl⟩ := hfunction
  exact hflow f hf

/-! ## Roots of a function -/

namespace X86.Function

variable {config : Config} {function allocated : X86.Function} {liveness : Liveness} {name : Name}

/-- The roots of a function are its tuples that are live after an instruction that may collect. -/
theorem mem_roots_interference : name ∈ (function.interference config liveness).roots ↔
    ∃ instruction live, (instruction, live) ∈ liveness.rows function ∧
      InterferenceGraph.mayCollect instruction = true ∧ .var name ∈ live ∧
      (function.variableTypes[name]?).any Ty.isTuple = true := by
  rw [interference, InterferenceGraph.mem_roots_ofRows]
  constructor
  · rintro ⟨row, hrow, hroot⟩
    obtain ⟨⟨instruction, live⟩, hmem, rfl⟩ := List.mem_map.mp hrow
    obtain ⟨hcollect, hlive, htuple⟩ := InterferenceGraph.mem_rootsAt.mp hroot
    exact ⟨instruction, live, hmem, hcollect, Std.ExtTreeSet.mem_toList.mp hlive, htuple⟩
  · rintro ⟨instruction, live, hrow, hcollect, hlive, htuple⟩
    exact ⟨_, List.mem_map_of_mem hrow, InterferenceGraph.mem_rootsAt.mpr
      ⟨hcollect, Std.ExtTreeSet.mem_toList.mpr hlive, htuple⟩⟩

/-- The home of a root is a root slot of the frame. -/
theorem exists_rootSlot (hconfig : config.validate = .ok ())
    (h : name ∈ (function.interference config liveness).roots)
    (hhas : (function.interference config liveness).Has (.var name)) :
    ∃ slot < (function.allocation config liveness).frame.rootSlots,
      (function.allocation config liveness).homes[name]? = some (Frame.rootSlot slot) := by
  obtain ⟨node, hnode⟩ := hhas
  exact Allocation.exists_rootSlot (wellFormed_interference config function liveness)
    (Config.allocatable_of_validate hconfig).1 h hnode
    fun register => InterferenceGraph.interferes_root h

/-- Only roots have homes below the top of the root stack. -/
theorem mem_roots_of_homes {offset : Word}
    (h : (function.allocation config liveness).homes[name]? = some (.deref .r15 offset)) :
    name ∈ (function.interference config liveness).roots := by
  obtain ⟨node, -, hhome⟩ := exists_homeAt h
  obtain ⟨register, -, hcase⟩ | ⟨-, ⟨hroot, -⟩ | ⟨-, hcase⟩⟩ :=
    Allocation.homeAt_cases config (function.interference config liveness).roots
      (function.allocation config liveness).frame.calleeSaved.length name
      (((function.interference config liveness).color config).getD node 0)
  · exact absurd (hhome.trans hcase) nofun
  · exact hroot
  · exact absurd (hhome.trans hcase) nofun

/-- What the collector can rely on in a function with homes in place of its variables: after every
call that may collect, the tuples that are live are in root slots of the frame, and only variables
that hold tuples are. -/
def HasCompleteRoots (config : Config) (environment : TypeEnvironment)
    (function allocated : X86.Function) : Prop :=
  ∃ liveness, function.liveness config = .ok liveness ∧
    function.allocate (function.allocation config liveness) = .ok allocated ∧
    (liveness.rows function).map Prod.fst = function.instructions ∧
    (∀ instruction live, (instruction, live) ∈ liveness.rows function →
      ((∃ label arguments, instruction = .callq label arguments ∧ label ≠ Name.printInt) ∨
        ∃ target arguments, instruction = .callIndirect target arguments) →
      ∀ name, .var name ∈ live → environment.HoldsTuple function.name name →
        ∃ slot < allocated.frame.rootSlots, (function.allocation config liveness).homes[name]? =
          some (.deref .r15 (-8 * (Word.ofCount slot + 1)))) ∧
    ∀ (name : Name) (offset : Word),
      (function.allocation config liveness).homes[name]? = some (.deref .r15 offset) →
        environment.HoldsTuple function.name name

/-- Calls may collect, except for printing. -/
theorem mayCollect_of_call {instruction : Instruction}
    (h : (∃ label arguments, instruction = .callq label arguments ∧ label ≠ Name.printInt) ∨
      ∃ target arguments, instruction = .callIndirect target arguments) :
    InterferenceGraph.mayCollect instruction = true := by
  obtain ⟨label, arguments, rfl, hlabel⟩ | ⟨target, arguments, rfl⟩ := h
  · exact bne_iff_ne.mpr hlabel
  · rfl

/-- The frame is that of the allocation. -/
theorem frame_allocate {allocation : Allocation}
    (h : function.allocate allocation = .ok allocated) : allocated.frame = allocation.frame := by
  rw [allocate] at h
  split at h
  · cases h
  · cases h
    rfl

/-- If a function knows the types of its variables, its roots are complete. -/
theorem AllocatesTo.hasCompleteRoots {environment : TypeEnvironment}
    (hconfig : config.validate = .ok ())
    (htypes : function.variableTypes = (environment.variablesOf? function.name).getD ∅)
    (h : function.AllocatesTo config allocated) :
    function.HasCompleteRoots config environment allocated := by
  obtain ⟨liveness, hliveness, hallocated⟩ := h
  refine ⟨liveness, hliveness, hallocated, map_fst_rows hliveness, ?_, ?_⟩
  · intro instruction live hrow hcall name hlive htuple
    have hroot : name ∈ (function.interference config liveness).roots := by
      rw [TypeEnvironment.holdsTuple_iff, ← htypes] at htuple
      exact mem_roots_interference.mpr
        ⟨instruction, live, hrow, mayCollect_of_call hcall, hlive, htuple⟩
    rw [frame_allocate hallocated]
    exact exists_rootSlot hconfig hroot
      ((has_interference hliveness).mpr (mem_locations_of_mem_rows hliveness hrow hlive))
  · intro name offset hhome
    obtain ⟨_, _, -, -, -, htuple⟩ := mem_roots_interference.mp (mem_roots_of_homes hhome)
    rw [TypeEnvironment.holdsTuple_iff, ← htypes]
    exact htuple

end X86.Function

/-- In the code of a program that the type checker accepts, the tuples that are live after a call
that may collect are in root slots, and root slots hold nothing but tuples. -/
theorem Program.live_tuples_have_root_slots {config : Config} (hconfig : config.validate = .ok ())
    {program : Program} {types : TypeEnvironment} (htypes : program.typeCheck = .ok types) :
    ∃ environment selected allocated, program.Stages config environment selected allocated ∧
      List.Forall₂ (X86.Function.HasCompleteRoots config environment) selected.functions
        allocated := by
  obtain ⟨environment, selected, allocated, hstages⟩ :=
    (Typing.checkProgram_eq_ok.mp htypes).exists_stages hconfig
  refine ⟨environment, selected, allocated, hstages, ?_⟩
  obtain ⟨flat, s₁, environment₁, exposed, s₂, flow, s₃, s₄, -, -, -, -, hflow, hselected⟩ :=
    hstages.select
  have hknown := Flow.Program.variableTypes_select (Program.variableTypes_toFlow hflow) hselected
  refine ((List.forall₂_and_left _ _).mpr ⟨hknown, hstages.allocate⟩).imp ?_
  exact fun function allocated ⟨hfunction, hallocates⟩ =>
    hallocates.hasCompleteRoots hconfig hfunction

/-- A tuple that is needed after another one has been allocated. -/
def Program.keptPair : Program := ⟨[
  .assign "t" (.tuple [.int 1, .int 2]),
  .assign "u" (.tuple [.int 3]),
  .print (.primitive .subscript [.var "t", .int 0])]⟩

/-- The allocation of the second tuple may collect, so the first one has a root slot. -/
theorem Program.live_tuples_have_root_slots_keptPair :
    ({} : Config).validate = .ok () ∧ ∃ types, Program.keptPair.typeCheck = .ok types ∧
      ∃ environment selected allocated,
        Program.keptPair.Stages {} environment selected allocated ∧
        List.Forall₂ (X86.Function.HasCompleteRoots {} environment) selected.functions allocated ∧
        (((X86.Program.patch ⟨allocated⟩).enclose {}).functions.any
          (·.frame.rootSlots == 1)) = true := by
  have hslots : ((Program.keptPair.lower {}).result.toOption.any fun lowered =>
      lowered.functions.any (·.frame.rootSlots == 1)) = true := by decide +kernel
  obtain ⟨types, htypes⟩ : ∃ types, Program.keptPair.typeCheck = .ok types :=
    Except.exists_ok_of_isSome (by decide +kernel)
  obtain ⟨environment, selected, allocated, hstages, hroots⟩ :=
    Program.live_tuples_have_root_slots (rfl : ({} : Config).validate = .ok ()) htypes
  rw [hstages.lower] at hslots
  exact ⟨rfl, types, htypes, environment, selected, allocated, hstages, hroots, hslots⟩

end TupleLang
