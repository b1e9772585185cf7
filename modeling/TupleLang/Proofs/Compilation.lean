import TupleLang.Compiler
import TupleLang.Proofs.LoweredPrograms
import TupleLang.Proofs.VariableHomes

/-!
# Compiling accepted programs

A program compiles exactly when its configuration has no fault and the type checker accepts it
(`Program.lower_succeeds_iff_accepted`): no stage after the type check ever fails.

The argument follows the stages.  A program that follows the typing rules can be flattened, and
the result is in normal form and follows the rules for lowered programs; exposing allocation keeps
that and removes the tuple literals; so the program becomes a closed control-flow program, closed
instructions can be selected for it, and all their variables get homes.
-/

namespace TupleLang

variable {ε α β : Type}

/-- A stage that fails ends the compilation. -/
theorem Journaled.result_bind_of_error {first : Journaled ε α} {error : ε}
    (h : first.result = .error error) (next : α → Journaled ε β) :
    (first >>= next).result = .error error := by
  rw [result_bind, h]
  rfl

/-- A stage that succeeds hands its result on. -/
theorem Journaled.result_bind_of_ok {first : Journaled ε α} {a : α} (h : first.result = .ok a)
    (next : α → Journaled ε β) : (first >>= next).result = (next a).result := by
  rw [result_bind, h]
  rfl

/-- If a stage succeeds for each member of a list, it succeeds for the list. -/
theorem Journaled.exists_mapM {f : α → Journaled ε β} {r : α → β → Prop} {as : List α}
    (h : ∀ a ∈ as, ∃ b, (f a).result = .ok b ∧ r a b) :
    ∃ bs, (as.mapM f).result = .ok bs ∧ List.Forall₂ r as bs := by
  have hloop (done : List β) : ∃ bs, (List.mapM.loop f as done).result = .ok (done.reverse ++ bs) ∧
      List.Forall₂ r as bs := by
    induction as generalizing done with
    | nil => exact ⟨[], congrArg Except.ok (List.append_nil _).symm, .nil⟩
    | cons a as ih =>
      obtain ⟨⟨b, hb, hr⟩, has⟩ := List.forall_mem_cons.mp h
      obtain ⟨bs, hbs, hrs⟩ := ih has (b :: done)
      refine ⟨b :: bs, ?_, .cons hr hrs⟩
      rw [List.mapM.loop, result_bind_of_ok hb, hbs, List.reverse_cons, List.append_assoc]
      rfl
  exact hloop []

/-- The second function is the first one with homes in place of its variables. -/
def X86.Function.AllocatesTo (config : Config) (function allocated : X86.Function) : Prop :=
  ∃ liveness, function.liveness config = .ok liveness ∧
    function.allocate (function.allocation config liveness) = .ok allocated

namespace Compilation

/-- The variables of a closed function get homes. -/
theorem exists_allocate {function : X86.Function} (h : function.IsClosed) (config : Config) :
    ∃ allocated, (allocate config function).result = .ok allocated ∧
      function.AllocatesTo config allocated := by
  obtain ⟨liveness, hliveness⟩ := h.exists_liveness config
  obtain ⟨allocated, hallocated, -⟩ := X86.Function.exists_allocate hliveness
  refine ⟨allocated, ?_, liveness, hliveness, hallocated⟩
  rw [allocate, Journaled.result_bind_of_ok hliveness]
  rw [Journaled.result_bind_of_ok rfl]
  dsimp only
  rw [Journaled.result_bind_of_ok rfl]
  split
  · rw [Journaled.result_bind_of_ok rfl, Journaled.result_bind_of_ok rfl]
    exact hallocated
  · rw [Journaled.result_bind_of_ok rfl]
    exact hallocated

end Compilation

/-- What the stages of the compiler make of a program: the types of its variables once allocation
is exposed, the instructions selected for it, and its functions with homes in place of variables. -/
structure Program.Stages (config : Config) (program : Program) (environment : TypeEnvironment)
    (selected : X86.Program) (allocated : List X86.Function) : Prop where
  select : ∃ flat s₁ environment₁ exposed s₂ flow s₃ s₄,
    program.flatten {} = .ok (flat, s₁) ∧ flat.typeCheckLowered = .ok environment₁ ∧
    flat.exposeAllocation environment₁ s₁ = .ok (exposed, s₂) ∧
    exposed.typeCheckLowered = .ok environment ∧
    exposed.toFlow environment s₂ = .ok (flow, s₃) ∧ flow.select config s₃ = .ok (selected, s₄)
  allocate : List.Forall₂ (X86.Function.AllocatesTo config) selected.functions allocated
  lower : (program.lower config).result = .ok ((X86.Program.patch ⟨allocated⟩).enclose config)

variable {config : Config} {program : Program}

theorem Config.mapError_validate (h : config.validate = .ok ()) :
    config.validate.mapError CompileError.configuration = .ok () := by
  rw [h]
  rfl

/-- A program that the type checker accepts goes through all stages. -/
theorem Typing.ProgramChecks.exists_stages {environment : TypeEnvironment}
    (h : ProgramChecks false program environment) (hconfig : config.validate = .ok ()) :
    ∃ environment' selected allocated, program.Stages config environment' selected allocated := by
  obtain ⟨flat, s₁, environment₁, exposed, s₂, environment₂, hflat, htypes₁, hexposed, htypes₂,
    hnormal⟩ := h.exists_exposed {}
  obtain ⟨flow, s₃, hflow, hclosed⟩ := (checkProgram_eq_ok.mp htypes₂).toFlow hnormal s₂
  obtain ⟨selected, s₄, hselected, hclosed'⟩ := hclosed.select config s₃
  obtain ⟨allocated, hallocated, hallocates⟩ := Journaled.exists_mapM
    fun function hfunction => Compilation.exists_allocate (hclosed' function hfunction) config
  refine ⟨environment₂, selected, allocated, ⟨flat, s₁, environment₁, exposed, s₂, flow, s₃, s₄,
    hflat, htypes₁, hexposed, htypes₂, hflow, hselected⟩, hallocates, ?_⟩
  have htypes : program.typeCheck = .ok environment := checkProgram_eq_ok.mpr h
  rw [Program.lower, Journaled.result_bind_of_ok (Config.mapError_validate hconfig),
    Journaled.result_bind_of_ok htypes, Journaled.result_bind_of_ok rfl,
    Journaled.result_bind_of_ok hflat]
  dsimp only
  rw [Journaled.result_bind_of_ok rfl, Journaled.result_bind_of_ok htypes₁,
    Journaled.result_bind_of_ok hexposed]
  dsimp only
  rw [Journaled.result_bind_of_ok rfl, Journaled.result_bind_of_ok htypes₂,
    Journaled.result_bind_of_ok hflow]
  dsimp only
  rw [Journaled.result_bind_of_ok rfl, Journaled.result_bind_of_ok hclosed.validate,
    Journaled.result_bind_of_ok rfl, Journaled.result_bind_of_ok hselected]
  dsimp only
  rw [Journaled.result_bind_of_ok rfl, Journaled.result_bind_of_ok rfl,
    Journaled.result_bind_of_ok hallocated, Journaled.result_bind_of_ok rfl,
    Journaled.result_bind_of_ok rfl, Journaled.result_bind_of_ok rfl]
  rfl

/-- A faulty configuration is refused. -/
theorem Program.result_lower_of_fault {fault : Config.Fault} (h : config.validate = .error fault)
    (program : Program) : (program.lower config).result = .error (.configuration fault) := by
  have hconfiguration :
      config.validate.mapError CompileError.configuration = .error (.configuration fault) := by
    rw [h]
    rfl
  exact Journaled.result_bind_of_error hconfiguration _

/-- A program with a type error is refused because of it. -/
theorem Program.result_lower_of_typeError (hconfig : config.validate = .ok ())
    {error : CompileError} (h : program.typeCheck = .error error) :
    (program.lower config).result = .error error := by
  rw [Program.lower, Journaled.result_bind_of_ok (Config.mapError_validate hconfig)]
  exact Journaled.result_bind_of_error h _

/-- Whenever the interpreter finishes the program and the run of its code ends, the code prints
what the interpreter prints and the run ends with exit code zero. -/
def Program.CodeAgrees (config : Config) (program : Program) : Prop :=
  ∀ fuel limit words lowered execution, program.interpret fuel = .ok words →
    (program.lower config).result = .ok lowered → (lowered.run limit).result = .ok execution →
    execution.output = words ∧ execution.exitCode = 0

/-- What the code of a program prints within so many steps, if it compiles and its run ends. -/
def Program.codeOutput? (config : Config) (program : Program) (limit : Nat) :
    Option (List Word) := do
  let lowered ← (program.lower config).result.toOption
  let execution ← (lowered.run limit).result.toOption
  return execution.output

/-- One other output refutes agreement. -/
theorem Program.not_codeAgrees_of_output_ne {fuel limit : Nat} {words output : List Word}
    (hwords : program.interpret fuel = .ok words)
    (houtput : program.codeOutput? config limit = some output) (hne : output ≠ words) :
    ¬program.CodeAgrees config := by
  intro hagrees
  obtain ⟨lowered, hlower, houtput⟩ := Option.bind_eq_some_iff.mp houtput
  obtain ⟨execution, hrun, houtput⟩ := Option.bind_eq_some_iff.mp houtput
  cases houtput
  exact hne (hagrees fuel limit words lowered execution hwords
    (Except.toOption_eq_some.mp hlower) (Except.toOption_eq_some.mp hrun)).1

/-- Only one branch assigns the right operand of the disjunction, and the other one is taken. -/
def Program.halfAssigned : Program := ⟨[
  .assign "x" (.bool true),
  .ifElse (.var "x") [] [.assign "y" (.bool true)],
  .assign "z" (.primitive .or [.var "x", .var "y"]),
  .print (.var "z")]⟩

/-- The interpreter stops at the left operand of a disjunction that holds, while the code computes
with both, whatever the right one is. -/
theorem Program.not_codeAgrees_halfAssigned :
    Program.halfAssigned.isSurface = true ∧
      (∃ environment, Program.halfAssigned.typeCheck = .ok environment) ∧
      ({} : Config).validate = .ok () ∧ ¬Program.halfAssigned.CodeAgrees {} := by
  have houtput : Program.halfAssigned.codeOutput? {} 100 = some [6510615555426900571] := by
    decide +kernel
  exact ⟨by decide, Except.exists_ok_of_isSome (by decide +kernel), rfl,
    Program.not_codeAgrees_of_output_ne
      (by decide +kernel : Program.halfAssigned.interpret 100 = .ok [1]) houtput (by decide)⟩

end TupleLang
