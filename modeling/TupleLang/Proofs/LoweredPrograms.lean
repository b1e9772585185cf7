import TupleLang.Proofs.ExposedTyping
import TupleLang.Proofs.FlatTyping

/-!
# From accepted programs to explicit allocations

The first two stages of a compilation always succeed on a program that follows the typing rules, and
what they produce follows the rules for lowered programs (`Typing.ProgramChecks.exists_exposed`).
The names that a stage takes are newer than all names before it, so the types of the program as
written are carried through both of them: every variable keeps its type, and whatever else has a
type afterwards is a generated name (`Program.lowering_extends_types`).
-/

namespace TupleLang

/-- Both environments know the same functions with the same types.  The second one gives every
variable of the first one the same type, and it gives types to generated names only besides. -/
structure TypeEnvironment.ExtendedBy (environment environment' : TypeEnvironment) : Prop where
  functions_eq : environment'.functions = environment.functions
  locals (function : Name) :
    Option.Rel (fun known known' : VariableTypes =>
        (∀ (name : Name) (ty : Ty), known[name]? = some ty → known'[name]? = some ty) ∧
        ∀ (name : Name) (ty : Ty), known'[name]? = some ty → known[name]? = none →
          name.isGenerated = true)
      (environment.variablesOf? function) (environment'.variablesOf? function)

namespace Typing

variable {environment environment' : TypeEnvironment} {lo hi : Nat} {program : Program}

/-- A stage leaves no types of names it has not taken. -/
theorem EnvironmentCarries.fresh (h : EnvironmentCarries lo hi environment environment')
    {function : Name} {known : VariableTypes}
    (hknown : environment'.variablesOf? function = some known) {name : Name}
    (hname : name.IsNewer hi) : known[name]? = none := by
  have hlocals := h.locals function
  rw [hknown] at hlocals
  cases hlocals' : environment.variablesOf? function with
  | none => rw [hlocals'] at hlocals; cases hlocals
  | some old =>
    rw [hlocals'] at hlocals
    cases hlocals with
    | some hcarries => exact hcarries.fresh hname

/-- A program that follows the rules can be flattened, its allocations can be made explicit, and
both results follow the rules for lowered programs, with types that are carried along. -/
theorem ProgramChecks.exists_carried (h : ProgramChecks false program environment)
    (s : NameSupply) :
    ∃ flat s₁ environment₁ exposed s₂ environment₂,
      (program.flatten s = .ok (flat, s₁) ∧ ProgramChecks true flat environment₁ ∧
        EnvironmentCarries s.issued s₁.issued environment environment₁) ∧
      flat.exposeAllocation environment₁ s₁ = .ok (exposed, s₂) ∧
      ProgramChecks true exposed environment₂ ∧
      EnvironmentCarries s₁.issued s₂.issued environment₁ environment₂ := by
  obtain ⟨flat, s₁, environment₁, hflat, hchecks₁, hcarries⟩ := h.flatten s
  have hfunctions : ∀ name : Name, environment₁.functions.contains name = true →
      ¬name.IsNewer s₁.issued := fun name hname =>
    not_isNewer_of_mayBind (h.mayBind_of_contains (hcarries.functions ▸ hname)) s₁.issued
  obtain ⟨exposed, s₂, environment₂, hexposed⟩ :=
    hchecks₁.exposeAllocation (Program.isNormal_flatten hflat) hfunctions fun _ _ hknown _ hname =>
      hcarries.fresh hknown hname
  exact ⟨flat, s₁, environment₁, exposed, s₂, environment₂, ⟨hflat, hchecks₁, hcarries⟩, hexposed⟩

/-- The first two stages succeed on a program that follows the typing rules, and the checker for
lowered programs accepts both results. -/
theorem ProgramChecks.exists_exposed (h : ProgramChecks false program environment)
    (s : NameSupply) :
    ∃ flat s₁ environment₁ exposed s₂ environment₂,
      program.flatten s = .ok (flat, s₁) ∧ flat.typeCheckLowered = .ok environment₁ ∧
      flat.exposeAllocation environment₁ s₁ = .ok (exposed, s₂) ∧
      exposed.typeCheckLowered = .ok environment₂ ∧ exposed.isNormal false = true := by
  obtain ⟨flat, s₁, environment₁, exposed, s₂, environment₂, ⟨hflat, hchecks₁, -⟩, hexposed,
    hchecks₂, -⟩ := h.exists_carried s
  exact ⟨flat, s₁, environment₁, exposed, s₂, environment₂, hflat,
    checkProgram_eq_ok.mpr hchecks₁, hexposed, checkProgram_eq_ok.mpr hchecks₂,
    Program.isNormal_exposeAllocation (Program.isNormal_flatten hflat) hexposed⟩

/-- A stage that carries types along only adds types of generated names. -/
theorem EnvironmentCarries.extendedBy (h : EnvironmentCarries lo hi environment environment') :
    environment.ExtendedBy environment' := by
  refine ⟨h.functions, fun function => ?_⟩
  have hlocals := h.locals function
  generalize environment.variablesOf? function = found at hlocals ⊢
  generalize environment'.variablesOf? function = found' at hlocals ⊢
  cases hlocals with
  | none => exact .none
  | @some known known' hcarries =>
    refine .some ⟨fun name ty hname => ?_, fun name ty hname hnew => ?_⟩
    · have hold : ¬name.IsNewer lo := by
        intro hnewer
        rw [hcarries.old hnewer] at hname
        cases hname
      rw [hcarries.same hold, hname]
    · by_cases hnewer : name.IsNewer lo
      · exact hnewer.isGenerated
      · rw [hcarries.same hnewer, hnew] at hname
        cases hname

end Typing

theorem TypeEnvironment.ExtendedBy.trans {first second third : TypeEnvironment}
    (h : first.ExtendedBy second) (h' : second.ExtendedBy third) : first.ExtendedBy third := by
  refine ⟨h'.functions_eq.trans h.functions_eq, fun function => ?_⟩
  have hlocals := h.locals function
  have hlocals' := h'.locals function
  generalize first.variablesOf? function = known at hlocals ⊢
  generalize second.variablesOf? function = known' at hlocals hlocals'
  generalize third.variablesOf? function = known'' at hlocals' ⊢
  cases hlocals with
  | none =>
    cases hlocals'
    exact .none
  | some hkeeps =>
    cases hlocals' with
    | some hkeeps' =>
      refine .some ⟨fun name ty hname => hkeeps'.1 name ty (hkeeps.1 name ty hname), ?_⟩
      intro name ty hname hnew
      rename_i middle _
      cases hmiddle : middle[name]? with
      | some ty' => exact hkeeps.2 name ty' hmiddle hnew
      | none => exact hkeeps'.2 name ty hname hmiddle

/-- A program that the type checker accepts can be flattened and its allocations can be made
explicit, with names from one new supply.  The checker for lowered programs accepts both results.
It finds the same types for all functions and for all variables of the program; any other variable
that it finds has a generated name. -/
theorem Program.lowering_extends_types {program : Program} {environment : TypeEnvironment}
    (h : program.typeCheck = .ok environment) :
    ∃ flat s₁ environment₁ exposed s₂ environment₂,
      program.flatten {} = .ok (flat, s₁) ∧ flat.typeCheckLowered = .ok environment₁ ∧
      flat.exposeAllocation environment₁ s₁ = .ok (exposed, s₂) ∧
      exposed.typeCheckLowered = .ok environment₂ ∧
      environment.ExtendedBy environment₁ ∧ environment.ExtendedBy environment₂ := by
  obtain ⟨flat, s₁, environment₁, exposed, s₂, environment₂, ⟨hflat, hchecks₁, hcarries₁⟩, hexposed,
    hchecks₂, hcarries₂⟩ := (Typing.checkProgram_eq_ok.mp h).exists_carried {}
  have hextended := hcarries₁.extendedBy
  exact ⟨flat, s₁, environment₁, exposed, s₂, environment₂, hflat,
    Typing.checkProgram_eq_ok.mpr hchecks₁, hexposed, Typing.checkProgram_eq_ok.mpr hchecks₂,
    hextended, hextended.trans hcarries₂.extendedBy⟩

/-- A function that swaps the fields of a pair, a test whose right operand is a call, and a tuple
that is only bound inside of an expression. -/
def Program.swappedPair : Program := ⟨[
  .define "swap" [("p", .tuple [.int, .bool])] (.tuple [.bool, .int])
    [.ret (.tuple [.primitive .subscript [.var "p", .int 1],
      .primitive .subscript [.var "p", .int 0]])],
  .assign "n" (.begin [.assign "q" (.tuple [.int 3, .bool true])]
    (.primitive .subscript [.var "q", .int 0])),
  .assign "b" (.primitive .or [.primitive .lt [.var "n", .int 0],
    .primitive .subscript [.call (.var "swap") [.var "q"], .int 0]]),
  .print (.var "b")]⟩

/-- Both stages take names for `swappedPair`; all its variables keep their types. -/
theorem Program.lowering_extends_types_swappedPair :
    ∃ environment, Program.swappedPair.typeCheck = .ok environment ∧
      (environment.variablesOf? Name.entryPoint).bind (·["q"]?) = some (.tuple [.int, .bool]) ∧
      ∃ flat s₁ environment₁ exposed s₂ environment₂,
        Program.swappedPair.flatten {} = .ok (flat, s₁) ∧ flat.typeCheckLowered = .ok environment₁ ∧
        flat.exposeAllocation environment₁ s₁ = .ok (exposed, s₂) ∧
        exposed.typeCheckLowered = .ok environment₂ ∧
        environment.ExtendedBy environment₁ ∧ environment.ExtendedBy environment₂ := by
  have htypes : (Program.swappedPair.typeCheck.toOption.any fun environment =>
      (environment.variablesOf? Name.entryPoint).bind (·["q"]?) = some (.tuple [.int, .bool])) =
        true := by decide +kernel
  obtain ⟨environment, hresult, htypes⟩ := Except.exists_ok_of_any htypes
  exact ⟨environment, hresult, of_decide_eq_true htypes, Program.lowering_extends_types hresult⟩

end TupleLang
