import TupleLang.Proofs.Allowances

/-!
# The sizes of calls

No pass before instructions are selected adds arguments to a call.  If all calls of a program have
fewer than some number of arguments (`Program.callsBelow`), so have those of its flat form, those
with explicit allocations, and those of the control-flow program
(`Program.isCallBelow_toFlow`).
-/

namespace TupleLang

/-- Whether the expression is no call with `limit` arguments or more. -/
def Expr.isCallBelow (limit : Nat) : Expr → Bool
  | .call _ arguments => arguments.length < limit
  | _ => true

/-- Whether all calls in the program have fewer than `limit` arguments. -/
def Program.callsBelow (limit : Nat) (program : Program) : Bool :=
  program.every (·.isCallBelow limit) fun _ => true

/-- Whether the statement is no call with `limit` arguments or more. -/
def Flow.Stmt.isCallBelow (limit : Nat) : Flow.Stmt → Bool
  | .assign _ (.call _ arguments) | .tailCall _ arguments => arguments.length < limit
  | _ => true

/-- No statement is a call with `limit` arguments or more. -/
def Flow.AreBelow (limit : Nat) (code : List Flow.Stmt) : Prop :=
  ∀ st ∈ code, st.isCallBelow limit = true

/-- All globals may be read, but calls have fewer than `limit` arguments. -/
def Allowance.callsBelow (limit : Nat) : Allowance where
  calls count := count < limit
  globals _ := true

variable {limit : Nat} {program : Program} {s s' : NameSupply}

/-- Small calls are an allowance. -/
theorem Program.callsBelow_eq_within (limit : Nat) (program : Program) :
    program.callsBelow limit = program.within (.callsBelow limit) := by
  have hsame (e : Expr) : e.isCallBelow limit = e.isWithin (.callsBelow limit) := by
    cases e <;> rfl
  rw [callsBelow, within, funext hsame]

/-- The same in control flow. -/
theorem Flow.Stmt.isCallBelow_eq_isWithin (limit : Nat) (st : Flow.Stmt) :
    st.isCallBelow limit = st.isWithin (.callsBelow limit) := by
  cases st with
  | assign target value => cases value <;> rfl
  | _ => rfl

/-- Flattening keeps calls small. -/
theorem Program.callsBelow_flatten {flat : Program} (hbelow : program.callsBelow limit = true)
    (h : program.flatten s = .ok (flat, s')) : flat.callsBelow limit = true := by
  rw [Program.callsBelow_eq_within] at hbelow ⊢
  exact Program.within_flatten hbelow h

/-- So does making allocations explicit. -/
theorem Program.callsBelow_exposeAllocation {exposed : Program} {environment : TypeEnvironment}
    (hbelow : program.callsBelow limit = true)
    (h : program.exposeAllocation environment s = .ok (exposed, s')) :
    exposed.callsBelow limit = true := by
  rw [Program.callsBelow_eq_within] at hbelow ⊢
  exact Program.within_exposeAllocation ⟨rfl, rfl⟩ hbelow h

/-- No call of the control-flow program has more arguments than those of the program. -/
theorem Program.isCallBelow_toFlow {environment : TypeEnvironment} {flow : Flow.Program}
    (hbelow : program.callsBelow limit = true) (h : program.toFlow environment s = .ok (flow, s')) :
    ∀ function ∈ flow.functions, ∀ block ∈ function.blocks,
      Flow.AreBelow limit block.statements := by
  rw [Program.callsBelow_eq_within] at hbelow
  intro function hfunction block hblock st hst
  rw [Flow.Stmt.isCallBelow_eq_isWithin]
  exact Program.isWithin_toFlow hbelow h function hfunction block hblock st hst

end TupleLang
