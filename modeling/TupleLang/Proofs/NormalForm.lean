import TupleLang.Proofs.ExposureInvariants
import TupleLang.Proofs.FlatInvariants

/-!
# The normal form of flat programs

`Stmt.isNormal` says what the statements of a flat program look like: which expressions are atoms,
which ones have atoms for operands, and that statements stand inside an expression only where a
loop must run them before each test.  Flattening brings every program into this form
(`Program.isNormal_flatten`), whether or not it is well typed.  Making allocations explicit keeps
the form and leaves no tuple literals in it (`Program.isNormal_exposeAllocation`).
-/

namespace TupleLang

open Stateful

mutual

/-- Whether the statement is in normal form, in which tuple literals may be assigned or not. -/
def Stmt.isNormal (literals : Bool) : Stmt → Bool
  | .assign _ value => value.isSimple && (literals || !value.isTuple)
  | .print value | .setField _ _ value => value.isAtomic
  | .ifElse condition positive negative =>
    condition.isSimpleTest && Stmt.areNormal literals positive && Stmt.areNormal literals negative
  | .whileDo (.begin statements value) body =>
    !statements.isEmpty && Stmt.areNormal literals statements && value.isSimpleTest &&
      Stmt.areNormal literals body
  | .whileDo condition body => condition.isSimpleTest && Stmt.areNormal literals body
  | .ret value => value.isAtomic || (value.isCall && value.isFlat)
  | .define _ _ _ body => Stmt.areNormal literals body
  | .collect _ => true

/-- Whether all statements of a list are in normal form. -/
def Stmt.areNormal (literals : Bool) : List Stmt → Bool
  | [] => true
  | statement :: statements => statement.isNormal literals && Stmt.areNormal literals statements

end

attribute [local simp] Stmt.isNormal Stmt.areNormal

/-- Whether the program is in normal form, in which tuple literals may be assigned or not. -/
def Program.isNormal (literals : Bool) (program : Program) : Bool :=
  Stmt.areNormal literals program.statements

variable {literals : Bool} {program : Program} {s s' : NameSupply}

/-- A block is normal if its statements are. -/
theorem Stmt.areNormal_iff {ss : List Stmt} :
    Stmt.areNormal literals ss = true ↔ ∀ s ∈ ss, s.isNormal literals = true := by
  induction ss with
  | nil => simp
  | cons s ss ih => simp [ih]

/-- A returned value holds no statements. -/
theorem Stmt.isSimple_of_isNormal_ret {value : Expr}
    (h : (Stmt.ret value).isNormal literals = true) : value.isSimple = true := by
  rw [Stmt.isNormal, Bool.or_eq_true, Bool.and_eq_true] at h
  rcases h with hatomic | ⟨hcall, hflat⟩
  · exact Expr.isSimple_of_isAtomic hatomic
  · cases value with
    | call target arguments => rwa [Expr.isSimple, hflat]
    | _ => cases hcall

/-- A test that a loop makes without statements of its own. -/
theorem Stmt.isNormal_whileDo {condition : Expr} {body : List Stmt}
    (hcondition : condition.isSimpleTest = true) (hbody : Stmt.areNormal literals body = true) :
    (Stmt.whileDo condition body).isNormal literals = true := by
  have hbegin := Expr.isSimple_of_isSimpleTest hcondition
  cases condition with
  | «begin» statements value => simp [Expr.isSimple, Expr.isBegin] at hbegin
  | _ =>
    simp only [Stmt.isNormal, hcondition, hbody]
    rfl

/-- The parts of a loop. -/
theorem Stmt.of_isNormal_whileDo {condition : Expr} {body : List Stmt}
    (hbegin : condition.isBegin = false)
    (h : (Stmt.whileDo condition body).isNormal literals = true) :
    condition.isSimpleTest = true ∧ Stmt.areNormal literals body = true := by
  cases condition with
  | «begin» => cases hbegin
  | _ => simpa only [Stmt.isNormal, Bool.and_eq_true] using h

namespace Flattened

/-- The condition of a loop whose statements are in normal form. -/
theorem isNormal_asLoopCondition {test : Flattened} {body : List Stmt}
    (hbindings : ∀ st ∈ test.bindings, st.isNormal true = true)
    (hvalue : test.value.isSimpleTest = true) (hbody : Stmt.areNormal true body = true) :
    (Stmt.whileDo test.asLoopCondition body).isNormal true = true := by
  unfold asLoopCondition
  cases hempty : test.bindings.isEmpty with
  | true => exact Stmt.isNormal_whileDo hvalue hbody
  | false =>
    have hbindings := Stmt.areNormal_iff.mpr hbindings
    simp only [Bool.false_eq_true, if_false, Stmt.isNormal, hempty, hbindings, hvalue, hbody]
    rfl

end Flattened

/-- The normal form is what flattening makes. -/
theorem flatInvariant_isNormal : FlatInvariant (fun _ => true) (fun _ => true) (fun _ => True)
    (fun _ st => st.isNormal true = true) where
  outside _ h := h
  inside _ _ _ _ h := h
  atom _ _ := trivial
  primitive _ _ _ _ _ _ _ := trivial
  call _ _ _ _ _ _ _ _ := trivial
  tuple _ _ := trivial
  global _ _ := trivial
  allocate _ _ := trivial
  assign _ target value hsimple _ := by simpa using hsimple
  ifElse _ test positive negative htest _ hpositive hnegative := by
    rw [Stmt.isNormal, htest, Stmt.areNormal_iff.mpr hpositive, Stmt.areNormal_iff.mpr hnegative]
    rfl
  whileDo test body hbindings htest _ hbody :=
    Flattened.isNormal_asLoopCondition hbindings htest (Stmt.areNormal_iff.mpr hbody)
  print _ h := h
  ret value _ hflat h := by
    rw [Stmt.isNormal, Bool.or_eq_true, Bool.and_eq_true]
    exact h.imp_right fun hcall => ⟨hcall, hflat⟩
  define _ _ _ _ h := Stmt.areNormal_iff.mpr h
  collect _ := rfl
  setField _ _ _ h := h

/-- The value of an expression that was flattened to an atom. -/
theorem Expr.isAtomic_flatten_value (e : Expr) {flattened : Flattened}
    (h : e.flatten true s = .ok (flattened, s')) : flattened.value.isAtomic = true :=
  (flatInvariant_isNormal.flatten.expr e (every_true.expr e) _ _ _ _ h).atom rfl

/-- Flattening brings every program into normal form. -/
theorem Program.isNormal_flatten {flat : Program} (h : program.flatten s = .ok (flat, s')) :
    flat.isNormal true = true :=
  Stmt.areNormal_iff.mpr (flatInvariant_isNormal.forall_mem_flatten program.every_true h)

/-! ## Explicit allocations -/

/-- The body of a function of a program in normal form. -/
theorem Program.areNormal_body (h : program.isNormal literals = true) {f : Function}
    (hf : f ∈ program.functions) : Stmt.areNormal literals f.body = true := by
  obtain ⟨st, hst, hdefines⟩ := List.mem_filterMap.mp hf
  have hst := Stmt.areNormal_iff.mp h st hst
  cases st with
  | define name parameters output body =>
    cases hdefines
    exact hst
  | _ => cases hdefines

/-- The code that builds tuples is in normal form, and without literals nothing else changes. -/
theorem exposureInvariant_isNormal : ExposureInvariant (fun _ st => st.isNormal true = true)
    (fun _ st => st.isNormal false = true) where
  save _ _ field hatomic := by
    cases field with
    | var name => rfl
    | const value => rfl
    | _ => cases hatomic
  reserveRoom _ used next limit bytes := by
    simp [Allocation.reserveRoom, Expr.isSimple, Expr.isFlat,
      Expr.isBegin, Expr.isTuple, Expr.isSimpleTest, Expr.isTest, Expr.isAtomic,
      Operator.isComparison, Expr.int]
  allocate _ _ _ _ := rfl
  setField _ _ _ _ := rfl
  keep _ st hkept hnormal := by
    cases st with
    | assign target value =>
      rw [Stmt.isNormal, Bool.and_eq_true] at hnormal ⊢
      exact ⟨hnormal.1, hkept⟩
    | ifElse | whileDo | define => cases hkept
    | _ => exact hnormal
  ifElse _ condition positive negative hnormal := by
    rw [Stmt.isNormal, Bool.and_eq_true, Bool.and_eq_true] at hnormal
    refine ⟨Stmt.areNormal_iff.mp hnormal.1.2, Stmt.areNormal_iff.mp hnormal.2, ?_⟩
    intro positive' negative' hpositive hnegative
    rw [Stmt.isNormal, hnormal.1.1, Stmt.areNormal_iff.mpr hpositive,
      Stmt.areNormal_iff.mpr hnegative]
    rfl
  whileBegin _ statements value body hnormal := by
    simp only [Stmt.isNormal, Bool.and_eq_true] at hnormal
    obtain ⟨⟨⟨hsome, hstatements⟩, htest⟩, hbody⟩ := hnormal
    refine ⟨Stmt.areNormal_iff.mp hstatements, Stmt.areNormal_iff.mp hbody, ?_⟩
    intro statements' body' hsome' hstatements' hbody'
    have hsome' : (!statements'.isEmpty) = true := by simpa using hsome' (by simpa using hsome)
    rw [Stmt.isNormal, hsome', Stmt.areNormal_iff.mpr hstatements', htest,
      Stmt.areNormal_iff.mpr hbody']
    rfl
  whileDo _ condition body hbegin hnormal := by
    obtain ⟨hcondition, hbody⟩ := Stmt.of_isNormal_whileDo hbegin hnormal
    exact ⟨Stmt.areNormal_iff.mp hbody, fun body' hbody' =>
      Stmt.isNormal_whileDo hcondition (Stmt.areNormal_iff.mpr hbody')⟩
  define _ _ _ _ hnormal :=
    ⟨Stmt.areNormal_iff.mp hnormal, fun _ hbody => Stmt.areNormal_iff.mpr hbody⟩

/-- Making allocations explicit leaves a program in normal form without literals. -/
theorem Program.isNormal_exposeAllocation {exposed : Program} {environment : TypeEnvironment}
    (hnormal : program.isNormal true = true)
    (h : program.exposeAllocation environment s = .ok (exposed, s')) :
    exposed.isNormal false = true :=
  Stmt.areNormal_iff.mpr
    (exposureInvariant_isNormal.forall_mem_exposeAllocation (Stmt.areNormal_iff.mp hnormal) h)

end TupleLang
