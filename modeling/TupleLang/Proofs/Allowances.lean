import TupleLang.Proofs.Exposure
import TupleLang.Proofs.WrittenOnce

/-!
# What calls and globals occur

No pass before instructions are selected adds arguments to a call, and the only globals that are
read because of a pass are those that tell how much room there is in the heap.  So if calls and
globals in a program are *within* an `Allowance` that has these two globals, so are those in its
flat form (`Program.within_flatten`), those with explicit allocations
(`Program.within_exposeAllocation`), and those of the control-flow program
(`Program.isWithin_toFlow`).
-/

namespace TupleLang

open Stateful

/-! ## Calls and globals -/

/-- Which calls and which globals may occur. -/
structure Allowance where
  /-- Whether calls may have so many arguments. -/
  calls : Nat → Bool
  /-- Whether the global may be read. -/
  globals : Name → Bool

/-- The allowance has the globals that an allocation reads. -/
structure Allowance.HasHeap (allowance : Allowance) : Prop where
  freePointer : allowance.globals Name.freePointer = true
  fromspaceEnd : allowance.globals Name.fromspaceEnd = true

/-- Whether the expression itself is no other call and no other global. -/
def Expr.isWithin (allowance : Allowance) : Expr → Bool
  | .call _ arguments => allowance.calls arguments.length
  | .global name => allowance.globals name
  | _ => true

/-- Whether all calls and globals in the expression are within the allowance. -/
def Expr.within (allowance : Allowance) (e : Expr) : Bool :=
  e.every (·.isWithin allowance) fun _ => true

/-- Whether all calls and globals in the statement are within the allowance. -/
def Stmt.within (allowance : Allowance) (st : Stmt) : Bool :=
  st.every (·.isWithin allowance) fun _ => true

/-- Whether all calls and globals in the program are within the allowance. -/
def Program.within (allowance : Allowance) (program : Program) : Bool :=
  program.every (·.isWithin allowance) fun _ => true

/-- Whether the statement is no other call and reads no other global. -/
def Flow.Stmt.isWithin (allowance : Allowance) : Flow.Stmt → Bool
  | .assign _ (.call _ arguments) | .tailCall _ arguments => allowance.calls arguments.length
  | .assign _ (.global name) => allowance.globals name
  | _ => true

variable {allowance : Allowance}

/-- What is allowed of a call and its parts. -/
theorem Expr.within_call {target : Expr} {arguments : List Expr} :
    (Expr.call target arguments).within allowance = true ↔
      allowance.calls arguments.length = true ∧
      target.within allowance = true ∧ ∀ e ∈ arguments, e.within allowance = true := by
  rw [Expr.within, Expr.every, Bool.and_eq_true, Bool.and_eq_true, Expr.everyIn_iff, and_assoc,
    Expr.isWithin]
  rfl

/-- What is allowed of a sequence and its parts. -/
theorem Expr.within_begin {statements : List Stmt} {value : Expr} :
    (Expr.begin statements value).within allowance = true ↔
      (∀ st ∈ statements, st.within allowance = true) ∧ value.within allowance = true := by
  have hown : (Expr.begin statements value).isWithin allowance = true := rfl
  rw [Expr.within, Expr.every, hown, Bool.true_and, Bool.and_eq_true, Stmt.everyIn_iff]
  rfl

/-- Atoms are always allowed. -/
theorem Expr.within_of_isAtomic {e : Expr} (h : e.isAtomic = true) :
    e.within allowance = true := by
  cases e with
  | var | const => rfl
  | _ => cases h

/-- So are lists of them. -/
theorem Expr.everyIn_of_isAtomic {es : List Expr} (h : es.all Expr.isAtomic = true) :
    Expr.everyIn (·.isWithin allowance) (fun _ => true) es = true :=
  Expr.everyIn_iff.mpr fun e he => Expr.within_of_isAtomic (List.all_eq_true.mp h e he)

/-- What is allowed of a conditional and its parts. -/
theorem Stmt.within_ifElse {condition : Expr} {positive negative : List Stmt} :
    (Stmt.ifElse condition positive negative).within allowance = true ↔
      condition.within allowance = true ∧ (∀ st ∈ positive, st.within allowance = true) ∧
        ∀ st ∈ negative, st.within allowance = true := by
  rw [Stmt.within, Stmt.every, Bool.true_and, Bool.and_eq_true, Bool.and_eq_true,
    Stmt.everyIn_iff, Stmt.everyIn_iff, and_assoc]
  rfl

/-- What is allowed of a loop and its parts. -/
theorem Stmt.within_whileDo {condition : Expr} {body : List Stmt} :
    (Stmt.whileDo condition body).within allowance = true ↔
      condition.within allowance = true ∧ ∀ st ∈ body, st.within allowance = true := by
  rw [Stmt.within, Stmt.every, Bool.true_and, Bool.and_eq_true, Stmt.everyIn_iff]
  rfl

/-! ## Flattening -/

/-- Flattening adds no arguments to calls and no globals. -/
theorem flatInvariant_within (allowance : Allowance) :
    FlatInvariant (·.isWithin allowance) (fun _ => true) (·.within allowance = true)
      (fun _ st => st.within allowance = true) where
  outside _ h := h
  inside _ _ _ _ h := h
  atom _ h := Expr.within_of_isAtomic h
  primitive _ _ _ _ hatoms _ _ := Expr.everyIn_of_isAtomic hatoms
  call _ _ _ _ hcount htarget hatoms hlength := by
    rw [Expr.isWithin, ← hlength] at hcount
    exact Expr.within_call.mpr ⟨hcount, Expr.within_of_isAtomic htarget,
      Expr.everyIn_iff.mp (Expr.everyIn_of_isAtomic hatoms)⟩
  tuple _ hatoms := Expr.everyIn_of_isAtomic hatoms
  global _ h := h
  allocate _ _ := rfl
  assign _ _ _ _ hvalue := hvalue
  ifElse _ _ _ _ _ htest hpositive hnegative :=
    Stmt.within_ifElse.mpr ⟨htest, hpositive, hnegative⟩
  whileDo test body hbindings _ hvalue hbody := by
    refine Stmt.within_whileDo.mpr ⟨?_, hbody⟩
    unfold Flattened.asLoopCondition
    split
    · exact hvalue
    · exact Expr.within_begin.mpr ⟨hbindings, hvalue⟩
  print _ h := Expr.within_of_isAtomic h
  ret _ hvalue _ _ := hvalue
  define _ _ _ _ h := Stmt.everyIn_iff.mpr h
  collect _ := rfl
  setField _ _ _ h := Expr.within_of_isAtomic h

variable {program : Program} {s s' : NameSupply} {environment : TypeEnvironment}

/-- Flattening keeps to what is allowed. -/
theorem Program.within_flatten {flat : Program} (hwithin : program.within allowance = true)
    (h : program.flatten s = .ok (flat, s')) : flat.within allowance = true := by
  exact Stmt.everyIn_iff.mpr ((flatInvariant_within allowance).forall_mem_flatten hwithin h)

/-! ## Explicit allocations -/

/-- The code that builds tuples calls nothing and reads the globals of the heap. -/
theorem exposureInvariant_within (hheap : allowance.HasHeap) :
    ExposureInvariant (fun _ st => st.within allowance = true)
      (fun _ st => st.within allowance = true) where
  save _ _ _ hatomic := Expr.within_of_isAtomic hatomic
  reserveRoom _ _ _ _ _ := by
    simp only [Allocation.reserveRoom, List.forall_mem_cons]
    exact ⟨hheap.freePointer, rfl, hheap.fromspaceEnd, rfl, List.forall_mem_nil _⟩
  allocate _ _ _ _ := rfl
  setField _ _ _ _ := rfl
  keep _ _ _ h := h
  ifElse _ _ _ _ h := by
    obtain ⟨hcondition, hpositive, hnegative⟩ := Stmt.within_ifElse.mp h
    exact ⟨hpositive, hnegative, fun _ _ hpositive hnegative =>
      Stmt.within_ifElse.mpr ⟨hcondition, hpositive, hnegative⟩⟩
  whileBegin _ _ _ _ h := by
    obtain ⟨hcondition, hbody⟩ := Stmt.within_whileDo.mp h
    obtain ⟨hstatements, hvalue⟩ := Expr.within_begin.mp hcondition
    exact ⟨hstatements, hbody, fun _ _ _ hstatements hbody =>
      Stmt.within_whileDo.mpr ⟨Expr.within_begin.mpr ⟨hstatements, hvalue⟩, hbody⟩⟩
  whileDo _ _ _ _ h := by
    obtain ⟨hcondition, hbody⟩ := Stmt.within_whileDo.mp h
    exact ⟨hbody, fun _ hbody => Stmt.within_whileDo.mpr ⟨hcondition, hbody⟩⟩
  define _ _ _ _ h := ⟨Stmt.everyIn_iff.mp h, fun _ hbody => Stmt.everyIn_iff.mpr hbody⟩

/-- So does making allocations explicit. -/
theorem Program.within_exposeAllocation (hheap : allowance.HasHeap) {exposed : Program}
    (hwithin : program.within allowance = true)
    (h : program.exposeAllocation environment s = .ok (exposed, s')) :
    exposed.within allowance = true := by
  exact Stmt.everyIn_iff.mpr
    ((exposureInvariant_within hheap).forall_mem_exposeAllocation (Stmt.everyIn_iff.mp hwithin) h)

/-! ## Control-flow programs -/

section Inside

variable {onExpr : Expr → Bool} {onStmt : Stmt → Bool}

/-- The statements inside of expressions. -/
theorem Expr.forall_mem_stmtsIn {es : List Expr} (h : Expr.everyIn onExpr onStmt es = true)
    (hes : ∀ e ∈ es, e.every onExpr onStmt = true → ∀ st ∈ e.stmts, st.every onExpr onStmt = true) :
    ∀ st ∈ Expr.stmtsIn es, st.every onExpr onStmt = true := by
  induction es with
  | nil => exact List.forall_mem_nil _
  | cons e es ih =>
    rw [Expr.everyIn, Bool.and_eq_true] at h
    obtain ⟨he, hes⟩ := List.forall_mem_cons.mp hes
    exact List.forall_mem_append.mpr ⟨he h.1, ih h.2 hes⟩

/-- The statements inside of statements. -/
theorem Stmt.forall_mem_stmtsIn {ss : List Stmt} (h : Stmt.everyIn onExpr onStmt ss = true)
    (hss : ∀ s ∈ ss, s.every onExpr onStmt = true → ∀ st ∈ s.stmts, st.every onExpr onStmt = true) :
    ∀ st ∈ Stmt.stmtsIn ss, st.every onExpr onStmt = true := by
  induction ss with
  | nil => exact List.forall_mem_nil _
  | cons s ss ih =>
    rw [Stmt.everyIn, Bool.and_eq_true] at h
    obtain ⟨hs, hss⟩ := List.forall_mem_cons.mp hss
    exact List.forall_mem_append.mpr ⟨hs h.1, ih h.2 hss⟩

/-- What holds everywhere in a tree holds everywhere in the statements inside it. -/
theorem every_stmts :
    TreeInduction
      (fun e => e.every onExpr onStmt = true → ∀ st ∈ e.stmts, st.every onExpr onStmt = true)
      (fun s => s.every onExpr onStmt = true → ∀ st ∈ s.stmts, st.every onExpr onStmt = true) where
  var _ _ := List.forall_mem_nil _
  const _ _ := List.forall_mem_nil _
  primitive _ _ ih h := Expr.forall_mem_stmtsIn (Bool.and_eq_true_iff.mp h).2 ih
  call _ _ iht iha h := by
    simp only [Expr.every, Bool.and_eq_true] at h
    exact List.forall_mem_append.mpr ⟨iht h.1.2, Expr.forall_mem_stmtsIn h.2 iha⟩
  tuple _ ih h := Expr.forall_mem_stmtsIn (Bool.and_eq_true_iff.mp h).2 ih
  begin _ _ ihs ihv h := by
    simp only [Expr.every, Bool.and_eq_true] at h
    exact List.forall_mem_append.mpr ⟨Stmt.forall_mem_stmtsIn h.1.2 ihs, ihv h.2⟩
  global _ _ := List.forall_mem_nil _
  allocate _ _ _ := List.forall_mem_nil _
  assign _ _ ih h := List.forall_mem_cons.mpr ⟨h, ih (Bool.and_eq_true_iff.mp h).2⟩
  print _ ih h := List.forall_mem_cons.mpr ⟨h, ih (Bool.and_eq_true_iff.mp h).2⟩
  ifElse _ _ _ ihc ihp ihn h := by
    refine List.forall_mem_cons.mpr ⟨h, ?_⟩
    simp only [Stmt.every, Bool.and_eq_true] at h
    rw [List.forall_mem_append, List.forall_mem_append]
    exact ⟨⟨ihc h.1.1.2, Stmt.forall_mem_stmtsIn h.1.2 ihp⟩, Stmt.forall_mem_stmtsIn h.2 ihn⟩
  whileDo _ _ ihc ihb h := by
    refine List.forall_mem_cons.mpr ⟨h, ?_⟩
    simp only [Stmt.every, Bool.and_eq_true] at h
    exact List.forall_mem_append.mpr ⟨ihc h.1.2, Stmt.forall_mem_stmtsIn h.2 ihb⟩
  ret _ ih h := List.forall_mem_cons.mpr ⟨h, ih (Bool.and_eq_true_iff.mp h).2⟩
  define _ _ _ _ _ h := List.forall_mem_singleton.mpr h
  collect _ h := List.forall_mem_singleton.mpr h
  setField _ _ _ ih h := List.forall_mem_cons.mpr ⟨h, ih (Bool.and_eq_true_iff.mp h).2⟩

end Inside

namespace Flow

/-- The statements are within the allowance. -/
def AreWithin (allowance : Allowance) (code : List Stmt) : Prop :=
  ∀ st ∈ code, st.isWithin allowance = true

/-- A statement is within the allowance if what it was made of is. -/
theorem Stmt.isWithin_of_origin? {st : Stmt}
    (h : ∀ origin, st.origin? = some origin → origin.within allowance = true) :
    st.isWithin allowance = true := by
  cases st with
  | assign target value =>
    have horigin := h _ rfl
    cases value with
    | call callee arguments =>
      have hcount := (Expr.within_call.mp horigin).1
      rwa [List.length_map] at hcount
    | global name => exact horigin
    | _ => rfl
  | tailCall callee arguments =>
    have hcount := (Expr.within_call.mp (h _ rfl)).1
    rwa [List.length_map] at hcount
  | _ => rfl

/-- So does the function that is built. -/
theorem isWithin_functionOf {name : Name} {parameters : List Name} {body : List TupleLang.Stmt}
    {function : Function} (hwithin : ∀ st ∈ body, st.within allowance = true)
    (h : functionOf environment name parameters body s = .ok (function, s')) :
    ∀ block ∈ function.blocks, AreWithin allowance block.statements := by
  classical
  intro block hblock st hst
  refine Stmt.isWithin_of_origin? fun origin horigin => ?_
  refine Stmt.forall_mem_stmtsIn (Stmt.everyIn_iff.mpr hwithin) (every_stmts.stmts body) origin ?_
  exact Stmt.mem_of_mem_functionOf horigin h (List.mem_flatMap.mpr ⟨block, hblock, hst⟩)

end Flow

/-- The control-flow program of a program is within the same allowance. -/
theorem Program.isWithin_toFlow {flow : Flow.Program} (hwithin : program.within allowance = true)
    (h : program.toFlow environment s = .ok (flow, s')) :
    ∀ function ∈ flow.functions, ∀ block ∈ function.blocks,
      Flow.AreWithin allowance block.statements := by
  have hwithin : ∀ st ∈ program.statements, st.within allowance = true :=
    Stmt.everyIn_iff.mp hwithin
  refine Program.forall_mem_toFlow (fun f hf _ _ _ => Flow.isWithin_functionOf ?_)
    (fun _ _ _ => Flow.isWithin_functionOf ?_) h
  · obtain ⟨st, hst, hf⟩ := List.mem_filterMap.mp hf
    cases st with
    | define name parameters output body =>
      cases hf
      exact Stmt.everyIn_iff.mp (hwithin _ hst)
    | _ => cases hf
  · exact fun st hst => hwithin st (List.mem_filter.mp hst).1

end TupleLang
