import TupleLang.Proofs.AllocationCode

/-!
# What explicit allocation keeps

Making allocations explicit replaces the tuple literals that are assigned to variables and leaves
everything else of a statement as it is.  An `ExposureInvariant` is a property of statements before
the stage together with one of the statements after it; it says how the two go together for each
kind of statement, and what the code that builds a tuple has to do with it.
`ExposureInvariant.forall_mem_exposeAllocation` is the result for whole programs.
-/

namespace TupleLang

open Stateful

/-- Whether the expression is a tuple literal. -/
def Expr.isTuple : Expr → Bool
  | .tuple _ => true
  | _ => false

/-- Whether the statement holds no other statements and no tuple literal to replace. -/
def Stmt.isKept : Stmt → Bool
  | .assign _ value => !value.isTuple
  | .ifElse .. | .whileDo .. | .define .. => false
  | _ => true

/-- A property of statements before allocations are made explicit, and one of the statements that
they become.  Both know whether a statement is *inside* the condition of a loop. -/
structure ExposureInvariant (before after : Bool → Stmt → Prop) : Prop where
  save : ∀ inside name field, field.isAtomic = true → after inside (.assign name field)
  reserveRoom : ∀ inside used next limit bytes,
    ∀ st ∈ Allocation.reserveRoom used next limit bytes, after inside st
  allocate : ∀ inside target bytes ty, after inside (.assign target (.allocate bytes ty))
  setField : ∀ inside target index field, after inside (.setField target index (.var field))
  keep : ∀ inside st, st.isKept = true → before inside st → after inside st
  ifElse : ∀ inside condition positive negative,
    before inside (.ifElse condition positive negative) →
    (∀ st ∈ positive, before inside st) ∧ (∀ st ∈ negative, before inside st) ∧
      ∀ positive' negative', (∀ st ∈ positive', after inside st) →
        (∀ st ∈ negative', after inside st) → after inside (.ifElse condition positive' negative')
  whileBegin : ∀ inside statements value body,
    before inside (.whileDo (.begin statements value) body) →
    (∀ st ∈ statements, before true st) ∧ (∀ st ∈ body, before inside st) ∧
      ∀ statements' body', (statements ≠ [] → statements' ≠ []) →
        (∀ st ∈ statements', after true st) → (∀ st ∈ body', after inside st) →
        after inside (.whileDo (.begin statements' value) body')
  whileDo : ∀ inside condition body, condition.isBegin = false →
    before inside (.whileDo condition body) → (∀ st ∈ body, before inside st) ∧
      ∀ body', (∀ st ∈ body', after inside st) → after inside (.whileDo condition body')
  define : ∀ name parameters output body, before false (.define name parameters output body) →
    (∀ st ∈ body, before false st) ∧
      ∀ body', (∀ st ∈ body', after false st) → after false (.define name parameters output body')

namespace ExposureInvariant

variable {before after : Bool → Stmt → Prop} {environment : TypeEnvironment} {function : Name}
  {inside : Bool} {ss ss' : List Stmt} {s s' : NameSupply}

/-- The statements of a block. -/
theorem exposeBlock
    (h : ∀ st ∈ ss, ∀ inside, before inside st → ∀ s ss' s',
      st.exposeAllocation environment function s = .ok (ss', s') →
      ss' ≠ [] ∧ ∀ t ∈ ss', after inside t)
    (hbefore : ∀ st ∈ ss, before inside st)
    (hexposed : Stmt.exposeBlock environment function ss s = .ok (ss', s')) :
    (ss ≠ [] → ss' ≠ []) ∧ ∀ t ∈ ss', after inside t := by
  induction ss generalizing ss' s with
  | nil =>
    cases hexposed
    exact ⟨id, List.forall_mem_nil _⟩
  | cons st ss ih =>
    obtain ⟨hst, hss⟩ := List.forall_mem_cons.mp h
    obtain ⟨hfirst, hrest⟩ := List.forall_mem_cons.mp hbefore
    rw [Stmt.exposeBlock, bind₂_eq_ok] at hexposed
    obtain ⟨first, s₁, rest, hfirst', hrest', rfl⟩ := hexposed
    obtain ⟨hsome, hfirst⟩ := hst inside hfirst _ _ _ hfirst'
    exact ⟨fun _ => by simp [hsome], List.forall_mem_append.mpr ⟨hfirst, (ih hss hrest hrest').2⟩⟩

variable (h : ExposureInvariant before after)
include h

/-- The fields of a tuple. -/
theorem setFields (target : Name) (index : Nat) (fields : List Name) :
    ∀ st ∈ Allocation.setFields target index fields, after inside st := by
  induction fields generalizing index with
  | nil => exact List.forall_mem_nil _
  | cons field fields ih =>
    exact List.forall_mem_cons.mpr ⟨h.setField inside target index field, ih (index + 1)⟩

/-- The code that builds a tuple. -/
theorem ofTuple {target : Name} {fields : List Expr}
    (hexposed : Allocation.ofTuple environment function target fields s = .ok (ss, s')) :
    ss ≠ [] ∧ ∀ st ∈ ss, after inside st := by
  obtain ⟨-, hatomic, types, -, rfl⟩ := Allocation.ofTuple_eq_ok hexposed
  refine ⟨by simp [Allocation.code], ?_⟩
  simp only [Allocation.code, List.forall_mem_append]
  refine ⟨⟨⟨?_, h.reserveRoom inside _ _ _ _⟩, ?_⟩, h.setFields _ _ _⟩
  · refine List.forall_mem_map.mpr fun entry hentry => ?_
    exact h.save inside _ _ (hatomic entry.2 (List.of_mem_zip hentry).2)
  · exact List.forall_mem_singleton.mpr (h.allocate inside _ _ _)

/-- Statements that stay. -/
theorem kept (st : Stmt) (hkept : st.isKept = true) (hbefore : before inside st)
    (hexposed : (return [st] : Lowering (List Stmt)) s = .ok (ss, s')) :
    ss ≠ [] ∧ ∀ t ∈ ss, after inside t := by
  cases hexposed
  exact ⟨List.cons_ne_nil st [], List.forall_mem_singleton.mpr (h.keep inside st hkept hbefore)⟩

/-- A statement becomes some statements, all with the second property. -/
theorem exposeAllocation (environment : TypeEnvironment) (function : Name) :
    TreeInduction
      (fun e => ∀ statements value, e = .begin statements value →
        (∀ st ∈ statements, before true st) → ∀ s ss s',
        Stmt.exposeBlock environment function statements s = .ok (ss, s') →
        (statements ≠ [] → ss ≠ []) ∧ ∀ t ∈ ss, after true t)
      (fun st => ∀ inside, before inside st → ∀ s ss s',
        st.exposeAllocation environment function s = .ok (ss, s') →
        ss ≠ [] ∧ ∀ t ∈ ss, after inside t) where
  var _ _ _ he := by cases he
  const _ _ _ he := by cases he
  primitive _ _ _ _ _ he := by cases he
  call _ _ _ _ _ _ he := by cases he
  tuple _ _ _ _ he := by cases he
  begin _ _ ihs _ statements value he hbefore s ss s' hexposed := by
    cases he
    exact exposeBlock ihs hbefore hexposed
  global _ _ _ he := by cases he
  allocate _ _ _ _ he := by cases he
  assign target value _ inside hbefore s ss s' hexposed := by
    cases value with
    | tuple fields =>
      rw [Stmt.exposeAllocation] at hexposed
      exact h.ofTuple hexposed
    | _ => exact h.kept (.assign target _) rfl hbefore hexposed
  print value _ inside hbefore s ss s' hexposed := h.kept (.print value) rfl hbefore hexposed
  ifElse condition positive negative _ ihp ihn inside hbefore s ss s' hexposed := by
    obtain ⟨hpositive, hnegative, hafter⟩ := h.ifElse inside _ _ _ hbefore
    rw [Stmt.exposeAllocation, bind₂_eq_ok] at hexposed
    obtain ⟨positive', s₁, negative', hpositive', hnegative', rfl⟩ := hexposed
    refine ⟨List.cons_ne_nil _ _, List.forall_mem_singleton.mpr (hafter _ _ ?_ ?_)⟩
    · exact (exposeBlock ihp hpositive hpositive').2
    · exact (exposeBlock ihn hnegative hnegative').2
  whileDo condition body ihc ihb inside hbefore s ss s' hexposed := by
    cases condition with
    | «begin» statements value =>
      obtain ⟨hstatements, hbody, hafter⟩ := h.whileBegin inside _ _ _ hbefore
      rw [Stmt.exposeAllocation, bind₂_eq_ok] at hexposed
      obtain ⟨statements', s₁, body', hstatements', hbody', rfl⟩ := hexposed
      obtain ⟨hsome, hall⟩ := ihc statements value rfl hstatements _ _ _ hstatements'
      exact ⟨List.cons_ne_nil _ _, List.forall_mem_singleton.mpr
        (hafter _ _ hsome hall (exposeBlock ihb hbody hbody').2)⟩
    | _ =>
      obtain ⟨hbody, hafter⟩ := h.whileDo inside _ _ rfl hbefore
      rw [Stmt.exposeAllocation, bind_eq_ok] at hexposed
      · obtain ⟨body', s₁, hbody', hexposed⟩ := hexposed
        cases hexposed
        exact ⟨List.cons_ne_nil _ _,
          List.forall_mem_singleton.mpr (hafter _ (exposeBlock ihb hbody hbody').2)⟩
      · intro _ _ hbegin
        cases hbegin
  ret value _ inside hbefore s ss s' hexposed := h.kept (.ret value) rfl hbefore hexposed
  define _ _ _ _ _ _ _ s ss s' hexposed := by cases hexposed
  collect bytes inside hbefore s ss s' hexposed := h.kept (.collect bytes) rfl hbefore hexposed
  setField tuple index value _ inside hbefore s ss s' hexposed :=
    h.kept (.setField tuple index value) rfl hbefore hexposed

/-- Statements at the top level. -/
theorem exposeTopLevel {st : Stmt} (hbefore : before false st)
    (hexposed : st.exposeTopLevel environment s = .ok (ss, s')) : ∀ t ∈ ss, after false t := by
  cases st with
  | define name parameters output body =>
    obtain ⟨hbody, hafter⟩ := h.define _ _ _ _ hbefore
    rw [Stmt.exposeTopLevel, bind_pure_eq_ok] at hexposed
    obtain ⟨body', hbody', rfl⟩ := hexposed
    have hblock := (exposeBlock ((h.exposeAllocation environment name).stmts body) hbody hbody').2
    exact List.forall_mem_singleton.mpr (hafter body' hblock)
  | _ =>
    exact ((h.exposeAllocation environment Name.entryPoint).stmt _ false hbefore _ _ _ hexposed).2

/-- The program with explicit allocations has the second property. -/
theorem forall_mem_exposeAllocation {program exposed : Program}
    (hbefore : ∀ st ∈ program.statements, before false st)
    (hexposed : program.exposeAllocation environment s = .ok (exposed, s')) :
    ∀ t ∈ exposed.statements, after false t := by
  rw [Program.exposeAllocation, bind_pure_eq_ok] at hexposed
  obtain ⟨parts, hparts, rfl⟩ := hexposed
  have hparts : ∀ part ∈ parts, ∀ t ∈ part, after false t :=
    forall_mem_of_mapM (fun st hst _ _ _ hst' => h.exposeTopLevel (hbefore st hst) hst') hparts
  intro t ht
  obtain ⟨part, hpart, ht⟩ := List.mem_flatten.mp ht
  exact hparts part hpart t ht

end ExposureInvariant

end TupleLang
