import Mathlib.Algebra.Group.Nat.Defs
import TupleLang.Proofs.CarriedTypes

/-!
# Making allocations explicit keeps types

A program in normal form that follows the typing rules can have its allocations made explicit, and
what comes out follows the rules with the same types for its variables
(`Typing.ProgramChecks.exposeAllocation`).

The stage looks the types of fields up in what the checker found out in the end about the function
it is in, so the induction on the rules carries along that the types at each point are among those
(`Typing.Knows`).
-/

namespace TupleLang

open Interpreter (Task)
open Stateful

/-- A small count is found back from its word. -/
theorem Word.toCount?_ofCount {count : Nat} (h : count < 2 ^ 63) :
    (Word.ofCount count).toCount? = some count := by
  have hint : (Int64.ofNat count).toInt = count := Int64.toInt_ofNat_of_lt h
  unfold Word.toCount? Word.ofCount
  rw [if_neg (by rw [Int64.lt_iff_toInt_lt, hint]; simp), hint]
  rfl

namespace Typing

/-- A tuple type that can be represented has few fields. -/
theorem length_le_of_oversized? {fields : List Ty} (h : (Ty.tuple fields).oversized? = none) :
    fields.length ≤ Ty.maxFields := by
  rw [Ty.oversized?] at h
  split at h
  · cases h
  · omega

variable {context : Context} {lo hi : Nat} {Γ Δ Γ' : VariableTypes} {environment : TypeEnvironment}

namespace Allocation

open TupleLang.Allocation

/-- Fields are saved in variables of their types. -/
theorem checks_saveFields (hapart : NamesApart context lo) {fields : List Expr} {tys : List Ty}
    {s : NameSupply} (hatomic : fields.all Expr.isAtomic = true) (hΔ : Carries lo s.issued Γ Δ)
    (hfields : Checks context.whenLowered (.exprs fields) Δ (.tys tys) Δ) :
    ∃ saved s' Δ', saveFields fields s = .ok (saved, s') ∧
      Checks context.whenLowered (.block (saved.map fun (name, field) => .assign name field)) Δ
        .fine Δ' ∧
      Advances lo s.issued s'.issued Γ Δ Δ' ∧
      Checks context.whenLowered (.exprs ((saved.map Prod.fst).map Expr.var)) Δ' (.tys tys) Δ' := by
  induction fields generalizing s Δ tys with
  | nil =>
    cases hfields
    exact ⟨[], s, Δ, rfl, .blockNil, .refl hΔ, .exprsNil⟩
  | cons field fields ih =>
    rw [List.all_cons, Bool.and_eq_true] at hatomic
    cases hfields with
    | @exprsCons _ Δ₀ _ _ _ ty tys hfield hfields =>
      obtain ⟨rfl, -⟩ := hfield.of_isAtomic hatomic.1 (.refl _)
      have hassign := hΔ.checks_assign hapart "field" hfield
      have hbind := Advances.bind hΔ "field" ty
      have hfields := (hfields.of_all_isAtomic hatomic.2 hassign.extended).2
      obtain ⟨saved, s', Δ', hsaved, hchecks, hadvances, hnames⟩ :=
        @ih _ tys ⟨s.issued + 1⟩ hatomic.2 hbind.carries hfields
      refine ⟨(NameSupply.nameAt "field" (s.issued + 1), field) :: saved, s', Δ', ?_,
        .blockCons hassign hchecks, hbind.trans hadvances, .exprsCons (.known ?_) hnames⟩
      · rw [saveFields, bind_of_ok (Lowering.fresh_eq_ok _ _), bind_of_ok hsaved]
        rfl
      · exact hchecks.extended.keeps (by simp)

/-- The request for room compares integers. -/
theorem checks_reserveRoom (hapart : NamesApart context lo) (hΔ : Carries lo hi Γ Δ) (bytes : Nat) :
    ∃ Δ', Checks context.whenLowered (.block (reserveRoom (NameSupply.nameAt "end" (hi + 1))
        (NameSupply.nameAt "next" (hi + 2)) (NameSupply.nameAt "limit" (hi + 3)) bytes))
        Δ .fine Δ' ∧
      Advances lo hi (hi + 3) Γ Δ Δ' := by
  have hused := Advances.bind hΔ "end" .int
  have hnext := Advances.bind hused.carries "next" .int
  have hlimit := Advances.bind hnext.carries "limit" .int
  have hassigned {Δ : VariableTypes} (name : Name) : (Δ.insert name .int)[name]? = some .int := by
    simp
  have hsum {Δ : VariableTypes} {name : Name} (hname : Δ[name]? = some .int) :
      Checks context.whenLowered
        (.expr (.primitive .add [.var name, .int (Word.ofCount bytes)])) Δ (.ty .int) Δ :=
    .primitive rfl (.exprsCons (.known hname) (.exprsCons (.int _) .exprsNil)) rfl
  have hless {Δ : VariableTypes} {name name' : Name} (hname : Δ[name]? = some .int)
      (hname' : Δ[name']? = some .int) :
      Checks context.whenLowered (.expr (.primitive .lt [.var name, .var name'])) Δ (.ty .bool) Δ :=
    .primitive rfl (.exprsCons (.known hname) (.exprsCons (.known hname') .exprsNil)) rfl
  have hassign := hnext.carries.checks_assign hapart "limit" (.global Name.fromspaceEnd)
  exact ⟨_, .blockCons (hΔ.checks_assign hapart "end" (.global Name.freePointer)) <|
    .blockCons (hused.carries.checks_assign hapart "next" (hsum (hassigned _))) <|
    .blockCons hassign <|
    .blockCons (.ifElse (hless (hassign.extended.keeps (hassigned _)) (hassigned _)) .blockNil
      (.blockCons (.collect bytes) .blockNil)) .blockNil, hused.trans (hnext.trans hlimit)⟩

/-- The fields of a tuple are set to values of their types. -/
theorem checks_setFields {target : Name} {fields : List Ty} {names : List Name} {done tys : List Ty}
    (htarget : Δ[target]? = some (.tuple fields)) (hsize : fields.length ≤ Ty.maxFields)
    (hfields : fields = done ++ tys)
    (hnames : Checks context.whenLowered (.exprs (names.map Expr.var)) Δ (.tys tys) Δ) :
    Checks context.whenLowered (.block (setFields target done.length names)) Δ .fine Δ := by
  induction names generalizing done tys with
  | nil => exact .blockNil
  | cons name names ih =>
    cases hnames with
    | @exprsCons _ Δ₀ _ _ _ ty tys hname hnames =>
      obtain ⟨rfl, -⟩ := hname.of_isAtomic rfl (.refl _)
      have hrest := @ih (done ++ [ty]) tys (by rw [hfields, List.append_assoc]; rfl) hnames
      rw [List.length_append] at hrest
      refine .blockCons (.setField (by rw [htarget]; rfl) ?_ hname) hrest
      have hlength : done.length < 2 ^ 63 := by
        have := congrArg List.length hfields
        simp only [List.length_append, List.length_cons, Ty.maxFields] at this hsize
        omega
      rw [Word.toCount?_ofCount hlength, Option.bind_some, hfields]
      simp

end Allocation

/-- What a stage knows that looks types up in an environment: the types in the end of the function
it is in, none of a name that it may take. -/
structure Knows (environment : TypeEnvironment) (function : Name) (context : Context) (lo : Nat)
    (final : VariableTypes) : Prop where
  functions : environment.functions = context.functions
  locals : environment.variablesOf? function = some final
  old : ∀ name : Name, name.IsNewer lo → final[name]? = none
  apart : NamesApart context lo

namespace Knows

variable {environment : TypeEnvironment} {function : Name} {final Γ' : VariableTypes}

variable (h : Knows environment function context lo final)
include h

theorem not_isNewer {name : Name} {ty : Ty} (hname : final[name]? = some ty) :
    ¬name.IsNewer lo := by
  intro hnewer
  rw [h.old name hnewer] at hname
  cases hname

/-- The type of an atom is found in the environment. -/
theorem typeOfAtom (hfinal : Extends context.functions Γ final) {e : Expr} {ty : Ty}
    (he : Checks context (.expr e) Γ (.ty ty) Γ') (hatomic : e.isAtomic = true) :
    Allocation.typeOfAtom environment function e = .ok ty := by
  have hchecks := (he.of_isAtomic hatomic hfinal).2
  cases hchecks with
  | known hname =>
    rw [Allocation.typeOfAtom, h.locals]
    simp only [Option.bind_some, hname]
    rfl
  | function hname hfunction =>
    have hfunction : context.functions[_]? = some ty := hfunction
    rw [Allocation.typeOfAtom, h.locals, h.functions]
    simp only [Option.bind_some, hname, hfunction]
    rfl
  | int value => rfl
  | bool value => rfl
  | _ => cases hatomic

/-- The fields of a tuple have their types. -/
theorem mapM_typeOfAtom (hfinal : Extends context.functions Γ final) {es : List Expr}
    {tys : List Ty} (hes : Checks context (.exprs es) Γ (.tys tys) Γ')
    (hatomic : es.all Expr.isAtomic = true) (s : NameSupply) :
    (es.mapM fun e => (Allocation.typeOfAtom environment function e : Lowering Ty)) s =
      .ok (tys, s) := by
  induction es generalizing tys with
  | nil =>
    cases hes
    rfl
  | cons e es ih =>
    rw [List.all_cons, Bool.and_eq_true] at hatomic
    cases hes with
    | exprsCons he hes =>
      obtain ⟨rfl, -⟩ := he.of_isAtomic hatomic.1 (.refl _)
      rw [List.mapM_cons, bind_of_ok (liftM_of_ok (h.typeOfAtom hfinal he hatomic.1) s),
        bind_of_ok (ih hes hatomic.2)]
      rfl

/-- The code that builds a tuple gives its target the type of the tuple. -/
theorem keeps_ofTuple {target : Name} {fields : List Expr}
    (hatomic : fields.all Expr.isAtomic = true)
    (hchecks : Checks context (.stmt (.assign target (.tuple fields))) Γ .fine Γ')
    (hfinal : Extends context.functions Γ' final) :
    Keeps context lo (Allocation.ofTuple environment function target fields) Γ Γ' := by
  intro s Δ hΔ
  obtain ⟨Γ₁, ty, hname, hfunction, hvalue, hassigns⟩ := hchecks.assign_inv
  have htarget : ¬target.IsNewer lo := h.not_isNewer (hfinal.keeps hassigns.known)
  have hΓ := hchecks.extended.trans hfinal
  cases hvalue with
  | @tuple _ _ _ tys hfields hsize =>
    have htypes := h.mapM_typeOfAtom hΓ hfields hatomic s
    obtain ⟨rfl, hfields'⟩ := hfields.of_all_isAtomic hatomic (hΔ.extended h.apart)
    obtain ⟨saved, s₁, Δ₁, hsaved, hsave, hadvances₁, hnames⟩ :=
      Allocation.checks_saveFields h.apart hatomic hΔ hfields'
    obtain ⟨Δ₂, hroom, hadvances₂⟩ := Allocation.checks_reserveRoom h.apart hadvances₁.carries
      (Header.allocationSize tys.length)
    obtain ⟨Δ₃, hassign, hadvances₃, hknown⟩ := hadvances₂.carries.checks_sameAssign htarget hname
      hfunction hassigns (.allocate (Header.allocationSize tys.length) tys)
    have hatoms : ((saved.map Prod.fst).map Expr.var).all Expr.isAtomic = true := by
      simp [Expr.isAtomic]
    have hnames := (hnames.of_all_isAtomic hatoms (hroom.extended.trans hassign.extended)).2
    have hset := Allocation.checks_setFields hknown (length_le_of_oversized? hsize)
      (List.nil_append tys).symm hnames
    refine ⟨_, ⟨s₁.issued + 3⟩, Δ₃, ?_, checks_append.mpr ⟨_, checks_append.mpr ⟨_,
      checks_append.mpr ⟨_, hsave, hroom⟩, checks_singleton.mpr hassign⟩, hset⟩,
      hadvances₁.trans (hadvances₂.trans hadvances₃)⟩
    rw [Allocation.ofTuple, bind_of_ok htypes, bind_of_ok hsaved,
      bind_of_ok (Lowering.fresh_eq_ok _ _), bind_of_ok (Lowering.fresh_eq_ok _ _),
      bind_of_ok (Lowering.fresh_eq_ok _ _)]
    rfl

end Knows

/-- What making allocations explicit does to a task in normal form that follows the rules. -/
def ExposesTyped (environment : TypeEnvironment) (function : Name) (final : VariableTypes)
    (context : Context) (lo : Nat) : Task → VariableTypes → Verdict → VariableTypes → Prop
  | .stmt st, Γ, _, Γ' => st.isNormal true = true → Extends context.functions Γ' final →
    Keeps context lo (st.exposeAllocation environment function) Γ Γ'
  | .block ss, Γ, _, Γ' => Stmt.areNormal true ss = true → Extends context.functions Γ' final →
    Keeps context lo (Stmt.exposeBlock environment function ss) Γ Γ'
  | .expr (.begin ss value), Γ, .ty ty, Γ' =>
    Stmt.areNormal true ss = true → value.isSimple = true → Extends context.functions Γ' final →
    ∀ s Δ, Carries lo s.issued Γ Δ → ∃ ss' s' Δ',
      Stmt.exposeBlock environment function ss s = .ok (ss', s') ∧
      Checks context.whenLowered (.expr (.begin ss' value)) Δ (.ty ty) Δ' ∧
      Advances lo s.issued s'.issued Γ' Δ Δ'
  | _, _, _, _ => True

/-- A statement without tuples and statements of its own stays what it is. -/
theorem keeps_same {st : Stmt}
    (h : ∀ hi Δ, Carries lo hi Γ Δ → ∃ Δ', Checks context.whenLowered (.stmt st) Δ .fine Δ' ∧
      Advances lo hi hi Γ' Δ Δ') : Keeps context lo (return [st]) Γ Γ' := by
  intro s Δ hΔ
  obtain ⟨Δ', hchecks, hadvances⟩ := h s.issued Δ hΔ
  exact ⟨[st], s, Δ', rfl, checks_singleton.mpr hchecks, hadvances⟩

/-- Assignments keep types. -/
theorem Knows.keeps_assign {function target : Name} {final : VariableTypes} {value : Expr}
    (h : Knows environment function context lo final) (hsimple : value.isSimple = true)
    (hchecks : Checks context (.stmt (.assign target value)) Γ .fine Γ')
    (hfinal : Extends context.functions Γ' final) :
    Keeps context lo ((Stmt.assign target value).exposeAllocation environment function) Γ Γ' := by
  obtain ⟨Γ₁, ty, hname, hfunction, hvalue, hassigns⟩ := hchecks.assign_inv
  have htarget : ¬target.IsNewer lo := h.not_isNewer (hfinal.keeps hassigns.known)
  have hsame : Keeps context lo (return [.assign target value]) Γ Γ' := by
    refine keeps_same fun hi Δ hΔ => ?_
    obtain ⟨rfl, hvalue'⟩ := hvalue.of_isSimple hsimple (hΔ.extended h.apart)
    obtain ⟨Δ', hassign, hadvances, -⟩ :=
      hΔ.checks_sameAssign htarget hname hfunction hassigns hvalue'
    exact ⟨Δ', hassign, hadvances⟩
  cases value with
  | tuple fields =>
    rw [Stmt.exposeAllocation]
    rw [Expr.isSimple, Bool.and_eq_true] at hsimple
    exact h.keeps_ofTuple hsimple.1 hchecks hfinal
  | _ => exact hsame

/-- Making allocations explicit succeeds on statements in normal form that follow the rules, and
keeps types. -/
theorem Checks.exposesTyped {function : Name} {final : VariableTypes}
    (hknows : Knows environment function context lo final) {task : Task} {Γ : VariableTypes}
    {verdict : Verdict} (h : Checks context task Γ verdict Γ') :
    ExposesTyped environment function final context lo task Γ verdict Γ' := by
  have happly {hi : Nat} {Γ Δ : VariableTypes} (hΔ : Carries lo hi Γ Δ) :=
    hΔ.extended hknows.apart
  induction h with
  | @«begin» Γ Γ₁ Γ₂ statements value ty _ hv ihs _ =>
    intro hnormal hsimple hfinal s Δ hΔ
    obtain ⟨rfl, -⟩ := hv.of_isSimple hsimple (.refl _)
    obtain ⟨ss', s', Δ', hss', hchecks, hadvances⟩ := ihs hnormal hfinal s Δ hΔ
    have hvalue := hv.of_isSimple hsimple (happly hadvances.carries)
    exact ⟨ss', s', Δ', hss', .begin hchecks hvalue.2, hadvances⟩
  | assignNew hname hfunction hv hnew =>
    intro hnormal hfinal
    rw [Stmt.isNormal, Bool.and_eq_true] at hnormal
    exact hknows.keeps_assign hnormal.1 (.assignNew hname hfunction hv hnew) hfinal
  | assign hname hfunction hv hold =>
    intro hnormal hfinal
    rw [Stmt.isNormal, Bool.and_eq_true] at hnormal
    exact hknows.keeps_assign hnormal.1 (.assign hname hfunction hv hold) hfinal
  | print hv hprintable =>
    intro hnormal hfinal
    refine keeps_same fun hi Δ hΔ => ?_
    obtain ⟨rfl, hvalue⟩ := hv.of_isAtomic hnormal (happly hΔ)
    exact ⟨Δ, .print hvalue hprintable, .refl hΔ⟩
  | @ifElse Γ Γ₁ Γ₂ Γ₃ condition positive negative hc _ hn _ ihp ihn =>
    intro hnormal hfinal s Δ hΔ
    rw [Stmt.isNormal, Bool.and_eq_true, Bool.and_eq_true] at hnormal
    have hsimple := Expr.isSimple_of_isSimpleTest hnormal.1.1
    obtain ⟨rfl, hcondition⟩ := hc.of_isSimple hsimple (happly hΔ)
    obtain ⟨positive', s₁, Δ₁, hpositive, hp, hadvances⟩ :=
      ihp hnormal.1.2 (hn.extended.trans hfinal) s Δ hΔ
    obtain ⟨negative', s₂, Δ₂, hnegative, hn, hadvances'⟩ :=
      ihn hnormal.2 hfinal s₁ Δ₁ hadvances.carries
    refine ⟨[.ifElse condition positive' negative'], s₂, Δ₂, ?_,
      checks_singleton.mpr (.ifElse hcondition hp hn), hadvances.trans hadvances'⟩
    rw [Stmt.exposeAllocation, bind_of_ok hpositive, bind_of_ok hnegative]
    rfl
  | @whileDo Γ Γ₁ Γ₂ condition body hc hb ihc ihb =>
    intro hnormal hfinal s Δ hΔ
    cases condition with
    | «begin» statements value =>
      simp only [Stmt.isNormal, Bool.and_eq_true] at hnormal
      obtain ⟨⟨⟨-, hstatements⟩, htest⟩, hbody⟩ := hnormal
      obtain ⟨statements', s₁, Δ₁, hexposed, hcondition, hadvances⟩ := ihc hstatements
        (Expr.isSimple_of_isSimpleTest htest) (hb.extended.trans hfinal) s Δ hΔ
      obtain ⟨body', s₂, Δ₂, hexposed', hb, hadvances'⟩ :=
        ihb hbody hfinal s₁ Δ₁ hadvances.carries
      refine ⟨[.whileDo (.begin statements' value) body'], s₂, Δ₂, ?_,
        checks_singleton.mpr (.whileDo hcondition hb), hadvances.trans hadvances'⟩
      rw [Stmt.exposeAllocation, bind_of_ok hexposed, bind_of_ok hexposed']
      rfl
    | _ =>
      simp only [Stmt.isNormal, Bool.and_eq_true] at hnormal
      obtain ⟨rfl, hcondition⟩ :=
        hc.of_isSimple (Expr.isSimple_of_isSimpleTest hnormal.1) (happly hΔ)
      obtain ⟨body', s₁, Δ₁, hexposed, hb, hadvances⟩ := ihb hnormal.2 hfinal s Δ hΔ
      refine ⟨_, s₁, Δ₁, ?_, checks_singleton.mpr (.whileDo hcondition hb), hadvances⟩
      rw [Stmt.exposeAllocation, bind_of_ok hexposed]
      · rfl
      · intro _ _ h
        cases h
  | @ret Γ Γ₁ value ty houtput hv =>
    intro hnormal hfinal
    have houtput : context.whenLowered.output? = some ty := houtput
    refine keeps_same fun hi Δ hΔ => ?_
    obtain ⟨rfl, hvalue⟩ := hv.of_isSimple (Stmt.isSimple_of_isNormal_ret hnormal) (happly hΔ)
    exact ⟨Δ, .ret houtput hvalue, .refl hΔ⟩
  | collect bytes =>
    exact fun _ _ => keeps_same fun hi Δ hΔ => ⟨Δ, .collect bytes, .refl hΔ⟩
  | @setField Γ Γ₁ tuple index value fields ty htuple hfield hv =>
    intro hnormal hfinal
    refine keeps_same fun hi Δ hΔ => ?_
    obtain ⟨rfl, hvalue⟩ := hv.of_isAtomic hnormal (happly hΔ)
    have hextends : Extends context.whenLowered.functions _ Δ := happly hΔ
    exact ⟨Δ, .setField (hextends.lookup htuple) hfield hvalue, .refl hΔ⟩
  | blockNil => exact fun _ _ => .nil
  | blockCons hs hr ihs ihr =>
    intro hnormal hfinal
    rw [Stmt.areNormal, Bool.and_eq_true] at hnormal
    exact (ihs hnormal.1 (hr.extended.trans hfinal)).append (ihr hnormal.2 hfinal)
  | _ => trivial

/-! ## Programs -/

/-- Making allocations explicit succeeds on every program in normal form that follows the rules
without names that the stage may take, and the result follows the rules with the same types. -/
theorem ProgramChecks.exposeAllocation {program : Program}
    (h : ProgramChecks true program environment) (hnormal : program.isNormal true = true)
    {s : NameSupply}
    (hfunctions : ∀ name : Name, environment.functions.contains name = true →
      ¬name.IsNewer s.issued)
    (hold : ∀ (function : Name) (known : VariableTypes),
      environment.variablesOf? function = some known →
      ∀ name : Name, name.IsNewer s.issued → known[name]? = none) :
    ∃ exposed s' environment', program.exposeAllocation environment s = .ok (exposed, s') ∧
      ProgramChecks true exposed environment' ∧
      EnvironmentCarries s.issued s'.issued environment environment' := by
  have hadded := signaturesAdded h.functions
  have hknows {function : Name} {known : VariableTypes} (output? : Option Ty)
      (hknown : environment.variablesOf? function = some known) :
      Knows environment function ⟨true, environment.functions, output?⟩ s.issued known :=
    ⟨rfl, hknown, hold function known hknown, hfunctions⟩
  obtain ⟨parts, s', environment', hparts, hchecks, hcarries⟩ :=
    @ProgramChecks.lowered (Stmt.exposeTopLevel environment) (Stmt.exposeBlock environment)
      _ _ _ _ _ h (Nat.le_refl s.issued) fun final hfinal hlocals => by
        have htable {f : Function} (hf : f ∈ program.functions) :=
          variablesOf?_of_mayBind hlocals (hadded.bindable f hf)
        have hmain := variablesOf?_entryPoint hlocals
        exact {
          define := fun name parameters output body => rfl
          body := fun f hf Γ known hchecks hknown =>
            hchecks.exposesTyped (hknows _ ((htable hf).trans hknown))
              (program.areNormal_body hnormal hf) (.refl _)
          stmt := fun st hst Γ Γ' hchecks hextends => by
            have hplain := hchecks.function?_eq_none
            have hkeeps := hchecks.exposesTyped (hknows none hmain)
              (Stmt.areNormal_iff.mp hnormal st hst) hextends
            cases st with
            | define => cases hplain
            | _ => exact hkeeps
          old := fun f hf known hknown => hold f.name known ((htable hf).trans hknown) }
  refine ⟨⟨parts.flatten⟩, s', environment', ?_, hchecks, hcarries⟩
  rw [Program.exposeAllocation, bind_of_ok hparts]
  rfl

end Typing

end TupleLang
