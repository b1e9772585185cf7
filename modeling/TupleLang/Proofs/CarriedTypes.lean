import TupleLang.Proofs.CheckedPrograms

/-!
# Stages that keep types

The lowering stages take new names from a supply and bind values to them, so after a stage more
variables have types than before.  `Typing.Carries` is the relation between the types on both
sides: the variables of the program have the same types, and all others are names that the stage
took.  `Typing.Advances` is what one step of a stage may do to the types after it.

A stage keeps types (`Typing.Keeps`) when it turns statements that follow the typing rules into
statements that do, and succeeds at it.  What is shown of the body of a function and of a single
statement carries over to programs once for all stages (`Typing.ProgramChecks.lowered`).
-/

namespace TupleLang

open Stateful

/-! ## New names -/

/-- The name can still be handed out by a supply that has handed out so many names. -/
def Name.IsNewer (issued : Nat) (name : Name) : Prop :=
  ∃ base number, issued < number ∧ name = NameSupply.nameAt base number

/-- Newer than later names is newer than earlier ones. -/
theorem Name.IsNewer.mono {issued issued' : Nat} {name : Name} (h : name.IsNewer issued)
    (hle : issued' ≤ issued) : name.IsNewer issued' := by
  obtain ⟨base, number, hlt, rfl⟩ := h
  exact ⟨base, number, Nat.lt_of_le_of_lt hle hlt, rfl⟩

/-- Newer names are generated. -/
theorem Name.IsNewer.isGenerated {issued : Nat} {name : Name} (h : name.IsNewer issued) :
    name.isGenerated = true := by
  obtain ⟨base, number, -, rfl⟩ := h
  exact NameSupply.isGenerated_nameAt base number

/-- Newer names have greater numbers. -/
theorem NameSupply.isNewer_nameAt {issued number : Nat} {base : String} :
    Name.IsNewer issued (nameAt base number) ↔ issued < number := by
  refine ⟨?_, fun h => ⟨base, number, h, rfl⟩⟩
  rintro ⟨base', number', hlt, he⟩
  rw [(nameAt_inj.mp he).2]
  exact hlt

namespace Typing

/-- A name from a supply may be bound after lowering: it is none of the reserved names. -/
theorem mayBind_nameAt (base : String) (number : Nat) :
    mayBind true (NameSupply.nameAt base number) = true := by
  have hgenerated := NameSupply.isGenerated_nameAt base number
  have hreserved : ∀ name ∈ Name.reserved, Name.isGenerated name = false := by decide
  unfold mayBind
  cases hmem : Name.reserved.contains (NameSupply.nameAt base number) with
  | false => rfl
  | true =>
    rw [hreserved _ (List.contains_iff_mem.mp hmem)] at hgenerated
    cases hgenerated

/-- A name that a program as written may bind is none that a supply hands out. -/
theorem not_isNewer_of_mayBind {name : Name} (h : mayBind false name = true) (issued : Nat) :
    ¬name.IsNewer issued := by
  intro hnewer
  rw [mayBind, hnewer.isGenerated, Bool.and_eq_true] at h
  cases h.2

/-- A stage that takes names from a supply starts with the types `Γ`, none of a name newer than
`lo`, and has the types `Δ` once the supply has handed out `hi` names: those of `Γ`, and types of
names handed out in the meantime. -/
structure Carries (lo hi : Nat) (Γ Δ : VariableTypes) : Prop where
  le : lo ≤ hi
  same {name : Name} (h : ¬name.IsNewer lo) : Δ[name]? = Γ[name]?
  old {name : Name} (h : name.IsNewer lo) : Γ[name]? = none
  fresh {name : Name} (h : name.IsNewer hi) : Δ[name]? = none

/-- No function is called by a name that a stage may take. -/
def NamesApart (context : Context) (lo : Nat) : Prop :=
  ∀ name : Name, context.functions.contains name = true → ¬name.IsNewer lo

namespace Carries

variable {lo hi : Nat} {Γ Δ : VariableTypes}

/-- Types carry over to themselves if no newer name has one. -/
theorem refl (hle : lo ≤ hi) (hold : ∀ name, Name.IsNewer lo name → Γ[name]? = none) :
    Carries lo hi Γ Γ :=
  ⟨hle, fun _ => rfl, hold _, fun h => hold _ (h.mono hle)⟩

/-- More names may have been taken. -/
theorem mono {hi' : Nat} (h : Carries lo hi Γ Δ) (hle : hi ≤ hi') : Carries lo hi' Γ Δ :=
  ⟨Nat.le_trans h.le hle, h.same, h.old, fun hname => h.fresh (hname.mono hle)⟩

/-- What is carried along is no less than what was known. -/
theorem extended {context : Context} (h : Carries lo hi Γ Δ) (hapart : NamesApart context lo) :
    Extends context.functions Γ Δ := by
  refine ⟨fun {name ty} hname => ?_, fun {name} hname => h.same (hapart name hname)⟩
  by_cases hnewer : name.IsNewer lo
  · rw [h.old hnewer] at hname
    cases hname
  · rw [h.same hnewer, hname]

/-- A variable of the program gets a type on both sides. -/
theorem assign (h : Carries lo hi Γ Δ) {target : Name} (htarget : ¬target.IsNewer lo) (ty : Ty) :
    Carries lo hi (Γ.insert target ty) (Δ.insert target ty) := by
  have hne {bound : Nat} {name : Name} (hle : lo ≤ bound) (hname : name.IsNewer bound) :
      target ≠ name := fun he => htarget (he ▸ hname.mono hle)
  refine ⟨h.le, fun {name} hname => ?_, fun {name} hname => ?_, fun {name} hname => ?_⟩
  · rw [Std.ExtTreeMap.getElem?_insert, Std.ExtTreeMap.getElem?_insert, h.same hname]
  · simpa [Std.ExtTreeMap.getElem?_insert, hne (Nat.le_refl _) hname] using h.old hname
  · simpa [Std.ExtTreeMap.getElem?_insert, hne h.le hname] using h.fresh hname

/-- The next name of the supply gets a type. -/
theorem bind (h : Carries lo hi Γ Δ) (base : String) (ty : Ty) :
    Carries lo (hi + 1) Γ (Δ.insert (NameSupply.nameAt base (hi + 1)) ty) := by
  have hlo : Name.IsNewer lo (NameSupply.nameAt base (hi + 1)) :=
    NameSupply.isNewer_nameAt.mpr (Nat.lt_succ_of_le h.le)
  refine ⟨Nat.le_succ_of_le h.le, fun {name} hname => ?_, h.old, fun {name} hname => ?_⟩
  · have hne : NameSupply.nameAt base (hi + 1) ≠ name := fun he => hname (he ▸ hlo)
    simpa [Std.ExtTreeMap.getElem?_insert, hne] using h.same hname
  · have hne : NameSupply.nameAt base (hi + 1) ≠ name := fun he =>
      Nat.lt_irrefl _ (NameSupply.isNewer_nameAt.mp (he ▸ hname))
    simpa [Std.ExtTreeMap.getElem?_insert, hne] using h.fresh (hname.mono (Nat.le_succ _))

/-- The next name of the supply is new. -/
theorem next (h : Carries lo hi Γ Δ) (base : String) :
    Δ[NameSupply.nameAt base (hi + 1)]? = none :=
  h.fresh (NameSupply.isNewer_nameAt.mpr (Nat.lt_succ_self _))

end Carries

/-- From the types `Δ`, when the supply has handed out `hi` names, to the types `Δ'`, when it has
handed out `hi'` of them.  Of the names handed out by the stage, only new ones got types. -/
structure Advances (lo hi hi' : Nat) (Γ' Δ Δ' : VariableTypes) : Prop where
  le : hi ≤ hi'
  carries : Carries lo hi' Γ' Δ'
  kept {name : Name} (hlo : name.IsNewer lo) (hhi : ¬name.IsNewer hi) : Δ'[name]? = Δ[name]?

namespace Advances

variable {lo hi hi' hi'' : Nat} {Γ Γ' Γ'' Δ Δ' Δ'' : VariableTypes}

/-- Nothing happens. -/
theorem refl (h : Carries lo hi Γ Δ) : Advances lo hi hi Γ Δ Δ :=
  ⟨Nat.le_refl _, h, fun _ _ => rfl⟩

/-- One step after another. -/
theorem trans (h : Advances lo hi hi' Γ' Δ Δ') (h' : Advances lo hi' hi'' Γ'' Δ' Δ'') :
    Advances lo hi hi'' Γ'' Δ Δ'' := by
  refine ⟨Nat.le_trans h.le h'.le, h'.carries, fun {name} hlo hhi => ?_⟩
  rw [h'.kept hlo fun hnewer => hhi (hnewer.mono h.le), h.kept hlo hhi]

/-- A variable of the program gets a type on both sides. -/
theorem assign (h : Carries lo hi Γ Δ) {target : Name} (htarget : ¬target.IsNewer lo) (ty : Ty) :
    Advances lo hi hi (Γ.insert target ty) Δ (Δ.insert target ty) := by
  refine ⟨Nat.le_refl _, h.assign htarget ty, fun {name} hlo _ => ?_⟩
  have hne : target ≠ name := fun he => htarget (he ▸ hlo)
  simp [Std.ExtTreeMap.getElem?_insert, hne]

/-- A new variable gets a type on the lowered side. -/
theorem bind (h : Carries lo hi Γ Δ) (base : String) (ty : Ty) :
    Advances lo hi (hi + 1) Γ Δ (Δ.insert (NameSupply.nameAt base (hi + 1)) ty) := by
  refine ⟨Nat.le_succ _, h.bind base ty, fun {name} _ hhi => ?_⟩
  have hne : NameSupply.nameAt base (hi + 1) ≠ name := fun he =>
    hhi (he ▸ NameSupply.isNewer_nameAt.mpr (Nat.lt_succ_self _))
  simp [Std.ExtTreeMap.getElem?_insert, hne]

/-- A name that was taken since the start gets a type later than in the order of the supply. -/
theorem insert {name : Name} (h : Advances lo hi hi' Γ' Δ Δ') (hle : lo ≤ hi)
    (hnewer : name.IsNewer hi) (htaken : ¬name.IsNewer hi') (ty : Ty) :
    Advances lo hi hi' Γ' Δ (Δ'.insert name ty) := by
  have hlo := hnewer.mono hle
  refine ⟨h.le, ⟨h.carries.le, fun {other} hother => ?_, h.carries.old, fun {other} hother => ?_⟩,
    fun {other} hother hhi => ?_⟩
  · have hne : name ≠ other := fun he => hother (he ▸ hlo)
    simpa [Std.ExtTreeMap.getElem?_insert, hne] using h.carries.same hother
  · have hne : name ≠ other := fun he => htaken (he ▸ hother)
    simpa [Std.ExtTreeMap.getElem?_insert, hne] using h.carries.fresh hother
  · have hne : name ≠ other := fun he => hhi (he ▸ hnewer)
    simpa [Std.ExtTreeMap.getElem?_insert, hne] using h.kept hother hhi

end Advances

section Assignments

variable {context : Context} {lo hi : Nat} {Γ Γ' Δ : VariableTypes} {target : Name} {ty : Ty}
  {value : Expr}

/-- New names are no functions. -/
theorem NamesApart.nameAt (h : NamesApart context lo) {hi : Nat} (hle : lo ≤ hi) (base : String) :
    context.whenLowered.functions.contains (NameSupply.nameAt base (hi + 1)) = false := by
  have hnewer : Name.IsNewer lo (NameSupply.nameAt base (hi + 1)) :=
    NameSupply.isNewer_nameAt.mpr (Nat.lt_succ_of_le hle)
  cases hcontains : context.functions.contains (NameSupply.nameAt base (hi + 1)) with
  | true => exact absurd hnewer (h _ hcontains)
  | false => exact hcontains

/-- The next name of the supply is assigned a value. -/
theorem Carries.checks_assign (hΔ : Carries lo hi Γ Δ) (hapart : NamesApart context lo)
    (base : String) (hvalue : Checks context.whenLowered (.expr value) Δ (.ty ty) Δ) :
    Checks context.whenLowered (.stmt (.assign (NameSupply.nameAt base (hi + 1)) value)) Δ .fine
      (Δ.insert (NameSupply.nameAt base (hi + 1)) ty) :=
  .assignNew (mayBind_nameAt _ _) (hapart.nameAt hΔ.le base) hvalue (hΔ.next base)

/-- An assignment gives its target the type of the value, or finds it there. -/
def Assigns (target : Name) (ty : Ty) (Γ Γ' : VariableTypes) : Prop :=
  Γ[target]? = none ∧ Γ' = Γ.insert target ty ∨ Γ[target]? = some ty ∧ Γ' = Γ

/-- What an assignment that follows the rules consists of. -/
theorem Checks.assign_inv {Γ : VariableTypes}
    (h : Checks context (.stmt (.assign target value)) Γ .fine Γ') :
    ∃ Γ₁ ty, mayBind context.lowered target = true ∧ context.functions.contains target = false ∧
      Checks context (.expr value) Γ (.ty ty) Γ₁ ∧ Assigns target ty Γ₁ Γ' := by
  cases h with
  | assignNew hname hfunction hvalue hnew =>
    exact ⟨_, _, hname, hfunction, hvalue, .inl ⟨hnew, rfl⟩⟩
  | assign hname hfunction hvalue hold =>
    exact ⟨_, _, hname, hfunction, hvalue, .inr ⟨hold, rfl⟩⟩

/-- Afterwards the variable has the type. -/
theorem Assigns.known {Γ : VariableTypes} (h : Assigns target ty Γ Γ') : Γ'[target]? = some ty := by
  rcases h with ⟨-, rfl⟩ | ⟨hold, rfl⟩
  · simp
  · exact hold

/-- A variable of the program is assigned the same as before. -/
theorem Carries.checks_sameAssign (hΔ : Carries lo hi Γ Δ) (htarget : ¬target.IsNewer lo)
    (hname : mayBind context.lowered target = true)
    (hfunction : context.functions.contains target = false) (hassigns : Assigns target ty Γ Γ')
    (hvalue : Checks context.whenLowered (.expr value) Δ (.ty ty) Δ) :
    ∃ Δ', Checks context.whenLowered (.stmt (.assign target value)) Δ .fine Δ' ∧
      Advances lo hi hi Γ' Δ Δ' ∧ Δ'[target]? = some ty := by
  have hfunction : context.whenLowered.functions.contains target = false := hfunction
  rcases hassigns with ⟨hnew, rfl⟩ | ⟨hold, rfl⟩
  · rw [← hΔ.same htarget] at hnew
    exact ⟨_, .assignNew (mayBind_whenLowered hname) hfunction hvalue hnew,
      .assign hΔ htarget ty, by simp⟩
  · rw [← hΔ.same htarget] at hold
    exact ⟨Δ, .assign (mayBind_whenLowered hname) hfunction hvalue hold, .refl hΔ, hold⟩

end Assignments

/-- A stage turns statements that take the types `Γ` to the types `Γ'` into statements that do the
same, whatever types of new names are known besides. -/
def Keeps (context : Context) (lo : Nat) (stage : Lowering (List Stmt)) (Γ Γ' : VariableTypes) :
    Prop :=
  ∀ s Δ, Carries lo s.issued Γ Δ → ∃ ss s' Δ', stage s = .ok (ss, s') ∧
    Checks context.whenLowered (.block ss) Δ .fine Δ' ∧
    Advances lo s.issued s'.issued Γ' Δ Δ'

namespace Keeps

variable {context : Context} {lo : Nat} {Γ Γ₁ Γ' : VariableTypes}

/-- No statements keep no types. -/
theorem nil : Keeps context lo (return []) Γ Γ := fun s Δ hΔ =>
  ⟨[], s, Δ, rfl, .blockNil, .refl hΔ⟩

/-- Statements one after the other. -/
theorem append {first rest : Lowering (List Stmt)} (hfirst : Keeps context lo first Γ Γ₁)
    (hrest : Keeps context lo rest Γ₁ Γ') :
    Keeps context lo (do let ss ← first; let ss' ← rest; return ss ++ ss') Γ Γ' := by
  intro s Δ hΔ
  obtain ⟨ss, s₁, Δ₁, hss, hchecks, hadvances⟩ := hfirst s Δ hΔ
  obtain ⟨ss', s₂, Δ₂, hss', hchecks', hadvances'⟩ := hrest s₁ Δ₁ hadvances.carries
  refine ⟨ss ++ ss', s₂, Δ₂, ?_, checks_append.mpr ⟨Δ₁, hchecks, hchecks'⟩,
    hadvances.trans hadvances'⟩
  rw [bind_of_ok hss, bind_of_ok hss']
  rfl

end Keeps

/-! ## Programs -/

/-- Tables of variables that carry each other's types, function by function. -/
structure ProgressCarries (lo hi : Nat) (progress progress' : Progress) : Prop where
  topLevel : Carries lo hi progress.topLevel progress'.topLevel
  tables (name : Name) : Option.Rel (Carries lo hi) progress.tables[name]? progress'.tables[name]?

/-- More names may have been taken. -/
theorem ProgressCarries.mono {lo hi hi' : Nat} {progress progress' : Progress}
    (h : ProgressCarries lo hi progress progress') (hle : hi ≤ hi') :
    ProgressCarries lo hi' progress progress' := by
  refine ⟨h.topLevel.mono hle, fun name => ?_⟩
  have hname := h.tables name
  generalize progress.tables[name]? = found at hname ⊢
  generalize progress'.tables[name]? = found' at hname ⊢
  cases hname with
  | none => exact .none
  | some hcarries => exact .some (hcarries.mono hle)

/-- A stage that works on one statement after the other, with `final` known about variables in the
end, keeps types in bodies and in other statements. -/
structure KeepsTypes (context : Context) (lo : Nat) (statements : List Stmt) (final : Progress)
    (stage : Stmt → Lowering (List Stmt)) (bodyStage : Name → List Stmt → Lowering (List Stmt)) :
    Prop where
  /-- A definition stays one, with a new body. -/
  define : ∀ name parameters output body, stage (.define name parameters output body) = do
    return [.define name parameters output (← bodyStage name body)]
  body : ∀ f ∈ statements.filterMap Stmt.function?, ∀ Γ known,
    Checks (context.inside f) (.block f.body) Γ .fine known →
    final.tables[f.name]? = some known →
    Keeps (context.inside f) lo (bodyStage f.name f.body) Γ known
  stmt : ∀ st ∈ statements, ∀ Γ Γ', Checks context (.stmt st) Γ .fine Γ' →
    Extends context.functions Γ' final.topLevel → Keeps context lo (stage st) Γ Γ'
  old : ∀ f ∈ statements.filterMap Stmt.function?, ∀ known : VariableTypes,
    final.tables[f.name]? = some known → ∀ name : Name, name.IsNewer lo → known[name]? = none

variable {stage : Stmt → Lowering (List Stmt)} {bodyStage : Name → List Stmt → Lowering (List Stmt)}

/-- What holds of all statements holds of the rest. -/
theorem KeepsTypes.tail {context : Context} {lo : Nat} {statement : Stmt} {statements : List Stmt}
    {final : Progress} (h : KeepsTypes context lo (statement :: statements) final stage bodyStage) :
    KeepsTypes context lo statements final stage bodyStage := by
  have hmem {f : Function} (hf : f ∈ statements.filterMap Stmt.function?) :
      f ∈ (statement :: statements).filterMap Stmt.function? := by
    rw [List.mem_filterMap] at hf ⊢
    obtain ⟨st, hst, hfunction⟩ := hf
    exact ⟨st, List.mem_cons_of_mem _ hst, hfunction⟩
  exact ⟨h.define, fun f hf => h.body f (hmem hf),
    fun st hst => h.stmt st (List.mem_cons_of_mem _ hst), fun f hf => h.old f (hmem hf)⟩

/-- All statements of a program, one after the other. -/
theorem TopLevelChecks.lowered {context : Context} {lo : Nat} {progress final : Progress}
    {ss : List Stmt} (h : TopLevelChecks context ss progress final)
    (hstage : KeepsTypes context lo ss final stage bodyStage)
    (hnodup : ((ss.filterMap Stmt.function?).map Function.name).Nodup) {s : NameSupply}
    {Δ : Progress} (hΔ : ProgressCarries lo s.issued progress Δ) :
    ∃ parts s' Δ', ss.mapM stage s = .ok (parts, s') ∧
      TopLevelChecks context.whenLowered parts.flatten Δ Δ' ∧
      ProgressCarries lo s'.issued final Δ' ∧
      List.Forall₂ SameSignature (ss.filterMap Stmt.function?)
        (parts.flatten.filterMap Stmt.function?) := by
  induction h generalizing s Δ with
  | nil => exact ⟨[], s, Δ, rfl, .nil, hΔ, .nil⟩
  | @define progress final statement statements f known hdefines hfunction hrest ih =>
    rw [List.filterMap_cons_some hdefines, List.map_cons, List.nodup_cons] at hnodup
    have hmem : f ∈ (statement :: statements).filterMap Stmt.function? := by
      rw [List.filterMap_cons_some hdefines]
      exact List.mem_cons_self
    have hknown : final.tables[f.name]? = some known := by
      rw [hrest.tables_eq hnodup.1]
      simp
    obtain ⟨hparameters, hbody⟩ := hfunction
    rename_i parameters
    have hold := hstage.old f hmem known hknown
    have hΓ : Carries lo s.issued parameters parameters := by
      refine .refl hΔ.topLevel.le fun name hname => ?_
      cases hlookup : parameters[name]? with
      | none => rfl
      | some ty =>
        rw [← hbody.extended.keeps hlookup, hold name hname]
    obtain ⟨body', s₁, known', hstagebody, hchecks, hadvances⟩ :=
      hstage.body f hmem parameters known hbody hknown s parameters hΓ
    have hlater := hΔ.mono hadvances.le
    have hΔ₁ : ProgressCarries lo s₁.issued
        { progress with tables := progress.tables.insert f.name known }
        { Δ with tables := Δ.tables.insert f.name known' } := by
      refine ⟨hlater.topLevel, fun name => ?_⟩
      by_cases hname : f.name = name
      · simpa [hname] using Option.Rel.some hadvances.carries
      · simpa [Std.ExtTreeMap.getElem?_insert, hname] using hlater.tables name
    obtain ⟨parts, s₂, Δ', hparts, hrest', hΔ', hsame⟩ := ih hstage.tail hnodup.2 hΔ₁
    cases statement with
    | define name ps output body =>
      cases hdefines
      have hdefines' : (Stmt.define name ps output body').function? =
        some ⟨name, ps, output, body'⟩ := rfl
      refine ⟨[.define name ps output body'] :: parts, s₂, Δ', ?_, ?_, hΔ', ?_⟩
      · rw [List.mapM_cons, hstage.define, bind_of_ok (bind_of_ok hstagebody), bind_of_ok hparts]
        rfl
      · exact .define hdefines' ⟨foldlM_addParameter_whenLowered hparameters, hchecks⟩ hrest'
      · exact .cons ⟨rfl, rfl, rfl⟩ hsame
    | _ => cases hdefines
  | @stmt progress final statement statements known hplain hstatement hrest ih =>
    rw [List.filterMap_cons_none hplain] at hnodup ⊢
    obtain ⟨ss', s₁, Δ₁, hss', hchecks, hadvances⟩ :=
      hstage.stmt statement List.mem_cons_self _ _ hstatement hrest.extended s Δ.topLevel
        hΔ.topLevel
    have hΔ₁ : ProgressCarries lo s₁.issued { progress with topLevel := known }
        { Δ with topLevel := Δ₁ } :=
      ⟨hadvances.carries, (hΔ.mono hadvances.le).tables⟩
    obtain ⟨parts, s₂, Δ', hparts, hrest', hΔ', hsame⟩ := ih hstage.tail hnodup hΔ₁
    refine ⟨ss' :: parts, s₂, Δ', ?_, ?_, hΔ', ?_⟩
    · rw [List.mapM_cons, bind_of_ok hss', bind_of_ok hparts]
      rfl
    · rw [List.flatten_cons]
      exact (TopLevelChecks.of_block hchecks).append hrest'
    · rw [List.flatten_cons, List.filterMap_append, hchecks.functions_eq_nil]
      exact hsame

/-- The functions have the same types, and the variables of each function carry those before. -/
structure EnvironmentCarries (lo hi : Nat) (environment environment' : TypeEnvironment) : Prop where
  functions : environment'.functions = environment.functions
  locals (name : Name) :
    Option.Rel (Carries lo hi) (environment.variablesOf? name) (environment'.variablesOf? name)

/-- A stage that keeps types takes a program that follows the rules to one that does. -/
theorem ProgramChecks.lowered {lowered : Bool} {program : Program} {environment : TypeEnvironment}
    {lo : Nat} {s : NameSupply} (h : ProgramChecks lowered program environment)
    (hle : lo ≤ s.issued)
    (hstage : ∀ final : Progress,
      TopLevelChecks ⟨lowered, environment.functions, none⟩ program.statements {} final →
      environment.locals = final.tables.insert Name.entryPoint final.topLevel →
      KeepsTypes ⟨lowered, environment.functions, none⟩ lo program.statements final stage
        bodyStage) :
    ∃ parts s' environment', program.statements.mapM stage s = .ok (parts, s') ∧
      ProgramChecks true ⟨parts.flatten⟩ environment' ∧
      EnvironmentCarries lo s'.issued environment environment' := by
  obtain ⟨hfunctions, final, hchecks, hlocals⟩ := h
  have hadded := signaturesAdded hfunctions
  have hempty : ProgressCarries lo s.issued {} {} :=
    ⟨.refl hle fun _ _ => by simp, fun _ => by simp⟩
  obtain ⟨parts, s', final', hparts, hchecks', hcarries, hsame⟩ :=
    hchecks.lowered (hstage final hchecks hlocals) hadded.nodup hempty
  refine ⟨parts, s', ⟨environment.functions,
    final'.tables.insert Name.entryPoint final'.topLevel⟩, hparts,
    ⟨foldlM_addSignature_congr hsame hfunctions, final', hchecks', rfl⟩, rfl, fun name => ?_⟩
  rw [TypeEnvironment.variablesOf?, TypeEnvironment.variablesOf?, hlocals]
  by_cases hname : Name.entryPoint = name
  · simpa [hname] using Option.Rel.some hcarries.topLevel
  · simpa [Std.ExtTreeMap.getElem?_insert, hname] using hcarries.tables name

end Typing

end TupleLang
