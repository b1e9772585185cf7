import TupleLang.Proofs.FlowForm

/-!
# The labels of control-flow code

Turning a program into control-flow code only ever adds blocks, and the labels of the blocks it
adds are different names from the supply (`Adds`, `addsBlocks_toFlow`).  So each block of a
function is found under its label, whatever was made after it.
-/

namespace TupleLang

open Stateful

namespace Flow

section Building

variable {α β : Type}

/-- A sequence of two computations succeeds exactly when both do, one after the other. -/
theorem bind_eq_ok {x : Building α} {f : α → Building β} {blocks : List Block} {s : NameSupply}
    {r : (β × List Block) × NameSupply} :
    (x >>= f) blocks s = .ok r ↔
      ∃ a blocks₁ s₁, x blocks s = .ok ((a, blocks₁), s₁) ∧ f a blocks₁ s₁ = .ok r := by
  change (x blocks >>= fun p => f p.1 p.2) s = _ ↔ _
  rw [Stateful.bind_eq_ok]
  exact ⟨fun ⟨(a, blocks₁), s₁, ha, h⟩ => ⟨a, blocks₁, s₁, ha, h⟩,
    fun ⟨a, blocks₁, s₁, ha, h⟩ => ⟨(a, blocks₁), s₁, ha, h⟩⟩

/-- A computation that makes no blocks. -/
theorem liftM_eq_ok {x : Except CompileError α} {blocks blocks' : List Block} {s s' : NameSupply}
    {a : α} : (liftM x : Building α) blocks s = .ok ((a, blocks'), s') ↔
      x = .ok a ∧ blocks' = blocks ∧ s' = s := by
  cases x with
  | error error => exact ⟨nofun, nofun⟩
  | ok b =>
    constructor
    · intro h
      cases h
      exact ⟨rfl, rfl, rfl⟩
    · rintro ⟨⟨⟩, rfl, rfl⟩
      rfl

end Building

/-! ## Labels -/

/-- The label was made while the supply went from `lo` to `hi`. -/
def IsLabel (lo hi : Nat) (label : Name) : Prop :=
  ∃ base ∈ ["block", "loop"], ∃ number, label = NameSupply.nameAt base number ∧
    lo < number ∧ number ≤ hi

/-- A wider range has more labels. -/
theorem IsLabel.mono {lo lo' hi hi' : Nat} (hlo : lo' ≤ lo) (hhi : hi ≤ hi') {label : Name}
    (h : IsLabel lo hi label) : IsLabel lo' hi' label := by
  obtain ⟨base, hbase, number, hlabel, hlt, hle⟩ := h
  exact ⟨base, hbase, number, hlabel, by omega, by omega⟩

/-- Labels made one after the other differ. -/
theorem IsLabel.ne {lo hi hi' : Nat} {label label' : Name} (h : IsLabel lo hi label)
    (h' : IsLabel hi hi' label') : label ≠ label' := by
  obtain ⟨base, -, number, rfl, -, hle⟩ := h
  obtain ⟨base', -, number', rfl, hlt, -⟩ := h'
  intro heq
  have := (NameSupply.nameAt_inj.mp heq).2
  omega

/-- The second list is the first one with new blocks in front, whose labels are different names
taken from the supply on the way. -/
structure Adds (blocks blocks' : List Block) (s s' : NameSupply) : Prop where
  le : s.issued ≤ s'.issued
  added : ∃ added : List Block, blocks' = added ++ blocks ∧ (added.map Block.label).Nodup ∧
    ∀ block ∈ added, IsLabel s.issued s'.issued block.label

namespace Adds

variable {blocks blocks₁ blocks₂ : List Block} {s s₁ s₂ : NameSupply}

theorem refl (blocks : List Block) (s : NameSupply) : Adds blocks blocks s s :=
  ⟨Nat.le_refl _, [], rfl, List.nodup_nil, List.forall_mem_nil _⟩

theorem trans (h₁ : Adds blocks blocks₁ s s₁) (h₂ : Adds blocks₁ blocks₂ s₁ s₂) :
    Adds blocks blocks₂ s s₂ := by
  obtain ⟨hle₁, added₁, rfl, hnodup₁, hlabels₁⟩ := h₁
  obtain ⟨hle₂, added₂, rfl, hnodup₂, hlabels₂⟩ := h₂
  refine ⟨Nat.le_trans hle₁ hle₂, added₂ ++ added₁, (List.append_assoc _ _ _).symm, ?_, ?_⟩
  · rw [List.map_append, List.nodup_append]
    refine ⟨hnodup₂, hnodup₁, ?_⟩
    intro label hlabel label' hlabel'
    obtain ⟨block, hblock, rfl⟩ := List.mem_map.mp hlabel
    obtain ⟨block', hblock', rfl⟩ := List.mem_map.mp hlabel'
    exact ((hlabels₁ block' hblock').ne (hlabels₂ block hblock)).symm
  · refine List.forall_mem_append.mpr ⟨fun block hblock => ?_, fun block hblock => ?_⟩
    · exact (hlabels₂ block hblock).mono hle₁ (Nat.le_refl _)
    · exact (hlabels₁ block hblock).mono (Nat.le_refl _) hle₂

/-- A label that is taken first and gets its block last. -/
theorem late {base : String} (hbase : base ∈ ["block", "loop"])
    (h : Adds blocks blocks₁ ⟨s.issued + 1⟩ s₁) (code : List Stmt) :
    Adds blocks (⟨NameSupply.nameAt base (s.issued + 1), code⟩ :: blocks₁) s s₁ := by
  obtain ⟨hle, added, rfl, hnodup, hlabels⟩ := h
  have hlabel : IsLabel s.issued (s.issued + 1) (NameSupply.nameAt base (s.issued + 1)) :=
    ⟨base, hbase, _, rfl, Nat.lt_succ_self _, Nat.le_refl _⟩
  refine ⟨Nat.le_of_succ_le hle, ⟨_, code⟩ :: added, rfl, ?_, ?_⟩
  · rw [List.map_cons, List.nodup_cons]
    refine ⟨fun hmem => ?_, hnodup⟩
    obtain ⟨block, hblock, heq⟩ := List.mem_map.mp hmem
    exact hlabel.ne (hlabels block hblock) heq.symm
  · refine List.forall_mem_cons.mpr ⟨hlabel.mono (Nat.le_refl _) hle, fun block hblock => ?_⟩
    exact (hlabels block hblock).mono (Nat.le_succ _) (Nat.le_refl _)

/-- Blocks that were there stay. -/
theorem subset (h : Adds blocks blocks₁ s s₁) : ∀ block ∈ blocks, block ∈ blocks₁ := by
  obtain ⟨-, added, rfl, -, -⟩ := h
  exact fun block hblock => List.mem_append_right added hblock

end Adds

/-- A computation that only adds blocks. -/
def AddsBlocks {α : Type} (m : Building α) : Prop :=
  ∀ blocks s a blocks' s', m blocks s = .ok ((a, blocks'), s') → Adds blocks blocks' s s'

namespace AddsBlocks

variable {α β : Type}

theorem pure (a : α) : AddsBlocks (Pure.pure a) := by
  intro blocks s b blocks' s' h
  cases h
  exact .refl blocks s

theorem bind {m : Building α} {f : α → Building β} (hm : AddsBlocks m)
    (hf : ∀ a, AddsBlocks (f a)) : AddsBlocks (m >>= f) := by
  intro blocks s b blocks' s' h
  obtain ⟨a, blocks₁, s₁, ha, hb⟩ := bind_eq_ok.mp h
  exact (hm _ _ _ _ _ ha).trans (hf a _ _ _ _ _ hb)

/-- A step without blocks. -/
theorem lift (x : Except CompileError α) : AddsBlocks (liftM x) := by
  intro blocks s a blocks' s' h
  obtain ⟨-, rfl, rfl⟩ := liftM_eq_ok.mp h
  exact .refl _ _

/-- A new block has a new label. -/
theorem newBlock (code : List Stmt) : AddsBlocks (Flow.newBlock code) := by
  intro blocks s label blocks' s' h
  cases h
  exact (Adds.refl blocks ⟨s.issued + 1⟩).late (by decide) code

/-- So has code, unless it is a jump. -/
theorem labelFor (code : List Stmt) : AddsBlocks (Flow.labelFor code) := by
  unfold Flow.labelFor
  split
  · exact pure _
  · exact newBlock _

/-- Several steps without blocks. -/
theorem mapM_lift {γ : Type} (f : γ → Except CompileError α) (cs : List γ) :
    AddsBlocks (cs.mapM (liftM ∘ f)) := by
  induction cs with
  | nil => exact pure []
  | cons c cs ih =>
    rw [List.mapM_cons]
    exact (lift (f c)).bind fun a => ih.bind fun as => pure _

end AddsBlocks

end Flow

open TupleLang.Flow (AddsBlocks)

/-- The statements of a block, one after the other. -/
theorem Stmt.addsBlocks_toFlowBlock {ss : List Stmt}
    (h : ∀ st ∈ ss, ∀ next, AddsBlocks (st.toFlow next)) (next : List Flow.Stmt) :
    AddsBlocks (Stmt.toFlowBlock next ss) := by
  induction ss with
  | nil => exact .pure next
  | cons st ss ih =>
    obtain ⟨hst, hss⟩ := List.forall_mem_cons.mp h
    rw [Stmt.toFlowBlock]
    exact (ih hss).bind fun rest => hst rest

/-- Turning a program into code adds blocks with new labels. -/
theorem addsBlocks_toFlow :
    TreeInduction (fun e => ∀ positive negative, AddsBlocks (e.toBranch positive negative))
      (fun st => ∀ next, AddsBlocks (st.toFlow next)) where
  var name positive negative := .pure _
  const value positive negative := by
    cases value with
    | int value => exact .lift _
    | bool value => exact .pure _
  primitive operator operands ih positive negative := by
    unfold Expr.toBranch
    split
    · next heq => cases heq
    · next heq => cases heq
    · next operand heq =>
      cases heq
      exact ih operand List.mem_cons_self negative positive
    · next lhs rhs heq =>
      cases heq
      refine (ih rhs (by simp) positive negative).bind fun code => ?_
      exact (AddsBlocks.labelFor code).bind fun right => ih lhs (by simp) right negative
    · next lhs rhs heq =>
      cases heq
      refine (ih rhs (by simp) positive negative).bind fun code => ?_
      exact (AddsBlocks.labelFor code).bind fun right => ih lhs (by simp) positive right
    · next heq =>
      cases heq
      split
      · exact (AddsBlocks.lift _).bind fun _ => (AddsBlocks.lift _).bind fun _ =>
          (AddsBlocks.lift _).bind fun _ => .pure _
      · exact (AddsBlocks.lift _).bind fun _ => (AddsBlocks.lift _).bind fun _ => .pure _
    · next heq => cases heq
    · exact .lift _
  call target arguments _ _ positive negative := .lift _
  tuple fields _ positive negative := .lift _
  begin statements value ihs ihv positive negative := by
    rw [Expr.toBranch]
    exact (ihv positive negative).bind (Stmt.addsBlocks_toFlowBlock ihs)
  global name positive negative := .lift _
  allocate bytes ty positive negative := .lift _
  assign target value _ next := (AddsBlocks.lift _).bind fun _ => .pure _
  print value _ next := (AddsBlocks.lift _).bind fun _ => .pure _
  ifElse condition positive negative ihc ihp ihn next := by
    rw [Stmt.toFlow]
    refine (AddsBlocks.labelFor next).bind fun join => ?_
    refine (Stmt.addsBlocks_toFlowBlock ihp _).bind fun code => ?_
    refine (AddsBlocks.newBlock code).bind fun positive' => ?_
    refine (Stmt.addsBlocks_toFlowBlock ihn _).bind fun code' => ?_
    exact (AddsBlocks.newBlock code').bind fun negative' => ihc positive' negative'
  whileDo condition body ihc ihb next := by
    intro blocks s code blocks' s' h
    rw [Stmt.toFlow] at h
    obtain ⟨join, blocks₁, s₁, hjoin, h⟩ := Flow.bind_eq_ok.mp h
    obtain ⟨test, blocks₂, s₂, htest, h⟩ := Flow.bind_eq_ok.mp h
    cases htest
    obtain ⟨body', blocks₃, s₃, hbody, h⟩ := Flow.bind_eq_ok.mp h
    obtain ⟨label, blocks₄, s₄, hlabel, h⟩ := Flow.bind_eq_ok.mp h
    obtain ⟨branch, blocks₅, s₅, hbranch, h⟩ := Flow.bind_eq_ok.mp h
    cases h
    have hadds := ((Stmt.addsBlocks_toFlowBlock ihb _ _ _ _ _ _ hbody).trans
      (AddsBlocks.newBlock _ _ _ _ _ _ hlabel)).trans (ihc _ _ _ _ _ _ _ hbranch)
    exact (AddsBlocks.labelFor next _ _ _ _ _ hjoin).trans (hadds.late (by decide) branch)
  ret value _ next := by
    cases value with
    | call target arguments =>
      rw [Stmt.toFlow]
      exact (AddsBlocks.lift _).bind fun _ => (AddsBlocks.mapM_lift _ _).bind fun _ => .pure _
    | _ => exact (AddsBlocks.lift _).bind fun _ => .pure _
  define name parameters output body _ next := .lift _
  collect bytes next := .pure _
  setField tuple index value _ next := (AddsBlocks.lift _).bind fun _ => .pure _

end TupleLang
