import TupleLang.Proofs.StackDiscipline

/-!
# Different labels

All labels of a finished program are different (`Program.Stages.nodup_labels`).  A function has four
kinds of labels (`Flow.IsLabelOf`): its own name, the labels of its start and of its conclusion, and
names that were taken from the supply while its blocks were made.  Names of functions hold no
separator and the others do; what follows the last separator tells the other kinds apart, and
functions are made one after the other, so they take different numbers from the supply
(`Flow.IsLabelOf.ne`).
-/

namespace TupleLang

open Stateful
open X86 (Instruction)

/-! ## Kinds of labels -/

namespace Name

/-- Functions differ if their start labels do not agree. -/
theorem startLabel_inj {function function' : Name}
    (h : function.startLabel = function'.startLabel) : function = function' := by
  have hlist := congrArg String.toList h
  rw [toList_startLabel, toList_startLabel] at hlist
  exact String.toList_inj.mp (NameSupply.append_cons_inj (by decide) (by decide) hlist).1

/-- The same for their conclusions. -/
theorem conclusionLabel_inj {function function' : Name}
    (h : function.conclusionLabel = function'.conclusionLabel) : function = function' := by
  have hlist := congrArg String.toList h
  rw [toList_conclusionLabel, toList_conclusionLabel] at hlist
  exact String.toList_inj.mp (NameSupply.append_cons_inj (by decide) (by decide) hlist).1

end Name

namespace Flow

/-- The labels of a function whose blocks were made while the supply went from `lo` to `hi`. -/
inductive IsLabelOf (name : Name) (lo hi : Nat) : Name → Prop
  | entry : IsLabelOf name lo hi name
  | start : IsLabelOf name lo hi name.startLabel
  | block {label : Name} (h : IsLabel lo hi label) : IsLabelOf name lo hi label
  | conclusion : IsLabelOf name lo hi name.conclusionLabel

namespace IsLabelOf

variable {name name' label label' : Name} {lo middle hi : Nat}

/-- All labels but the name are generated. -/
theorem eq_or_isGenerated (h : IsLabelOf name lo hi label) :
    label = name ∨ label.isGenerated = true := by
  cases h with
  | entry => exact .inl rfl
  | start => exact .inr name.isGenerated_startLabel
  | block h =>
    obtain ⟨base, -, number, rfl, -⟩ := h
    exact .inr (NameSupply.isGenerated_nameAt base number)
  | conclusion => exact .inr name.isGenerated_conclusionLabel

/-- Functions made one after the other have no label in common. -/
theorem ne (h : IsLabelOf name lo middle label) (h' : IsLabelOf name' middle hi label')
    (hname : name.isGenerated = false) (hname' : name'.isGenerated = false) (hne : name ≠ name') :
    label ≠ label' := by
  have hgenerated {name label : Name} (hname : name.isGenerated = false)
      (hlabel : label.isGenerated = true) : name ≠ label := by
    rintro rfl
    rw [hname] at hlabel
    cases hlabel
  cases h with
  | entry =>
    obtain rfl | hlabel' := h'.eq_or_isGenerated
    · exact hne
    · exact hgenerated hname hlabel'
  | start =>
    cases h' with
    | entry => exact (hgenerated hname' name.isGenerated_startLabel).symm
    | start => exact fun heq => hne (Name.startLabel_inj heq)
    | block h' =>
      obtain ⟨base, -, number, rfl, -⟩ := h'
      exact name.startLabel_ne_nameAt base number
    | conclusion => exact name.startLabel_ne_conclusionLabel name'
  | block h =>
    obtain ⟨base, hbase, number, rfl, hbounds⟩ := h
    cases h' with
    | entry => exact (hgenerated hname' (NameSupply.isGenerated_nameAt base number)).symm
    | start => exact (name'.startLabel_ne_nameAt base number).symm
    | block h' => exact IsLabel.ne ⟨base, hbase, number, rfl, hbounds⟩ h'
    | conclusion => exact name'.conclusionLabel_ne_nameAt base number
  | conclusion =>
    cases h' with
    | entry => exact (hgenerated hname' name.isGenerated_conclusionLabel).symm
    | start => exact (name'.startLabel_ne_conclusionLabel name).symm
    | block h' =>
      obtain ⟨base, -, number, rfl, -⟩ := h'
      exact (name.conclusionLabel_ne_nameAt base number).symm
    | conclusion => exact fun heq => hne (Name.conclusionLabel_inj heq)

theorem mono {lo' hi' : Nat} (hlo : lo' ≤ lo) (hhi : hi ≤ hi') (h : IsLabelOf name lo hi label) :
    IsLabelOf name lo' hi' label := by
  cases h with
  | entry => exact .entry
  | start => exact .start
  | block h => exact .block (h.mono hlo hhi)
  | conclusion => exact .conclusion

end IsLabelOf

/-! ## Functions of control-flow programs -/

/-- The labels that a function has in the end: those of its blocks between its own name, where it
is entered, and the label of its conclusion. -/
def Function.finishedLabels (function : Function) : List Name :=
  function.name :: (function.labels ++ [function.name.conclusionLabel])

/-- The function has different labels, of the kinds that there are, and its name is not
generated. -/
structure Function.OwnsLabels (lo hi : Nat) (function : Function) : Prop where
  name : function.name.isGenerated = false
  nodup : function.finishedLabels.Nodup
  isLabelOf : ∀ label ∈ function.finishedLabels, IsLabelOf function.name lo hi label

namespace Function.OwnsLabels

variable {function function' : Function} {lo middle hi : Nat}

theorem mono {lo' hi' : Nat} (hlo : lo' ≤ lo) (hhi : hi ≤ hi') (h : function.OwnsLabels lo hi) :
    function.OwnsLabels lo' hi' :=
  ⟨h.name, h.nodup, fun label hlabel => (h.isLabelOf label hlabel).mono hlo hhi⟩

/-- Different functions have different labels. -/
theorem disjoint (h : function.OwnsLabels lo middle) (h' : function'.OwnsLabels middle hi)
    (hne : function.name ≠ function'.name) :
    function.finishedLabels.Disjoint function'.finishedLabels := by
  intro label hlabel hlabel'
  exact (h.isLabelOf label hlabel).ne (h'.isLabelOf label hlabel') h.name h'.name hne rfl

end Function.OwnsLabels

/-- The labels of a function are its own. -/
theorem ownsLabels_functionOf {environment : TypeEnvironment} {name : Name}
    {parameters : List Name} {body : List TupleLang.Stmt} {s s' : NameSupply}
    {function : Flow.Function} (hname : name.isGenerated = false)
    (h : functionOf environment name parameters body s = .ok (function, s')) :
    s.issued ≤ s'.issued ∧ function.OwnsLabels s.issued s'.issued := by
  have howns := hasOwnLabels_functionOf hname h
  obtain ⟨start, blocks, hblocks, rfl⟩ := functionOf_eq_ok h
  obtain ⟨hle, added, hadded, hnodup, hlabels⟩ :=
    Stmt.addsBlocks_toFlowBlock (addsBlocks_toFlow.stmts body) _ _ _ _ _ _ hblocks
  rw [List.append_nil] at hadded
  subst hadded
  have hisLabelOf : ∀ label ∈ name.startLabel :: blocks.map Block.label,
      IsLabelOf name s.issued s'.issued label :=
    List.forall_mem_cons.mpr ⟨.start, List.forall_mem_map.mpr fun block hblock =>
      .block (hlabels block hblock)⟩
  refine ⟨hle, hname, ?_, ?_⟩
  · have hstart : name.startLabel ∉ blocks.map Block.label := by
      intro hmem
      obtain ⟨block, hblock, heq⟩ := List.mem_map.mp hmem
      obtain ⟨base, -, number, hlabel, -⟩ := hlabels block hblock
      exact name.startLabel_ne_nameAt base number (heq.symm.trans hlabel)
    have hconclusion : name.conclusionLabel ∉ name.startLabel :: blocks.map Block.label :=
      fun hmem => (howns.labels _ hmem).2 rfl
    refine List.nodup_cons.mpr ⟨fun hmem => ?_, List.Nodup.append (List.nodup_cons.mpr
      ⟨hstart, hnodup⟩) (List.nodup_singleton _) (List.disjoint_singleton.mpr hconclusion)⟩
    -- the name of the function is the only label that is not generated
    have hgenerated : name.isGenerated = true := by
      rcases List.mem_append.mp hmem with hmem | hmem
      · exact (howns.labels _ hmem).1
      · have heq : name = name.conclusionLabel := List.mem_singleton.mp hmem
        exact heq ▸ name.isGenerated_conclusionLabel
    rw [hname] at hgenerated
    cases hgenerated
  · exact List.forall_mem_cons.mpr ⟨.entry, List.forall_mem_append.mpr
      ⟨hisLabelOf, List.forall_mem_singleton.mpr .conclusion⟩⟩

end Flow

variable {s s' : NameSupply} {program : Program} {environment : TypeEnvironment}

/-- What stages that run one after the other give, if each result has something to do with the
names taken for it: of two results, the earlier one has to do with earlier names. -/
theorem Lowering.pairwise_of_mapM {α β : Type} {f : α → Lowering β} {p : Nat → Nat → β → Prop}
    (hmono : ∀ {lo lo' hi hi' : Nat} {b : β}, lo' ≤ lo → hi ≤ hi' → p lo hi b → p lo' hi' b)
    {as : List α}
    (hp : ∀ a ∈ as, ∀ s b s', f a s = .ok (b, s') →
      s.issued ≤ s'.issued ∧ p s.issued s'.issued b) {bs : List β}
    (h : as.mapM f s = .ok (bs, s')) :
    s.issued ≤ s'.issued ∧ (∀ b ∈ bs, p s.issued s'.issued b) ∧
      bs.Pairwise fun b b' => ∃ middle, p s.issued middle b ∧ p middle s'.issued b' := by
  induction as generalizing bs s with
  | nil =>
    cases h
    exact ⟨Nat.le_refl _, List.forall_mem_nil _, .nil⟩
  | cons a as ih =>
    obtain ⟨ha, has⟩ := List.forall_mem_cons.mp hp
    rw [List.mapM_cons, bind₂_eq_ok] at h
    obtain ⟨b, s₁, rest, hb, hrest, rfl⟩ := h
    obtain ⟨hle, hfirst⟩ := ha _ _ _ hb
    obtain ⟨hle', hothers, hpairs⟩ := ih has hrest
    refine ⟨Nat.le_trans hle hle', List.forall_mem_cons.mpr ⟨hmono (Nat.le_refl _) hle' hfirst,
      fun b' hb' => hmono hle (Nat.le_refl _) (hothers b' hb')⟩, .cons (fun b' hb' => ?_) ?_⟩
    · exact ⟨s₁.issued, hfirst, hothers b' hb'⟩
    · refine hpairs.imp fun hpair => ?_
      obtain ⟨middle, hleft, hright⟩ := hpair
      exact ⟨middle, hmono hle (Nat.le_refl _) hleft, hright⟩

/-- All labels of the functions of a control-flow program are different if the functions have
different names that are not generated. -/
theorem Program.nodup_finishedLabels {flow : Flow.Program}
    (hnames : ∀ f ∈ program.functions, f.name.isGenerated = false)
    (hnodup : (program.functions.map Function.name).Nodup)
    (hentry : Name.entryPoint ∉ program.functions.map Function.name)
    (h : program.toFlow environment s = .ok (flow, s')) :
    flow.functions.map Flow.Function.name =
        program.functions.map Function.name ++ [Name.entryPoint] ∧
      (flow.functions.flatMap Flow.Function.finishedLabels).Nodup := by
  obtain ⟨functions, s₁, entry, hfunctions, hentryFunction, rfl⟩ := Program.toFlow_eq_ok h
  have hsame : (functions ++ [entry]).map Flow.Function.name =
      program.functions.map Function.name ++ [Name.entryPoint] := by
    have hfirst : functions.map Flow.Function.name = program.functions.map Function.name := by
      refine map_eq_of_forall₂ ((forall₂_of_mapM hfunctions).imp fun f function hfunction => ?_)
      obtain ⟨_, _, hfunction⟩ := hfunction
      obtain ⟨start, blocks, -, rfl⟩ := Flow.functionOf_eq_ok hfunction
      rfl
    obtain ⟨start, blocks, -, rfl⟩ := Flow.functionOf_eq_ok hentryFunction
    rw [List.map_append, hfirst]
    rfl
  refine ⟨hsame, ?_⟩
  obtain ⟨hle, hall, hpairs⟩ := Lowering.pairwise_of_mapM
    (p := fun lo hi (function : Flow.Function) => function.OwnsLabels lo hi)
    (fun hlo hhi howns => howns.mono hlo hhi)
    (fun f hf _ _ _ hfunction => Flow.ownsLabels_functionOf (hnames f hf) hfunction) hfunctions
  obtain ⟨-, hlast⟩ := Flow.ownsLabels_functionOf (by decide) hentryFunction
  have hordered : (functions ++ [entry]).Pairwise fun function function' =>
      ∃ lo middle hi, function.OwnsLabels lo middle ∧ function'.OwnsLabels middle hi := by
    refine List.pairwise_append.mpr ⟨hpairs.imp fun hpair => ?_, List.pairwise_singleton .., ?_⟩
    · obtain ⟨middle, hfunction, hfunction'⟩ := hpair
      exact ⟨_, middle, _, hfunction, hfunction'⟩
    · intro function hfunction function' hfunction'
      cases List.mem_singleton.mp hfunction'
      exact ⟨_, _, _, hall function hfunction, hlast⟩
  have hdifferent : (functions ++ [entry]).Pairwise fun function function' =>
      function.name ≠ function'.name := by
    refine List.pairwise_map.mp (hsame ▸ ?_)
    exact hnodup.append (List.nodup_singleton _) (List.disjoint_singleton.mpr hentry)
  refine List.nodup_flatMap.mpr ⟨List.forall_mem_append.mpr
    ⟨fun function hfunction => (hall function hfunction).nodup,
      List.forall_mem_singleton.mpr hlast.nodup⟩, ?_⟩
  refine (hordered.and hdifferent).imp fun hpair => ?_
  obtain ⟨⟨lo, middle, hi, hfunction, hfunction'⟩, hne⟩ := hpair
  exact hfunction.disjoint hfunction' hne

/-! ## Finished functions -/

namespace X86.Function

variable {config : Config} {functionNames : Std.ExtTreeSet Name} {flow : Flow.Function}
  {function : X86.Function}

/-- The blocks of a function keep their labels until it is finished. -/
theorem ComesFrom.labels_eq (hconfig : config.validate = .ok ())
    (h : function.ComesFrom config functionNames flow) :
    function.name = flow.name ∧ function.blocks.map Block.label = flow.labels := by
  obtain ⟨selected, s, s', hselect, hallocates⟩ := h
  obtain ⟨hname, hblocks⟩ := Flow.Function.select_eq_ok hselect
  obtain ⟨hname', -, place, -, hblocks'⟩ := hallocates.exists_place hconfig
  refine ⟨hname'.trans hname, ?_⟩
  rw [hblocks', List.map_map]
  exact map_eq_of_forall₂ (hblocks.imp fun _ _ hblock => hblock.1)

/-- The labels of the finished code. -/
theorem ComesFrom.finishedLabels_eq (hconfig : config.validate = .ok ())
    (h : function.ComesFrom config functionNames flow) :
    ((function.expand Instruction.patch).enclose config).blocks.map Block.label =
      flow.finishedLabels := by
  obtain ⟨hname, hlabels⟩ := h.labels_eq hconfig
  rw [blocks_enclose, Flow.Function.finishedLabels, ← hname, ← hlabels, List.map_append,
    List.map_cons, List.map_map]
  rfl

end X86.Function

/-- Functions have no reserved names. -/
theorem Typing.ProgramChecks.notMem_reserved {lowered : Bool}
    (h : ProgramChecks lowered program environment) {name : Name}
    (hname : name ∈ program.functions.map Function.name) : name ∉ Name.reserved := by
  obtain ⟨f, hf, rfl⟩ := List.mem_map.mp hname
  have hbindable := (signaturesAdded h.functions).bindable f hf
  rw [mayBind, Bool.and_eq_true, Bool.not_eq_true'] at hbindable
  exact fun hmem => Bool.eq_false_iff.mp hbindable.1 (List.contains_iff_mem.mpr hmem)

namespace Program.Stages

variable {config : Config} {program : Program} {types environment : TypeEnvironment}
  {selected : X86.Program} {allocated : List X86.Function}

/-- The stages know the functions of the program, and none of them is the entry point. -/
theorem mem_functions (htypes : program.typeCheck = .ok types)
    (h : program.Stages config environment selected allocated) {exposed : Program}
    (hchecks : Typing.ProgramChecks true exposed environment) (name : Name) :
    name ∈ exposed.functions.map Function.name ↔ name ∈ program.functions.map Function.name := by
  have hcontains := congrFun hchecks.contains_functions name
  rw [h.functions_eq htypes,
    congrFun (Typing.checkProgram_eq_ok.mp htypes).contains_functions name] at hcontains
  exact List.contains_iff_mem.symm.trans ((Bool.eq_iff_iff.mp hcontains).symm.trans
    List.contains_iff_mem)

/-- The finished program has the functions of the program, and the entry point.  All labels are
different. -/
theorem nodup_labels (hconfig : config.validate = .ok ()) (htypes : program.typeCheck = .ok types)
    (h : program.Stages config environment selected allocated) :
    (∀ name, name ∈ ((X86.Program.patch ⟨allocated⟩).enclose config).functions.map
        X86.Function.name ↔ name ∈ program.functions.map Function.name ∨ name = Name.entryPoint) ∧
      ((((X86.Program.patch ⟨allocated⟩).enclose config).functions.flatMap
        X86.Function.blocks).map X86.Block.label).Nodup := by
  obtain ⟨flat, s₁, environment₁, exposed, s₂, flow, s₃, -, -, hchecks₂, hflow, -, hfrom⟩ :=
    h.exists_flow
  have hentry : Name.entryPoint ∉ exposed.functions.map Function.name :=
    fun hmem => hchecks₂.notMem_reserved hmem List.mem_cons_self
  obtain ⟨hnames, hnodup⟩ := Program.nodup_finishedLabels (h.isGenerated_name htypes hchecks₂)
    (Typing.signaturesAdded hchecks₂.functions).nodup hentry hflow
  have hfunctions : ((X86.Program.patch ⟨allocated⟩).enclose config).functions =
      allocated.map fun function => (function.expand Instruction.patch).enclose config := by
    rw [X86.Program.enclose, X86.Program.patch, List.map_map]
    rfl
  constructor
  · intro name
    have hsame : allocated.map X86.Function.name = flow.functions.map Flow.Function.name :=
      map_eq_of_forall₂ (hfrom.imp fun _ _ hfunction => (hfunction.labels_eq hconfig).1)
    rw [hfunctions, List.map_map, ← h.mem_functions htypes hchecks₂]
    change name ∈ allocated.map X86.Function.name ↔ _
    rw [hsame, hnames, List.mem_append, List.mem_singleton]
  · have hlabels : (allocated.map fun function =>
        ((function.expand Instruction.patch).enclose config).blocks.map X86.Block.label) =
        flow.functions.map Flow.Function.finishedLabels :=
      map_eq_of_forall₂ (hfrom.imp fun _ _ hfunction => hfunction.finishedLabels_eq hconfig)
    rw [hfunctions, List.flatMap_map, List.map_flatMap, List.flatMap_def, hlabels,
      ← List.flatMap_def]
    exact hnodup

end Program.Stages

end TupleLang
