import TupleLang.Proofs.Allowances
import TupleLang.Proofs.DistinctLabels

/-!
# Linked code

The instructions of a finished program mention names only in four ways.  Jumps go to labels of the
same function, calls go to functions of the program or of the run-time system, the addresses that
are taken are those of functions, and all other globals belong to the run-time system.  Such an
instruction is *linked* (`X86.Instruction.isLinked`).

Selected instructions are so but for tail jumps, which may name their function
(`Selection.Emits.isLinkable`), and the stages after that keep it so: homes are no globals
(`X86.PutsInHomes.isLinkable_mapOperands`), and patches only add moves through scratch registers
(`X86.Instruction.BecomesPart.isLinkable`).  The code of frames mentions the start of its function
and what the run-time system provides, and that of a tail jump takes the address of its function.
So whole functions are linked (`X86.Function.ComesFrom.isLinked`).
-/

namespace TupleLang

open Stateful
open X86 (BinaryOperator Instruction Operand)

namespace Name

/-- The functions of the run-time system. -/
def services : List Name := [printInt, mapHeap, collector]

/-- The globals of the run-time system. -/
def runtimeGlobals : List Name := [freePointer, fromspaceEnd, rootStackBegin]

/-- The services have reserved names. -/
theorem services_subset_reserved : services ⊆ reserved := by decide

end Name

/-! ## Linked instructions -/

/-- Whether the operand is no global, or one of the given ones. -/
def X86.Operand.namesOnly (globals : List Name) : Operand → Bool
  | .global name => globals.contains name
  | _ => true

/-- Whether the instruction jumps to the given labels only, calls and takes addresses of the given
functions only, the run-time system apart, and mentions no other globals than those of the run-time
system. -/
def X86.Instruction.isLinked (entries labels : List Name) : Instruction → Bool
  | .binary .leaq source destination =>
    source.namesOnly entries && destination.namesOnly Name.runtimeGlobals
  | .callq label _ => entries.contains label || Name.services.contains label
  | .jump label | .jumpIf _ label => labels.contains label
  | instruction => instruction.operands.all (·.namesOnly Name.runtimeGlobals)

/-- Whether the instruction is linked once frames are there: until then a tail jump may go to a
function by its name. -/
def X86.Instruction.isLinkable (entries labels : List Name) : Instruction → Bool
  | .tailJump target _ => target.namesOnly entries
  | instruction => instruction.isLinked entries labels

variable {entries labels : List Name}

/-- An operand that is no global names nothing. -/
theorem X86.Operand.namesOnly_of_isGlobal {operand : Operand} (h : operand.isGlobal = false)
    (globals : List Name) : operand.namesOnly globals = true := by
  cases operand with
  | global name => cases h
  | _ => rfl

namespace X86.Instruction

/-- The globals that the source of an instruction may be. -/
def sourceGlobals (entries : List Name) (operator : BinaryOperator) : List Name :=
  if operator = .leaq then entries else Name.runtimeGlobals

variable {operator : BinaryOperator} {source destination : Operand} {instruction : Instruction}

/-- What is linked among instructions with two operands. -/
theorem isLinked_binary :
    (binary operator source destination).isLinked entries labels = true ↔
      source.namesOnly (sourceGlobals entries operator) = true ∧
        destination.namesOnly Name.runtimeGlobals = true := by
  cases operator with
  | leaq => exact Bool.and_eq_true_iff
  | _ => simp [isLinked, operands, sourceGlobals]

/-- The same before tail jumps are expanded. -/
theorem isLinkable_binary :
    (binary operator source destination).isLinkable entries labels = true ↔
      source.namesOnly (sourceGlobals entries operator) = true ∧
        destination.namesOnly Name.runtimeGlobals = true :=
  isLinked_binary

/-- Operations without globals are linked. -/
theorem isLinked_of_isOperation (h : instruction.isOperation = true)
    (hoperands : ∀ operand ∈ instruction.operands, operand.isGlobal = false) :
    instruction.isLinked entries labels = true := by
  have hnames (globals : List Name) : ∀ operand ∈ instruction.operands,
      operand.namesOnly globals = true := fun operand hoperand =>
    Operand.namesOnly_of_isGlobal (hoperands operand hoperand) globals
  cases instruction with
  | binary operator source destination =>
    exact isLinked_binary.mpr ⟨hnames _ source List.mem_cons_self,
      hnames _ destination (List.mem_cons_of_mem _ List.mem_cons_self)⟩
  | negq | set | pushq => exact List.all_eq_true.mpr (hnames _)
  | _ => cases h

/-- Operations without globals can be linked. -/
theorem isLinkable_of_isOperation (h : instruction.isOperation = true)
    (hoperands : ∀ operand ∈ instruction.operands, operand.isGlobal = false) :
    instruction.isLinkable entries labels = true := by
  have hlinked : instruction.isLinked entries labels = true :=
    isLinked_of_isOperation h hoperands
  cases instruction with
  | tailJump => cases h
  | _ => exact hlinked

end X86.Instruction

/-! ## Selected instructions -/

/-- Calls may have any number of arguments, but the only globals are those of the run-time
system. -/
def Allowance.runtime : Allowance where
  calls _ := true
  globals name := Name.runtimeGlobals.contains name

namespace Selection

variable {context : Context} {st : Flow.Stmt} {instruction : Instruction} {s s' : NameSupply}

/-- Selected instructions can be linked. -/
theorem Emits.isLinkable (h : Emits context st instruction)
    (hentries : ∀ name, context.functionNames.contains name = true → name ∈ entries)
    (hst : st.isWithin .runtime = true) (hjumps : ∀ label ∈ instruction.jumps, label ∈ labels) :
    instruction.isLinkable entries labels = true := by
  cases h with
  | address hname target =>
    exact Bool.and_eq_true_iff.mpr ⟨List.contains_iff_mem.mpr (hentries _ hname), rfl⟩
  | global heq =>
    subst heq
    exact X86.Instruction.isLinkable_binary.mpr ⟨hst, rfl⟩
  | free | advance bytes => rfl
  | operation hoperation hoperands =>
    exact X86.Instruction.isLinkable_of_isOperation hoperation hoperands
  | callq used hlabel =>
    refine Bool.or_eq_true_iff.mpr (hlabel.imp (fun hname => ?_) ?_)
    · exact List.contains_iff_mem.mpr (hentries _ hname)
    · rintro (rfl | rfl) <;> rfl
  | callIndirect used => rfl
  | tailJump used htarget =>
    obtain ⟨hname, rfl⟩ | rfl := htarget
    · exact List.contains_iff_mem.mpr (hentries _ hname)
    · rfl
  | jump | jumpIf => exact List.contains_iff_mem.mpr (hjumps _ List.mem_cons_self)

/-- So can the copying of parameters. -/
theorem isLinkable_copyParameters (registers : List X86.Register) (parameters : List Name) :
    ∀ instruction ∈ copyParameters registers parameters,
      instruction.isLinkable entries labels = true := by
  rw [copyParameters, List.mapIdx_eq_zipIdx_map]
  refine List.forall_mem_map.mpr fun entry _ => ?_
  refine X86.Instruction.isLinkable_of_isOperation rfl
    (List.forall_mem_cons.mpr ⟨?_, List.forall_mem_singleton.mpr rfl⟩)
  unfold argumentSource
  split <;> rfl

end Selection

/-! ## Later stages -/

namespace X86

variable {instruction : Instruction}

/-- Homes are no globals, and globals stay. -/
theorem PutsInHomes.namesOnly_eq {place : Operand → Operand} (hplace : PutsInHomes place)
    (globals : List Name) (operand : Operand) :
    (place operand).namesOnly globals = operand.namesOnly globals := by
  refine hplace.apply_eq (fun home name hhome => ?_) operand
  cases home with
  | register | deref => rfl
  | _ => cases hhome

/-- Homes are no globals, and globals stay where they are. -/
theorem PutsInHomes.isLinkable_mapOperands {place : Operand → Operand}
    (hplace : PutsInHomes place) (instruction : Instruction) :
    (instruction.mapOperands place).isLinkable entries labels =
      instruction.isLinkable entries labels := by
  have hsingle (operand : Operand) : [place operand].all (·.namesOnly Name.runtimeGlobals) =
      [operand].all (·.namesOnly Name.runtimeGlobals) := by
    simp only [List.all_cons, hplace.namesOnly_eq]
  cases instruction with
  | binary operator source destination =>
    rw [Instruction.mapOperands, Bool.eq_iff_iff, Instruction.isLinkable_binary,
      Instruction.isLinkable_binary, hplace.namesOnly_eq, hplace.namesOnly_eq]
  | tailJump target arguments => exact hplace.namesOnly_eq entries target
  | negq operand | set condition operand | pushq operand | popq operand => exact hsingle operand
  | callIndirect operand arguments | jumpIndirect operand => exact hsingle operand
  | callq | jump | jumpIf | retq | comment => rfl

/-- Constants are no globals. -/
theorem Operand.isGlobal_of_isWideImmediate {operand : Operand}
    (h : operand.isWideImmediate = true) : operand.isGlobal = false := by
  cases operand with
  | immediate value => rfl
  | _ => cases h

/-- Patches only move words through scratch registers. -/
theorem Instruction.BecomesPart.isLinkable {part : Instruction} (h : instruction.BecomesPart part)
    (hlinked : instruction.isLinkable entries labels = true) :
    part.isLinkable entries labels = true := by
  cases h with
  | same => exact hlinked
  | @load operator source destination scratch hscratch hsource =>
    refine isLinkable_binary.mpr ⟨?_, by obtain rfl | rfl := hscratch <;> rfl⟩
    by_cases hoperator : operator = .leaq
    · exact Operand.namesOnly_of_isGlobal
        (Operand.isGlobal_of_isWideImmediate (hsource hoperator)) _
    · have hnames := (isLinkable_binary.mp hlinked).1
      rwa [sourceGlobals, if_neg hoperator] at hnames
  | fetch => exact isLinkable_binary.mpr ⟨(isLinkable_binary.mp hlinked).2, rfl⟩
  | fromScratch | store => exact isLinkable_binary.mpr ⟨rfl, (isLinkable_binary.mp hlinked).2⟩
  | toScratch hsource =>
    refine isLinkable_binary.mpr ⟨?_, rfl⟩
    obtain rfl | rfl := hsource
    · exact (isLinkable_binary.mp hlinked).1
    · rfl
  | wide hwide =>
    exact isLinkable_binary.mpr
      ⟨Operand.namesOnly_of_isGlobal (Operand.isGlobal_of_isWideImmediate hwide) _, rfl⟩
  | push => rfl

/-! ## Frames -/

namespace FrameCode

/-- Leaving a frame is linked. -/
theorem isLinked_teardown (frame : Frame) :
    ∀ instruction ∈ teardown frame, instruction.isLinked entries labels = true :=
  forall_mem_teardown (fun _ => Instruction.isLinked_of_isOperation) (fun _ => rfl) frame

/-- The prelude is linked if the function has a start. -/
theorem isLinked_prelude (config : Config) {name : Name} (hstart : name.startLabel ∈ labels)
    (frame : Frame) :
    ∀ instruction ∈ prelude config name frame, instruction.isLinked entries labels = true :=
  forall_mem_prelude (fun _ => Instruction.isLinked_of_isOperation)
    (Bool.or_eq_true_iff.mpr (.inr rfl)) rfl (List.contains_iff_mem.mpr hstart) config frame

/-- The code of a tail jump takes the address of a function, or goes where a variable says. -/
theorem isLinked_expandTailJump {frame : Frame}
    (hlinked : instruction.isLinkable entries labels = true) :
    ∀ part ∈ expandTailJump frame instruction, part.isLinked entries labels = true := by
  cases instruction with
  | tailJump target arguments =>
    refine List.forall_mem_append.mpr ⟨List.forall_mem_append.mpr
      ⟨List.forall_mem_singleton.mpr ?_, isLinked_teardown frame⟩,
        List.forall_mem_singleton.mpr rfl⟩
    cases target with
    | global name => exact Bool.and_eq_true_iff.mpr ⟨hlinked, rfl⟩
    | _ => rfl
  | _ => exact List.forall_mem_singleton.mpr hlinked

end FrameCode

/-! ## Functions -/

namespace Function

variable {config : Config} {functionNames : Std.ExtTreeSet Name} {flow : Flow.Function}
  {function selected : X86.Function} {s s' : NameSupply}

/-- The instructions selected for a closed function can be linked. -/
theorem isLinkable_select (hclosed : flow.IsClosed)
    (hwithin : ∀ block ∈ flow.blocks, Flow.AreWithin .runtime block.statements)
    (hentries : ∀ name, functionNames.contains name = true → name ∈ entries)
    (h : flow.select config functionNames s = .ok (selected, s')) :
    ∀ block ∈ selected.blocks, ∀ instruction ∈ block.instructions,
      instruction.isLinkable entries flow.finishedLabels = true := by
  intro block hblock instruction hinstruction
  obtain ⟨source, hsource, hcodeOf⟩ := exists_of_forall₂ (Flow.Function.select_eq_ok h).2 hblock
  have hjumps : Selection.JumpsTo (· ∈ flow.finishedLabels) block.instructions := by
    refine hcodeOf.jumpsTo ((hclosed source hsource).mono fun label hlabel => ?_) ?_
    · exact List.mem_cons_of_mem _ (List.mem_append_left _ hlabel)
    · exact List.mem_cons_of_mem _ (List.mem_append_right _ List.mem_cons_self)
  replace hjumps := hjumps instruction hinstruction
  obtain ⟨-, parameters, code, s₁, s₂, hcode, hinstructions⟩ := hcodeOf
  rw [hinstructions] at hinstruction
  rcases List.mem_append.mp hinstruction with hmem | hmem
  · exact Selection.isLinkable_copyParameters _ parameters instruction hmem
  · refine Selection.forall_mem_statements (p := fun instruction =>
      (∀ label ∈ instruction.jumps, label ∈ flow.finishedLabels) →
        instruction.isLinkable entries flow.finishedLabels = true) (fun _ _ => rfl) ?_ hcode
        instruction hmem hjumps
    exact fun st hst instruction hemits hjumps =>
      hemits.isLinkable hentries (hwithin source hsource st hst) hjumps

/-- All instructions of a finished function are linked. -/
theorem ComesFrom.isLinked (hconfig : config.validate = .ok ())
    (h : function.ComesFrom config functionNames flow) (hclosed : flow.IsClosed)
    (hstart : flow.name.startLabel ∈ flow.labels)
    (hwithin : ∀ block ∈ flow.blocks, Flow.AreWithin .runtime block.statements)
    (hentries : ∀ name, functionNames.contains name = true → name ∈ entries) :
    ∀ instruction ∈ ((function.expand Instruction.patch).enclose config).instructions,
      instruction.isLinked entries flow.finishedLabels = true := by
  obtain ⟨selected, s, s', hselect, hallocates⟩ := h
  obtain ⟨hname, -⟩ := Flow.Function.select_eq_ok hselect
  obtain ⟨hname', -, place, hplace, hblocks⟩ := hallocates.exists_place hconfig
  intro instruction hinstruction
  obtain ⟨block, hblock, hmem⟩ := List.mem_flatMap.mp hinstruction
  rw [blocks_enclose, List.mem_append, List.mem_cons, List.mem_singleton, hblocks, List.map_map,
    List.mem_map] at hblock
  rcases hblock with (rfl | ⟨source, hsource, rfl⟩) | rfl
  · refine FrameCode.isLinked_prelude config ?_ function.frame instruction hmem
    rw [hname', hname]
    exact List.mem_cons_of_mem _ (List.mem_append_left _ hstart)
  · obtain ⟨patched, hpatched, hmem⟩ := List.mem_flatMap.mp hmem
    obtain ⟨placed, hplaced, hpatched⟩ := List.mem_flatMap.mp hpatched
    obtain ⟨original, horiginal, rfl⟩ := List.mem_map.mp hplaced
    have hlinkable := isLinkable_select hclosed hwithin hentries hselect source hsource original
      horiginal
    rw [← hplace.isLinkable_mapOperands] at hlinkable
    exact FrameCode.isLinked_expandTailJump
      ((Instruction.mem_patch hpatched).isLinkable hlinkable) instruction hmem
  · rcases List.mem_append.mp hmem with hmem | hmem
    · exact FrameCode.isLinked_teardown function.frame instruction hmem
    · cases List.mem_singleton.mp hmem
      rfl

end Function

end X86

/-! ## Programs -/

variable {program : Program} {environment : TypeEnvironment} {flow : Flow.Program}
  {s s' : NameSupply}

/-- A program as written mentions no globals. -/
theorem Program.within_of_isSurface (h : program.isSurface = true) :
    program.within .runtime = true := by
  have hexpr (e : Expr) : e.isWritten = (e.isWritten && e.isWithin .runtime) := by
    cases e <;> rfl
  have hstmt (st : Stmt) : st.isWritten = (st.isWritten && true) := (Bool.and_true _).symm
  rw [program.isSurface_eq, funext hexpr, funext hstmt, Stmt.everyIn_and, Bool.and_eq_true] at h
  exact h.2

/-- The functions are those of the environment. -/
theorem Program.contains_functionNames_toFlow (h : program.toFlow environment s = .ok (flow, s'))
    (name : Name) : flow.functionNames.contains name = environment.functions.contains name := by
  obtain ⟨functions, s₁, entry, -, -, rfl⟩ := Program.toFlow_eq_ok h
  rw [Std.ExtTreeSet.contains_ofList, Std.ExtTreeMap.contains_keys]

/-- The first block of every function has the label of its start. -/
theorem Program.startLabel_mem_toFlow (h : program.toFlow environment s = .ok (flow, s')) :
    ∀ function ∈ flow.functions, function.name.startLabel ∈ function.labels := by
  have hstart {name : Name} {parameters : List Name} {body : List Stmt} {s s' : NameSupply}
      {function : Flow.Function}
      (h : Flow.functionOf environment name parameters body s = .ok (function, s')) :
      function.name.startLabel ∈ function.labels := by
    obtain ⟨start, blocks, -, rfl⟩ := Flow.functionOf_eq_ok h
    exact List.mem_cons_self
  exact Program.forall_mem_toFlow (fun _ _ _ _ _ => hstart) (fun _ _ _ => hstart) h

/-- All instructions of a finished program are linked. -/
theorem Program.Stages.isLinked {config : Config} {types : TypeEnvironment} {selected : X86.Program}
    {allocated : List X86.Function} (hconfig : config.validate = .ok ())
    (hsurface : program.isSurface = true) (htypes : program.typeCheck = .ok types)
    (h : program.Stages config environment selected allocated) :
    ∀ function ∈ ((X86.Program.patch ⟨allocated⟩).enclose config).functions,
      ∀ instruction ∈ function.instructions,
        instruction.isLinked (program.functions.map Function.name)
          (function.blocks.map X86.Block.label) = true := by
  obtain ⟨flat, s₁, environment₁, exposed, s₂, flow, s₃, hflat, hexposed, hchecks₂, hflow, hclosed,
    hfrom⟩ := h.exists_flow
  have hwithin := Program.isWithin_toFlow (Program.within_exposeAllocation ⟨rfl, rfl⟩
    (Program.within_flatten (Program.within_of_isSurface hsurface) hflat) hexposed) hflow
  have hentries : ∀ name, flow.functionNames.contains name = true →
      name ∈ program.functions.map Function.name := by
    intro name hname
    rw [Program.contains_functionNames_toFlow hflow, hchecks₂.contains_functions] at hname
    exact (h.mem_functions htypes hchecks₂ name).mp (List.contains_iff_mem.mp hname)
  rw [X86.Program.enclose, X86.Program.patch, List.map_map]
  refine List.forall_mem_map.mpr fun function hfunction => ?_
  obtain ⟨source, hsource, hsourceOf⟩ := exists_of_forall₂ hfrom hfunction
  change ∀ instruction ∈ ((function.expand Instruction.patch).enclose config).instructions,
    instruction.isLinked _ (((function.expand Instruction.patch).enclose config).blocks.map _) = _
  rw [hsourceOf.finishedLabels_eq hconfig]
  exact hsourceOf.isLinked hconfig (hclosed source hsource)
    (Program.startLabel_mem_toFlow hflow source hsource) (hwithin source hsource) hentries

end TupleLang
