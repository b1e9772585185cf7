import TupleLang.Proofs.Compilation
import TupleLang.Proofs.FinishedInstructions
import TupleLang.Proofs.LivenessEquations

/-!
# Comments

Comments and the journal make no difference to the code of a program.  Whatever a configuration says
about them, a compilation ends in the same way as with neither, and its code is the same once the
comments are dropped (`Program.result_lower_quiet`).

Selection is the only stage that writes comments.  Every stage after it commutes with dropping them:
a comment reads and writes nothing, so the live sets after the other instructions, the number of
rounds and the interference graph stay as they are, and so do the homes of all variables.
-/

namespace TupleLang

open Stateful
open X86 (Instruction Operand Frame)

/-- The configuration without comments and with the shorter journal. -/
def Config.quiet (config : Config) : Config :=
  { config with comments := false, logPasses := false }

namespace X86

/-- The instructions that are no comments. -/
def uncommented (code : List Instruction) : List Instruction :=
  code.filter (!·.isComment)

/-- The block without its comments. -/
def Block.uncommented (block : Block) : Block :=
  { block with instructions := X86.uncommented block.instructions }

/-- The function without its comments. -/
def Function.uncommented (function : Function) : Function :=
  { function with blocks := function.blocks.map Block.uncommented }

/-- The program without its comments. -/
def Program.uncommented (program : Program) : Program :=
  ⟨program.functions.map Function.uncommented⟩

/-- Operations are no comments. -/
theorem Instruction.isComment_of_isOperation {instruction : Instruction}
    (h : instruction.isOperation = true) : instruction.isComment = false := by
  cases instruction with
  | comment text => cases h
  | _ => rfl

/-- Comments are dropped piece by piece. -/
theorem uncommented_append (code code' : List Instruction) :
    uncommented (code ++ code') = uncommented code ++ uncommented code' :=
  List.filter_append ..

/-- Where there are none, nothing is dropped. -/
theorem uncommented_eq_self {code : List Instruction}
    (h : ∀ instruction ∈ code, instruction.isComment = false) : uncommented code = code :=
  List.filter_eq_self.mpr fun instruction hinstruction => by
    rw [h instruction hinstruction]
    rfl

/-- Where comments count for nothing, they may be dropped. -/
theorem flatMap_uncommented {α : Type} {f : Instruction → List α}
    (h : ∀ text, f (.comment text) = []) (code : List Instruction) :
    (uncommented code).flatMap f = code.flatMap f := by
  induction code with
  | nil => rfl
  | cons instruction code ih =>
    rw [List.flatMap_cons, ← ih]
    cases instruction with
    | comment text =>
      rw [h text]
      rfl
    | _ => rfl

/-- Comments are dropped from a sequence by dropping them from what each instruction becomes. -/
theorem uncommented_flatMap {f : Instruction → List Instruction}
    (h : ∀ instruction, uncommented (f instruction) =
      if instruction.isComment then [] else f instruction) (code : List Instruction) :
    uncommented (code.flatMap f) = (uncommented code).flatMap f := by
  induction code with
  | nil => rfl
  | cons instruction code ih =>
    rw [List.flatMap_cons, uncommented_append, ih, h]
    cases hcomment : instruction.isComment with
    | true => simp [uncommented, hcomment]
    | false => simp [uncommented, hcomment]

/-- An expansion that adds no comments and keeps those there are commutes with dropping them. -/
theorem Function.uncommented_expand {f : Instruction → List Instruction}
    (h : ∀ instruction, X86.uncommented (f instruction) =
      if instruction.isComment then [] else f instruction) (function : Function) :
    (function.expand f).uncommented = function.uncommented.expand f := by
  simp only [expand, uncommented, List.map_map]
  congr 1
  refine List.map_congr_left fun block _ => ?_
  exact congrArg (Block.mk block.label) (uncommented_flatMap h block.instructions)

end X86

/-! ## Selection -/

namespace Selection

/-- The context without comments. -/
def Context.quiet (context : Context) : Context :=
  { context with config := context.config.quiet }

variable {context : Context} {s s' : NameSupply}

/-- Operands do not depend on comments. -/
theorem atom_quiet (a : Flow.Atom) : atom context.quiet a = atom context a := by
  cases a with
  | const value => cases value <;> rfl
  | var name => rfl

/-- Nor do lists of operands. -/
theorem atoms_quiet (arguments : List Flow.Atom) :
    atoms context.quiet arguments = atoms context arguments := by
  induction arguments with
  | nil => rfl
  | cons first rest ih => rw [atoms, atoms, atom_quiet, ih]

/-- Nor does the code of a call. -/
theorem call_quiet (target : Flow.Atom) (arguments : List Flow.Atom) :
    call context.quiet target arguments = call context target arguments := by
  rw [call, call, atoms_quiet]
  rfl

/-- The code of a statement does not depend on whether there are comments. -/
theorem statement_quiet (st : Flow.Stmt) : statement context.quiet st = statement context st := by
  cases st with
  | assign target value =>
    cases value with
    | atom a => cases a <;> rfl
    | primitive operation operands =>
      rw [statement, statement, assignment, assignment]
      unfold operator
      simp only [atom_quiet, atoms_quiet]
    | call function arguments =>
      rw [statement, statement, assignment, assignment, call_quiet]
    | allocate bytes ty => rfl
    | global name => rfl
  | tailCall target arguments =>
    rw [statement, statement, tailCall, tailCall, call_quiet, atoms_quiet]
    rfl
  | _ => simp only [statement, atom_quiet] <;> rfl

/-- The code of a statement has no comments. -/
theorem isComment_statement {st : Flow.Stmt} {code : List Instruction}
    (h : statement context st s = .ok (code, s')) :
    ∀ instruction ∈ code, instruction.isComment = false := by
  intro instruction hinstruction
  cases (statement_shape h).emits instruction hinstruction with
  | operation hoperation => exact X86.Instruction.isComment_of_isOperation hoperation
  | _ => rfl

/-- Without comments, the code of statements is the same without its comments. -/
theorem statements_quiet {sts : List Flow.Stmt} {code : List Instruction}
    (h : statements context sts s = .ok (code, s')) :
    statements context.quiet sts s = .ok (X86.uncommented code, s') := by
  induction sts generalizing s code with
  | nil =>
    cases h
    rfl
  | cons st sts ih =>
    rw [statements, bind₂_eq_ok] at h
    obtain ⟨first, s₁, rest, hfirst, hrest, rfl⟩ := h
    have hremark : X86.uncommented (remark context st) = [] := by
      unfold remark
      split <;> rfl
    rw [X86.uncommented_append, X86.uncommented_append, hremark,
      X86.uncommented_eq_self (isComment_statement hfirst), statements, statement_quiet,
      bind_of_ok hfirst, bind_of_ok (ih hrest)]
    rfl

/-- Without comments, blocks have the same code without them. -/
theorem blocks_quiet {opening : List Instruction}
    (hopening : ∀ instruction ∈ opening, instruction.isComment = false)
    {blocks : List Flow.Block} {blocks' : List X86.Block}
    (h : Selection.blocks context opening blocks s = .ok (blocks', s')) :
    Selection.blocks context.quiet opening blocks s =
      .ok (blocks'.map X86.Block.uncommented, s') := by
  induction blocks generalizing opening s blocks' with
  | nil =>
    cases h
    rfl
  | cons block blocks ih =>
    rw [Selection.blocks, bind₂_eq_ok] at h
    obtain ⟨code, s₁, rest, hcode, hrest, rfl⟩ := h
    rw [Selection.blocks, bind_of_ok (statements_quiet hcode),
      bind_of_ok (ih (List.forall_mem_nil _) hrest), List.map_cons, X86.Block.uncommented,
      X86.uncommented_append, X86.uncommented_eq_self hopening]
    rfl

end Selection

variable {config : Config} {s s' : NameSupply} {selected : X86.Program}

/-- So do functions. -/
theorem Flow.Function.select_quiet {functionNames : Std.ExtTreeSet Name} {function : Flow.Function}
    {selected : X86.Function} (h : function.select config functionNames s = .ok (selected, s')) :
    function.select config.quiet functionNames s = .ok (selected.uncommented, s') := by
  rw [Flow.Function.select, Stateful.bind_pure_eq_ok] at h
  obtain ⟨blocks, hblocks, rfl⟩ := h
  have hopening : ∀ instruction ∈
      Selection.copyParameters config.parameters function.parameters,
      instruction.isComment = false := by
    rw [Selection.copyParameters, List.mapIdx_eq_zipIdx_map]
    exact List.forall_mem_map.mpr fun _ _ => rfl
  have hquiet : Selection.blocks ⟨config.quiet, functionNames, function.name.conclusionLabel⟩
      (Selection.copyParameters config.quiet.parameters function.parameters) function.blocks s =
        .ok (blocks.map X86.Block.uncommented, s') :=
    Selection.blocks_quiet hopening hblocks
  rw [Flow.Function.select, Stateful.bind_of_ok hquiet]
  rfl

/-- So do programs. -/
theorem Flow.Program.select_quiet {program : Flow.Program}
    (h : program.select config s = .ok (selected, s')) :
    program.select config.quiet s = .ok (selected.uncommented, s') := by
  rw [Flow.Program.select, Stateful.bind_pure_eq_ok] at h
  obtain ⟨functions, hfunctions, rfl⟩ := h
  have hquiet := mapM_map (r := X86.Function.uncommented)
    (fun function _ _ _ _ => Flow.Function.select_quiet) hfunctions
  rw [Flow.Program.select, Stateful.bind_of_ok hquiet]
  rfl

/-! ## Live sets -/

/-- The live sets of a block with the given code, without those after comments. -/
def BlockLiveness.uncommented (code : List Instruction) (sets : BlockLiveness) : BlockLiveness :=
  { sets with
    liveAfter := ((code.zip sets.liveAfter).filter fun row => !row.1.isComment).map Prod.snd }

/-- The code of the block with the given number. -/
def X86.Function.codeAt (function : X86.Function) (number : Nat) : List Instruction :=
  (function.blocks[number]?.map X86.Block.instructions).getD []

/-- The live sets of a function without those after comments. -/
def Liveness.uncommented (function : X86.Function) (liveness : Liveness) : Liveness :=
  { liveness with
    blocks := liveness.blocks.mapIdx fun number sets => sets.uncommented (function.codeAt number) }

namespace Liveness

variable {config : Config} {function : X86.Function}

/-- Comments in the output do not matter to liveness. -/
theorem before_quiet (instruction : Instruction) (live : LiveSet) :
    before config.quiet instruction live = before config instruction live :=
  rfl

/-- What is live after a comment is live before it. -/
theorem before_comment (text : String) (live : LiveSet) :
    before config (.comment text) live = live := by
  refine Std.ExtTreeSet.ext_mem fun location => ?_
  rw [mem_before_iff]
  simp [X86.Instruction.reads, X86.Instruction.writes]

/-- Nothing changes around comments. -/
theorem ofBlock_uncommented (live : Name → Except CompileError LiveSet) (code : List Instruction) :
    ofBlock config.quiet live (X86.uncommented code) =
      (ofBlock config live code).map (BlockLiveness.uncommented code) := by
  induction code with
  | nil => rfl
  | cons instruction code ih =>
    cases hcomment : instruction.isComment with
    | true =>
      cases instruction with
      | comment text =>
        change ofBlock config.quiet live (X86.uncommented code) = _
        rw [ih, ofBlock]
        cases ofBlock config live code with
        | error error => rfl
        | ok next =>
          refine congrArg Except.ok ?_
          simp [BlockLiveness.uncommented, before_comment, X86.Instruction.isComment]
      | _ => cases hcomment
    | false =>
      have hkept : X86.uncommented (instruction :: code) =
          instruction :: X86.uncommented code := by
        simp [X86.uncommented, hcomment]
      rw [hkept, ofBlock, ofBlock, ih]
      cases ofBlock config live code with
      | error error => rfl
      | ok next =>
        change (after live instruction next.liveBefore >>= fun _ => _) = _
        change _ = Except.map _ (after live instruction next.liveBefore >>= fun _ => _)
        cases after live instruction next.liveBefore with
        | error error => rfl
        | ok set =>
          refine congrArg Except.ok ?_
          simp [BlockLiveness.uncommented, hcomment, before_quiet]

/-- A table without the live sets after comments. -/
def uncommentedTable (function : X86.Function) (table : Array BlockLiveness) :
    Array BlockLiveness :=
  table.mapIdx fun number sets => sets.uncommented (function.codeAt number)

/-- Without comments, the entries of a table. -/
theorem getD_uncommentedTable (table : Array BlockLiveness) (number : Nat) :
    (uncommentedTable function table).getD number {} =
      (table.getD number {}).uncommented (function.codeAt number) := by
  rw [Array.getD_eq_getD_getElem?, Array.getD_eq_getD_getElem?, uncommentedTable,
    Array.getElem?_mapIdx]
  cases table[number]? with
  | some sets => rfl
  | none => simp [BlockLiveness.uncommented]

/-- Blocks keep their numbers. -/
theorem blockNumbers_uncommented : blockNumbers function.uncommented = blockNumbers function := by
  rw [blockNumbers, blockNumbers, X86.Function.uncommented, List.zipIdx_map, List.foldl_map]
  rfl

/-- What is live at a label does not depend on comments. -/
theorem atLabel_uncommented (numbers : Std.ExtTreeMap Name Nat) (table : Array BlockLiveness) :
    atLabel function.uncommented numbers (uncommentedTable function table) =
      atLabel function numbers table := by
  funext label
  unfold atLabel
  simp only [getD_uncommentedTable]
  rfl

/-- Bringing one block up to date. -/
theorem update_uncommented (numbers : Std.ExtTreeMap Name Nat) (table : Array BlockLiveness)
    {block : X86.Block} {number : Nat} (hblock : function.blocks[number]? = some block) :
    update config.quiet function.uncommented numbers (uncommentedTable function table)
        (block.uncommented, number) =
      (update config function numbers table (block, number)).map (uncommentedTable function) := by
  rw [update, update, atLabel_uncommented, X86.Block.uncommented, ofBlock_uncommented]
  cases ofBlock config (atLabel function numbers table) block.instructions with
  | error error => rfl
  | ok sets =>
    refine congrArg Except.ok ?_
    have hcode : function.codeAt number = block.instructions := by
      rw [X86.Function.codeAt, hblock]
      rfl
    rw [← hcode]
    simp [uncommentedTable]

/-- Bringing all of them up to date. -/
theorem foldlM_update_uncommented (numbers : Std.ExtTreeMap Name Nat)
    {work : List (X86.Block × Nat)}
    (hwork : ∀ entry ∈ work, function.blocks[entry.2]? = some entry.1)
    (table : Array BlockLiveness) :
    (work.map fun entry => (entry.1.uncommented, entry.2)).foldlM
        (update config.quiet function.uncommented numbers) (uncommentedTable function table) =
      (work.foldlM (update config function numbers) table).map (uncommentedTable function) := by
  induction work generalizing table with
  | nil => rfl
  | cons entry work ih =>
    obtain ⟨hentry, hwork⟩ := List.forall_mem_cons.mp hwork
    rw [List.map_cons, List.foldlM_cons, List.foldlM_cons, update_uncommented numbers table hentry]
    cases update config function numbers table entry with
    | error error => rfl
    | ok table' => exact ih hwork table'

/-- Rounds commute with dropping comments. -/
theorem round_uncommented (table : Array BlockLiveness) :
    Liveness.round config.quiet function.uncommented (uncommentedTable function table) =
      (Liveness.round config function table).map (uncommentedTable function) := by
  rw [Liveness.round, Liveness.round, blockNumbers_uncommented, ← foldlM_update_uncommented]
  · rw [X86.Function.uncommented, List.zipIdx_map, ← List.map_reverse]
    rfl
  · exact fun entry hentry => List.mem_zipIdx_iff_getElem?.mp (List.mem_reverse.mp hentry)

/-- Comments do not delay a fixed point. -/
theorem isStable_uncommented (table next : Array BlockLiveness) :
    isStable (uncommentedTable function table) (uncommentedTable function next) =
      isStable table next := by
  have hstarts (table : Array BlockLiveness) :
      (uncommentedTable function table).toList.map (·.liveBefore.toList) =
        table.toList.map (·.liveBefore.toList) := by
    refine List.ext_getElem (by simp [uncommentedTable]) fun number _ _ => ?_
    simp [uncommentedTable, BlockLiveness.uncommented]
  rw [isStable, isStable, hstarts, hstarts]

/-- Without comments, the same fixed point is found. -/
theorem solve_uncommented (limit rounds : Nat) (table : Array BlockLiveness) :
    solve config.quiet function.uncommented limit rounds (uncommentedTable function table) =
      (solve config function limit rounds table).map (Liveness.uncommented function) := by
  have hfound (table : Array BlockLiveness) (rounds : Nat) :
      (⟨(uncommentedTable function table).toList, rounds⟩ : Liveness) =
        (⟨table.toList, rounds⟩ : Liveness).uncommented function := by
    rw [uncommentedTable, Array.toList_mapIdx]
    rfl
  induction limit generalizing rounds table with
  | zero => exact congrArg Except.ok (hfound table rounds)
  | succ limit ih =>
    rw [solve, solve, round_uncommented]
    cases Liveness.round config function table with
    | error error => rfl
    | ok next =>
      change (if isStable (uncommentedTable function table) (uncommentedTable function next) = true
        then _ else _) = Except.map _ (if isStable table next = true then _ else _)
      rw [isStable_uncommented]
      split
      · exact congrArg Except.ok (hfound next (rounds + 1))
      · exact ih (rounds + 1) next

end Liveness

namespace X86.Function

variable {config : Config} (function : X86.Function)

/-- Dropping comments in blocks drops them in the whole code. -/
theorem instructions_uncommented :
    function.uncommented.instructions = X86.uncommented function.instructions := by
  rw [instructions, instructions, X86.uncommented, List.filter_flatMap, uncommented,
    List.flatMap_map]
  rfl

/-- The live sets of a function without comments. -/
theorem liveness_uncommented :
    function.uncommented.liveness config.quiet =
      (function.liveness config).map (Liveness.uncommented function) := by
  have hlimit : Liveness.roundLimit config.quiet function.uncommented =
      Liveness.roundLimit config function := by
    rw [Liveness.roundLimit, Liveness.roundLimit, instructions_uncommented,
      flatMap_uncommented fun _ => rfl, uncommented, List.length_map]
    rfl
  have hempty : Liveness.uncommentedTable function (.replicate function.blocks.length {}) =
      .replicate function.uncommented.blocks.length {} := by
    refine Array.ext (by simp [Liveness.uncommentedTable, uncommented]) fun number _ _ => ?_
    simp [Liveness.uncommentedTable, BlockLiveness.uncommented]
  rw [liveness, liveness, hlimit, ← hempty]
  exact Liveness.solve_uncommented _ 0 _

end X86.Function

/-! ## Homes -/

/-- The instructions that stay keep the live sets after them. -/
theorem Liveness.zip_uncommented (code : List Instruction) (sets : BlockLiveness) :
    (X86.uncommented code).zip (sets.uncommented code).liveAfter =
      (code.zip sets.liveAfter).filter fun row => !row.1.isComment := by
  rw [BlockLiveness.uncommented]
  generalize sets.liveAfter = live
  induction code generalizing live with
  | nil => rfl
  | cons instruction code ih =>
    cases live with
    | nil => simp
    | cons set live =>
      have hrest := ih live
      cases hcomment : instruction.isComment with
      | true => simpa [X86.uncommented, hcomment] using hrest
      | false => simpa [X86.uncommented, hcomment] using hrest

/-- The rows of a function without comments. -/
theorem Liveness.rows_uncommented (function : X86.Function) (liveness : Liveness) :
    (liveness.uncommented function).rows function.uncommented =
      (liveness.rows function).filter fun row => !row.1.isComment := by
  have hblocks : function.uncommented.blocks.zip (liveness.uncommented function).blocks =
      (function.blocks.zip liveness.blocks).map fun entry =>
        (entry.1.uncommented, entry.2.uncommented entry.1.instructions) := by
    refine List.ext_getElem (by simp [uncommented, X86.Function.uncommented])
      fun number _ hlt => ?_
    have hnumber : number < function.blocks.length := by
      rw [List.length_map, List.length_zip] at hlt
      omega
    simp [uncommented, X86.Function.uncommented, X86.Function.codeAt, hnumber]
  rw [rows, rows, hblocks, List.flatMap_map, List.filter_flatMap]
  refine List.flatMap_congr fun entry _ => ?_
  exact zip_uncommented entry.1.instructions entry.2

namespace InterferenceGraph

variable {config : Config} {types : Std.ExtTreeMap Name Ty}

/-- Comments contribute nothing to the graph. -/
theorem ofRows_filter (rows : List (Instruction × List Location)) :
    ofRows config types (rows.filter fun row => !row.1.isComment) = ofRows config types rows := by
  have hinstructions : (rows.filter fun row => !row.1.isComment).map Prod.fst =
      X86.uncommented (rows.map Prod.fst) := by
    rw [X86.uncommented, List.filter_map]
    rfl
  have hnumbered : numbered config (X86.uncommented (rows.map Prod.fst)) =
      numbered config (rows.map Prod.fst) := by
    rw [numbered, numbered, X86.flatMap_uncommented fun _ => rfl]
  have hrows (graph : InterferenceGraph) :
      (rows.filter fun row => !row.1.isComment).foldl (addRow config types) graph =
        rows.foldl (addRow config types) graph := by
    clear hinstructions hnumbered
    induction rows generalizing graph with
    | nil => rfl
    | cons row rows ih =>
      obtain ⟨instruction, live⟩ := row
      cases instruction with
      | comment text => exact ih graph
      | _ => exact ih _
  rw [ofRows, ofRows, hinstructions, hnumbered, hrows]

end InterferenceGraph

namespace X86.Function

variable {config : Config} {function allocated : X86.Function}

/-- Comments do not interfere with anything. -/
theorem interference_uncommented (liveness : Liveness) :
    function.uncommented.interference config.quiet (liveness.uncommented function) =
      function.interference config liveness := by
  rw [interference, interference, Liveness.rows_uncommented,
    ← InterferenceGraph.ofRows_filter ((liveness.rows function).map _), List.filter_map]
  rfl

/-- Variables have the same homes without comments. -/
theorem allocate_uncommented {allocation : Allocation}
    (h : function.allocate allocation = .ok allocated) :
    function.uncommented.allocate allocation = .ok allocated.uncommented := by
  rw [allocate] at h ⊢
  rw [instructions_uncommented, X86.flatMap_uncommented fun _ => rfl]
  split at h
  · cases h
  · cases h
    have hexpand := uncommented_expand (f := fun i => [i.mapOperands allocation.place])
      (fun i => by cases i <;> rfl) function
    exact congrArg (fun expanded => Except.ok { expanded with frame := allocation.frame })
      hexpand.symm

/-- Without comments, variables get the same homes. -/
theorem AllocatesTo.uncommented (h : function.AllocatesTo config allocated) :
    function.uncommented.AllocatesTo config.quiet allocated.uncommented := by
  obtain ⟨liveness, hliveness, hallocated⟩ := h
  refine ⟨liveness.uncommented function, ?_, ?_⟩
  · rw [liveness_uncommented, hliveness]
    rfl
  · have hsame : function.uncommented.allocation config.quiet (liveness.uncommented function) =
        function.allocation config liveness := by
      rw [allocation, allocation, interference_uncommented]
      rfl
    rw [hsame]
    exact allocate_uncommented hallocated

/-- A function has at most one version with homes. -/
theorem AllocatesTo.unique {allocated' : X86.Function} (h : function.AllocatesTo config allocated)
    (h' : function.AllocatesTo config allocated') : allocated = allocated' := by
  obtain ⟨liveness, hliveness, hallocated⟩ := h
  obtain ⟨liveness', hliveness', hallocated'⟩ := h'
  cases hliveness.symm.trans hliveness'
  exact Except.ok.inj (hallocated.symm.trans hallocated')

end X86.Function

/-! ## Frames -/

namespace X86

/-- Patching keeps comments and adds none. -/
theorem uncommented_patch (instruction : Instruction) :
    uncommented instruction.patch = if instruction.isComment then [] else instruction.patch := by
  cases hcomment : instruction.isComment with
  | true =>
    cases instruction with
    | comment text => rfl
    | _ => cases hcomment
  | false =>
    refine uncommented_eq_self fun part hpart => ?_
    cases Instruction.mem_patch hpart with
    | same => exact hcomment
    | _ => rfl

/-- Leaving a frame has no comments. -/
theorem isComment_teardown (frame : Frame) :
    ∀ instruction ∈ FrameCode.teardown frame, instruction.isComment = false :=
  FrameCode.forall_mem_teardown
    (fun _ hoperation _ => Instruction.isComment_of_isOperation hoperation) (fun _ => rfl) frame

/-- The prelude has no comments. -/
theorem isComment_prelude (config : Config) (name : Name) (frame : Frame) :
    ∀ instruction ∈ FrameCode.prelude config name frame, instruction.isComment = false :=
  FrameCode.forall_mem_prelude
    (fun _ hoperation _ => Instruction.isComment_of_isOperation hoperation) rfl rfl rfl config frame

/-- So does the code that leaves a frame. -/
theorem uncommented_expandTailJump (frame : Frame) (instruction : Instruction) :
    uncommented (FrameCode.expandTailJump frame instruction) =
      if instruction.isComment then [] else FrameCode.expandTailJump frame instruction := by
  cases instruction with
  | comment text => rfl
  | tailJump target arguments =>
    refine uncommented_eq_self (List.forall_mem_append.mpr ⟨List.forall_mem_append.mpr
      ⟨List.forall_mem_singleton.mpr ?_, isComment_teardown frame⟩,
        List.forall_mem_singleton.mpr rfl⟩)
    cases target <;> rfl
  | _ => rfl

/-- Frames are put around code with or without comments. -/
theorem Function.uncommented_enclose (config : Config) (function : Function) :
    (function.enclose config).uncommented = function.uncommented.enclose config.quiet := by
  have hbody : (function.expand (FrameCode.expandTailJump function.frame)).blocks.map
      Block.uncommented =
        (function.uncommented.expand (FrameCode.expandTailJump function.frame)).blocks :=
    congrArg Function.blocks
      (function.uncommented_expand (uncommented_expandTailJump function.frame))
  have hprelude := uncommented_eq_self (isComment_prelude config function.name function.frame)
  have hconclusion : X86.uncommented (FrameCode.conclusion function.frame) =
      FrameCode.conclusion function.frame :=
    uncommented_eq_self (List.forall_mem_append.mpr
      ⟨isComment_teardown function.frame, List.forall_mem_singleton.mpr rfl⟩)
  simp only [enclose, uncommented, List.map_append, List.map_cons, List.map_nil, hbody,
    Block.uncommented, hprelude, hconclusion]
  rfl

/-- Comments can be dropped before or after the last stages. -/
theorem Program.uncommented_finish (config : Config) (program : Program) :
    (program.patch.enclose config).uncommented =
      (program.uncommented.patch).enclose config.quiet := by
  simp only [uncommented, patch, enclose, List.map_map]
  refine congrArg Program.mk (List.map_congr_left fun function _ => ?_)
  simp only [Function.comp_apply, Function.uncommented_enclose,
    Function.uncommented_expand uncommented_patch]

end X86

/-! ## Programs -/

/-- The functions of a program have the same homes without comments. -/
theorem Program.Stages.allocated_quiet {program : Program}
    {environment environment' : TypeEnvironment} {selected' : X86.Program}
    {allocated allocated' : List X86.Function}
    (h : program.Stages config environment selected allocated)
    (h' : program.Stages config.quiet environment' selected' allocated') :
    allocated' = allocated.map X86.Function.uncommented := by
  obtain ⟨flat, s₁, environment₁, exposed, s₂, flow, s₃, s₄, hflat, htypes₁, hexposed, htypes₂,
    hflow, hselected⟩ := h.select
  obtain ⟨flat', s₁', environment₁', exposed', s₂', flow', s₃', s₄', hflat', htypes₁', hexposed',
    htypes₂', hflow', hselected'⟩ := h'.select
  -- The stages before selection do not see the configuration.
  cases hflat.symm.trans hflat'
  cases htypes₁.symm.trans htypes₁'
  cases hexposed.symm.trans hexposed'
  cases htypes₂.symm.trans htypes₂'
  cases hflow.symm.trans hflow'
  cases (Flow.Program.select_quiet hselected).symm.trans hselected'
  have hquiet : List.Forall₂ (X86.Function.AllocatesTo config.quiet)
      (selected.functions.map X86.Function.uncommented)
      (allocated.map X86.Function.uncommented) :=
    List.forall₂_map_left_iff.mpr (List.forall₂_map_right_iff.mpr
      (h.allocate.imp fun _ _ => X86.Function.AllocatesTo.uncommented))
  have hunique : Relator.RightUnique (X86.Function.AllocatesTo config.quiet) :=
    fun _ _ _ h h' => h.unique h'
  exact hunique.forall₂ h'.allocate hquiet

/-- Without comments and with the shorter journal, a compilation ends in the same way. -/
theorem Program.result_lower_quiet (config : Config) (program : Program) :
    (program.lower config.quiet).result =
      (program.lower config).result.map X86.Program.uncommented := by
  have hvalidate : config.quiet.validate = config.validate := rfl
  cases hconfig : config.validate with
  | error fault =>
    rw [Program.result_lower_of_fault hconfig,
      Program.result_lower_of_fault (hvalidate.trans hconfig)]
    rfl
  | ok _ =>
    cases htypes : program.typeCheck with
    | error error =>
      rw [Program.result_lower_of_typeError hconfig htypes,
        Program.result_lower_of_typeError (hvalidate.trans hconfig) htypes]
      rfl
    | ok environment =>
      have hchecks := Typing.checkProgram_eq_ok.mp htypes
      obtain ⟨_, selected, allocated, hstages⟩ := hchecks.exists_stages hconfig
      obtain ⟨_, selected', allocated', hstages'⟩ :=
        hchecks.exists_stages (hvalidate.trans hconfig)
      rw [hstages.lower, hstages'.lower, hstages.allocated_quiet hstages']
      exact congrArg Except.ok (X86.Program.uncommented_finish config ⟨allocated⟩).symm

/-- Two configurations that differ at most in what they say about comments and about the journal
give the same code: under both a program is refused with the same error, or it is compiled under
both, and the code is the same once all comments are dropped. -/
theorem Program.code_without_comments (config : Config) (comments logPasses : Bool)
    (program : Program) :
    (program.lower { config with comments, logPasses }).result.map X86.Program.uncommented =
      (program.lower config).result.map X86.Program.uncommented := by
  rw [← Program.result_lower_quiet, ← Program.result_lower_quiet]
  rfl

end TupleLang
