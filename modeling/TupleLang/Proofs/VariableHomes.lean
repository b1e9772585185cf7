import TupleLang.Homes
import TupleLang.Proofs.InterferenceGraphs
import TupleLang.Proofs.LiveSets
import TupleLang.Proofs.SelectedCode

/-!
# Homes for all variables

Whenever the live sets of a function can be computed, the allocation is made from all its
instructions, so that every variable they mention has a home (`X86.Function.exists_allocate`).  In a
closed function they can be computed (`X86.Function.IsClosed.exists_liveness`).
-/

namespace TupleLang

open X86 (Instruction)

/-! ## Live sets of closed functions -/

namespace Liveness

variable (config : Config) {function : X86.Function} {work : List (X86.Block × Nat)} {label : Name}

/-- The labels of all blocks are numbered. -/
theorem contains_foldl_insert {numbers : Std.ExtTreeMap Name Nat}
    (h : label ∈ numbers ∨ label ∈ work.map (·.1.label)) :
    label ∈ work.foldl (fun numbers (block, number) => numbers.insert block.label number)
      numbers := by
  induction work generalizing numbers with
  | nil => exact h.resolve_right List.not_mem_nil
  | cons entry work ih =>
    refine ih ?_
    rw [Std.ExtTreeMap.mem_insert, Std.LawfulEqCmp.compare_eq_iff_eq]
    rw [List.map_cons, List.mem_cons] at h
    obtain h | rfl | h := h
    · exact .inl (.inr h)
    · exact .inl (.inl rfl)
    · exact .inr h

/-- Every label of a block has a number. -/
theorem mem_blockNumbers (h : label ∈ function.blocks.map X86.Block.label) :
    label ∈ blockNumbers function := by
  refine contains_foldl_insert (.inr ?_)
  rw [← List.zipIdx_map_fst 0 function.blocks, List.map_map] at h
  exact h

/-- Something is known about the labels of the blocks and about the conclusion. -/
theorem exists_atLabel
    (h : label = function.name.conclusionLabel ∨ label ∈ function.blocks.map X86.Block.label)
    (table : Array BlockLiveness) :
    ∃ live, atLabel function (blockNumbers function) table label = .ok live := by
  rw [atLabel]
  split
  · exact ⟨∅, rfl⟩
  · next hconclusion =>
    have hmem := mem_blockNumbers (h.resolve_left hconclusion)
    rw [Std.ExtTreeMap.mem_iff_isSome_getElem?, Option.isSome_iff_exists] at hmem
    obtain ⟨number, hnumber⟩ := hmem
    rw [hnumber]
    exact ⟨_, rfl⟩

/-- Instructions whose jumps are known have live sets. -/
theorem exists_ofBlock {known : Name → Prop} {live : Name → Except CompileError LiveSet}
    (hlive : ∀ label, known label → ∃ set, live label = .ok set) {code : List Instruction}
    (h : Selection.JumpsTo known code) : ∃ sets, ofBlock config live code = .ok sets := by
  induction code with
  | nil => exact ⟨{}, rfl⟩
  | cons instruction code ih =>
    obtain ⟨hjumps, hcode⟩ := List.forall_mem_cons.mp h
    obtain ⟨next, hnext⟩ := ih hcode
    have hafter : ∃ set, after live instruction next.liveBefore = .ok set := by
      cases instruction with
      | jump label => exact hlive label (hjumps label List.mem_cons_self)
      | jumpIf condition label =>
        obtain ⟨set, hset⟩ := hlive label (hjumps label List.mem_cons_self)
        refine ⟨next.liveBefore ∪ set, ?_⟩
        rw [after, hset]
        rfl
      | _ => exact ⟨_, rfl⟩
    obtain ⟨set, hset⟩ := hafter
    exact ⟨_, ofBlock_cons_eq_ok.mpr ⟨next, set, hnext, hset, rfl⟩⟩

/-- Rounds succeed. -/
theorem exists_foldlM_update (h : function.IsClosed)
    (hwork : ∀ entry ∈ work, entry.1 ∈ function.blocks) (table : Array BlockLiveness) :
    ∃ table', work.foldlM (update config function (blockNumbers function)) table = .ok table' := by
  induction work generalizing table with
  | nil => exact ⟨table, rfl⟩
  | cons entry work ih =>
    obtain ⟨hblock, hwork⟩ := List.forall_mem_cons.mp hwork
    obtain ⟨sets, hsets⟩ := exists_ofBlock config
      (fun label hlabel => exists_atLabel hlabel table) (h entry.1 hblock)
    obtain ⟨table', htable'⟩ := ih hwork (table.setIfInBounds entry.2 sets)
    refine ⟨table', ?_⟩
    rw [List.foldlM_cons, Except.bind_eq_ok]
    exact ⟨_, Except.bind_eq_ok.mpr ⟨sets, hsets, rfl⟩, htable'⟩

/-- The search for a fixed point succeeds. -/
theorem exists_solve (h : function.IsClosed) (limit rounds : Nat) (table : Array BlockLiveness) :
    ∃ liveness, solve config function limit rounds table = .ok liveness := by
  induction limit generalizing table rounds with
  | zero => exact ⟨_, rfl⟩
  | succ limit ih =>
    obtain ⟨next, hnext⟩ := exists_foldlM_update config h
      (fun entry hentry => List.fst_mem_of_mem_zipIdx (List.mem_reverse.mp hentry)) table
    rw [solve, round, hnext]
    change ∃ liveness, (if isStable table next then _ else _) = _
    split
    · exact ⟨_, rfl⟩
    · exact ih (rounds + 1) next

end Liveness

/-- Closed functions have live sets. -/
theorem X86.Function.IsClosed.exists_liveness {function : X86.Function} (h : function.IsClosed)
    (config : Config) : ∃ liveness, function.liveness config = .ok liveness :=
  Liveness.exists_solve config h _ 0 _

/-! ## Homes -/

namespace Allocation

variable {config : Config} {name : Name} {graph : InterferenceGraph}

/-- A home more. -/
theorem mem_homes_addHome (roots : Std.ExtTreeSet Name) (allocation : Allocation)
    (entry : Name × Nat) :
    name ∈ (allocation.addHome config roots entry).homes ↔
      entry.1 = name ∨ name ∈ allocation.homes := by
  have hinsert (home : X86.Operand) :
      name ∈ allocation.homes.insert entry.1 home ↔ entry.1 = name ∨ name ∈ allocation.homes := by
    rw [Std.ExtTreeMap.mem_insert, Std.LawfulEqCmp.compare_eq_iff_eq]
  rw [addHome]
  split
  · exact hinsert _
  · dsimp only
    split
    · exact hinsert _
    · exact hinsert _

/-- Several homes more. -/
theorem mem_homes_foldl_addHome {roots : Std.ExtTreeSet Name} {entries : List (Name × Nat)}
    {allocation : Allocation} :
    name ∈ (entries.foldl (addHome config roots) allocation).homes ↔
      name ∈ allocation.homes ∨ name ∈ entries.map Prod.fst := by
  induction entries generalizing allocation with
  | nil => exact ⟨.inl, (Or.resolve_right · List.not_mem_nil)⟩
  | cons entry entries ih =>
    rw [List.foldl_cons, ih, mem_homes_addHome, List.map_cons, List.mem_cons]
    grind

/-- The variables of a graph have one color each. -/
theorem mem_coloredVariables (hwf : graph.WellFormed) {colors : Table Nat} {color : Nat} :
    (name, color) ∈ coloredVariables graph colors ↔
      ∃ node, graph.find? (.var name) = some node ∧ colors.getD node 0 = color := by
  rw [coloredVariables, List.mem_filterMap]
  constructor
  · rintro ⟨⟨node, location⟩, hmem, heq⟩
    cases location with
    | register register => cases heq
    | var name' =>
      cases heq
      exact ⟨node, (hwf.nodes _ _).mpr (Table.mem_numbered.mp hmem), rfl⟩
  · rintro ⟨node, hnode, rfl⟩
    exact ⟨(node, .var name), Table.mem_numbered.mpr ((hwf.nodes _ _).mp hnode), rfl⟩

/-- The variables of the graph, and no others, get homes. -/
theorem mem_homes_ofGraph (hwf : graph.WellFormed) :
    name ∈ (ofGraph config graph).homes ↔ graph.Has (.var name) := by
  rw [ofGraph, ofColoring, mem_homes_foldl_addHome, List.mem_map]
  constructor
  · rintro (hempty | ⟨⟨name, color⟩, hentry, rfl⟩)
    · exact absurd hempty Std.ExtTreeMap.not_mem_empty
    · obtain ⟨node, hnode, -⟩ := (mem_coloredVariables hwf).mp hentry
      exact ⟨node, hnode⟩
  · rintro ⟨node, hnode⟩
    exact .inr ⟨_, (mem_coloredVariables hwf).mpr ⟨node, hnode, rfl⟩, rfl⟩

end Allocation

namespace X86.Function

variable {config : Config} {function : X86.Function} {liveness : Liveness}

/-- What is live somewhere is an allocatable register or a variable of the function. -/
theorem mem_locations_of_mem_rows (h : function.liveness config = .ok liveness)
    {row : Instruction × LiveSet} (hrow : row ∈ liveness.rows function) {location : Location}
    (hlocation : location ∈ row.2) :
    location ∈ InterferenceGraph.locations config function.instructions := by
  obtain ⟨instruction, hinstruction, hread⟩ := reads_of_mem_rows h hrow hlocation
  exact InterferenceGraph.mem_locations_of_mem_reads hinstruction hread

/-- The graph of a function has exactly the locations that its instructions may mention. -/
theorem has_interference (h : function.liveness config = .ok liveness) {location : Location} :
    (function.interference config liveness).Has location ↔
      location ∈ InterferenceGraph.locations config function.instructions := by
  have hinstructions : ((liveness.rows function).map fun row => (row.1, row.2.toList)).map
      Prod.fst = function.instructions := by
    rw [List.map_map]
    exact map_fst_rows h
  rw [← hinstructions]
  refine InterferenceGraph.has_ofRows fun row hrow location hlocation => ?_
  obtain ⟨row', hrow', rfl⟩ := List.mem_map.mp hrow
  rw [hinstructions]
  exact mem_locations_of_mem_rows h hrow' (Std.ExtTreeSet.mem_toList.mp hlocation)

/-- The interference graph is well formed. -/
theorem wellFormed_interference (config : Config) (function : X86.Function)
    (liveness : Liveness) : (function.interference config liveness).WellFormed :=
  InterferenceGraph.wellFormed_ofRows ..

/-- The code of an expanded function. -/
theorem instructions_expand (function : X86.Function) (f : Instruction → List Instruction) :
    (function.expand f).instructions = function.instructions.flatMap f := by
  rw [instructions, instructions, expand, List.flatMap_map, List.flatMap_assoc]

/-- The homes of the variables of a function with the given live sets. -/
def allocation (config : Config) (function : X86.Function) (liveness : Liveness) : Allocation :=
  .ofGraph config (function.interference config liveness)

/-- A function all of whose variables have homes gets them. -/
theorem allocate_eq_ok {allocation : Allocation}
    (h : ∀ instruction ∈ function.instructions, ∀ name, .var name ∈ instruction.operands →
      name ∈ allocation.homes) :
    function.allocate allocation =
      .ok { function.expand (fun instruction => [instruction.mapOperands allocation.place]) with
        frame := allocation.frame } := by
  have hhomeless : function.instructions.flatMap allocation.homeless = [] := by
    refine List.flatMap_eq_nil_iff.mpr fun instruction hinstruction =>
      List.filterMap_eq_nil_iff.mpr fun operand hoperand => ?_
    cases operand with
    | var name => exact if_pos (h instruction hinstruction name hoperand)
    | _ => rfl
  rw [X86.Function.allocate, hhomeless]
  rfl

/-- Every variable that a function mentions has a home. -/
theorem mem_homes_interference (h : function.liveness config = .ok liveness)
    {instruction : Instruction} (hinstruction : instruction ∈ function.instructions) {name : Name}
    (hname : .var name ∈ instruction.operands) :
    name ∈ (function.allocation config liveness).homes := by
  rw [allocation, Allocation.mem_homes_ofGraph (wellFormed_interference config function liveness),
    has_interference h]
  exact InterferenceGraph.mem_locations_of_ofOperand? hinstruction hname rfl

/-- All variables of a function have homes, so they can be replaced by them. -/
theorem exists_allocate (h : function.liveness config = .ok liveness) :
    ∃ allocated, function.allocate (function.allocation config liveness) = .ok allocated ∧
      allocated.instructions = function.instructions.map
        (·.mapOperands (function.allocation config liveness).place) := by
  refine ⟨_, allocate_eq_ok fun _ hinstruction _ => mem_homes_interference h hinstruction, ?_⟩
  rw [List.map_eq_flatMap, ← instructions_expand]
  rfl

end X86.Function

end TupleLang
