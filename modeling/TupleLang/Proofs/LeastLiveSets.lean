import Mathlib.Data.Set.Basic
import TupleLang.Proofs.Images
import TupleLang.Proofs.LivenessEquations
import TupleLang.Proofs.VariableHomes

/-!
# The least live sets

The equations of liveness, stated for any sets of locations at the points of a function
(`PointSets.Solves`), have a least solution, and the analysis computes it
(`X86.Function.liveness_least`).  It does so whenever it can: a jump to a label that the function
does not have is the only way to fail.

That the computed sets solve the equations follows from the last round, which changed nothing.
That they are the least ones follows from what every round keeps: the computed sets have no more
than any given solution, neither at the starts of the blocks nor inside of them
(`Liveness.le_round`).
-/

namespace TupleLang

open X86 (Instruction)

/-- Sets of locations at the points of a function.  Blocks and the instructions of a block are
numbered in order. -/
structure PointSets where
  /-- The set at the start of a block. -/
  start : Nat → Set Location
  /-- The set after an instruction of a block. -/
  after : Nat → Nat → Set Location

namespace PointSets

/-- The second family has at least what the first one has, at every point. -/
instance : LE PointSets where
  le sets sets' := ∀ number, sets.start number ⊆ sets'.start number ∧
    ∀ index, sets.after number index ⊆ sets'.after number index

variable (config : Config) (function : X86.Function) (sets : PointSets)

/-- What is needed at a place of a block: before an instruction, what it reads, and what is needed
after it and is not written; at the end of the block nothing. -/
def before (code : List Instruction) (number index : Nat) : Set Location :=
  match code[index]? with
  | some instruction =>
    {location | location ∈ instruction.reads config} ∪
      sets.after number index \ {location | location ∈ instruction.writes config}
  | none => ∅

/-- What is needed at a label: nothing at the conclusion of the function, and otherwise what is
needed at the start of the last block with that label. -/
def atLabel (label : Name) : Set Location :=
  {location | label ≠ function.name.conclusionLabel ∧
    ∃ left block right, function.blocks = left ++ block :: right ∧ block.label = label ∧
      label ∉ right.map X86.Block.label ∧ location ∈ sets.start left.length}

/-- What is needed after an instruction, from what is needed at the next one. -/
def onward (instruction : Instruction) (next : Set Location) : Set Location :=
  match instruction with
  | .jump label => sets.atLabel function label
  | .jumpIf _ label => next ∪ sets.atLabel function label
  | .retq | .tailJump _ _ | .jumpIndirect _ => ∅
  | _ => next

/-- The sets solve the equations of liveness, for all blocks of the function at once. -/
structure Solves : Prop where
  start {number : Nat} {block : X86.Block} (hblock : function.blocks[number]? = some block) :
    sets.start number = sets.before config block.instructions number 0
  after {number : Nat} {block : X86.Block} (hblock : function.blocks[number]? = some block)
    {index : Nat} {instruction : Instruction}
    (hinstruction : block.instructions[index]? = some instruction) :
    sets.after number index =
      sets.onward function instruction (sets.before config block.instructions number (index + 1))

end PointSets

/-- The live sets of the blocks of a function, as sets at its points. -/
def PointSets.ofBlocks (blocks : List BlockLiveness) : PointSets where
  start number := {location | location ∈ (blocks.getD number {}).liveBefore}
  after number index := {location | location ∈ (blocks.getD number {}).liveAfter.getD index ∅}

/-- Whether control may come from the instruction to the next one. -/
def X86.Instruction.mayContinue : Instruction → Bool
  | .jump _ | .retq | .tailJump _ _ | .jumpIndirect _ => false
  | _ => true

namespace PointSets

variable {config : Config} {function : X86.Function} {sets : PointSets}

/-- What flows on from an instruction. -/
theorem mem_onward {instruction : Instruction} {next : Set Location} {location : Location} :
    location ∈ sets.onward function instruction next ↔
      (∃ label ∈ instruction.jumps, location ∈ sets.atLabel function label) ∨
        instruction.mayContinue = true ∧ location ∈ next := by
  cases instruction with
  | jump | jumpIf | retq | tailJump | jumpIndirect =>
    simp [onward, X86.Instruction.jumps, X86.Instruction.mayContinue, or_comm]
  | _ => simp [onward, X86.Instruction.jumps, X86.Instruction.mayContinue]

/-- Larger sets are larger at labels. -/
theorem atLabel_mono {sets' : PointSets} (h : sets ≤ sets') (label : Name) :
    sets.atLabel function label ⊆ sets'.atLabel function label := by
  rintro location ⟨hconclusion, left, block, right, hblocks, hlabel, hright, hmem⟩
  exact ⟨hconclusion, left, block, right, hblocks, hlabel, hright, (h left.length).1 hmem⟩

/-- The sets before an instruction of a block. -/
theorem before_append {left code : List Instruction} {instruction : Instruction} {number : Nat} :
    sets.before config (left ++ instruction :: code) number left.length =
      {location | location ∈ instruction.reads config} ∪
        sets.after number left.length \ {location | location ∈ instruction.writes config} := by
  rw [before, List.getElem?_append_right (Nat.le_refl _), Nat.sub_self]
  rfl

end PointSets

namespace Liveness

variable {config : Config} {function : X86.Function}

/-! ## One block -/

variable {live : Name → Except CompileError LiveSet} {code : List Instruction}
  {result : BlockLiveness} {table table' : Array BlockLiveness} {sets : PointSets}

/-- What is live after an instruction. -/
theorem mem_after_iff {instruction : Instruction} {next set : LiveSet}
    (h : after live instruction next = .ok set) {location : Location} :
    location ∈ set ↔
      (∃ label ∈ instruction.jumps, ∃ target, live label = .ok target ∧ location ∈ target) ∨
        instruction.mayContinue = true ∧ location ∈ next := by
  cases instruction with
  | jump label =>
    have hlive : live label = .ok set := h
    simp [X86.Instruction.jumps, X86.Instruction.mayContinue, hlive]
  | jumpIf condition label =>
    obtain ⟨target, htarget, hset⟩ := Except.bind_eq_ok.mp h
    cases hset
    simp [X86.Instruction.jumps, X86.Instruction.mayContinue, htarget,
      Std.ExtTreeSet.mem_union_iff, or_comm]
  | _ =>
    cases h
    simp [X86.Instruction.jumps, X86.Instruction.mayContinue]

/-- Code of which all jumps go to labels with live sets. -/
theorem exists_of_mem_jumps (h : ofBlock config live code = .ok result) :
    Selection.JumpsTo (fun label => ∃ set, live label = .ok set) code := by
  induction code generalizing result with
  | nil => exact List.forall_mem_nil _
  | cons instruction code ih =>
    obtain ⟨next, set, hnext, hset, -⟩ := ofBlock_cons_eq_ok.mp h
    refine List.forall_mem_cons.mpr ⟨fun label hlabel => ?_, ih hnext⟩
    cases instruction with
    | jump target =>
      cases List.mem_singleton.mp hlabel
      exact ⟨set, hset⟩
    | jumpIf condition target =>
      cases List.mem_singleton.mp hlabel
      obtain ⟨atTarget, htarget, -⟩ := Except.bind_eq_ok.mp hset
      exact ⟨atTarget, htarget⟩
    | _ => cases hlabel

/-- The live sets of the rest of a block are what the equations say, if those at the labels are. -/
theorem solves_of_ofBlock (sets : PointSets)
    (hlive : ∀ label set, live label = .ok set →
      ∀ location, location ∈ set ↔ location ∈ sets.atLabel function label) (number : Nat)
    (left : List Instruction)
    (hafter : ∀ (index : Nat) (location : Location),
      location ∈ result.liveAfter.getD index ∅ ↔ location ∈ sets.after number (left.length + index))
    (h : ofBlock config live code = .ok result) :
    (∀ location, location ∈ result.liveBefore ↔
        location ∈ sets.before config (left ++ code) number left.length) ∧
      ∀ (index : Nat) (instruction : Instruction), code[index]? = some instruction →
        sets.after number (left.length + index) = sets.onward function instruction
          (sets.before config (left ++ code) number (left.length + index + 1)) := by
  induction code generalizing left result with
  | nil =>
    cases h
    simp [PointSets.before]
  | cons instruction code ih =>
    obtain ⟨next, set, hnext, hset, rfl⟩ := ofBlock_cons_eq_ok.mp h
    have hself : ∀ location, location ∈ set ↔ location ∈ sets.after number left.length :=
      hafter 0
    obtain ⟨hstart, hrest⟩ := ih (left ++ [instruction])
      (fun index location => by
        simpa [Nat.add_assoc, Nat.add_comm 1] using hafter (index + 1) location) hnext
    simp only [List.append_assoc, List.singleton_append, List.length_append, List.length_singleton]
      at hstart hrest
    refine ⟨fun location => ?_, fun index => ?_⟩
    · rw [mem_before_iff, PointSets.before_append, hself]
      rfl
    · cases index with
      | zero =>
        rintro _ ⟨⟩
        ext location
        rw [Nat.add_zero, ← hself, mem_after_iff hset, PointSets.mem_onward, hstart]
        refine or_congr_left (exists_congr fun label => and_congr_right fun hlabel => ?_)
        obtain ⟨target, htarget⟩ := exists_of_mem_jumps h _ List.mem_cons_self label hlabel
        rw [← hlive label target htarget]
        refine ⟨?_, fun hmem => ⟨target, htarget, hmem⟩⟩
        rintro ⟨set', heq, hmem⟩
        exact Except.ok.inj (heq.symm.trans htarget) ▸ hmem
      | succ index =>
        intro instruction' hinstruction'
        have heq := hrest index instruction' hinstruction'
        rwa [Nat.add_assoc left.length 1 index, Nat.add_comm 1 index] at heq

/-- The live sets of the rest of a block are no larger than those of a solution, if those at the
labels are not. -/
theorem le_of_ofBlock (sets : PointSets)
    (hlive : ∀ label set, live label = .ok set →
      ∀ location ∈ set, location ∈ sets.atLabel function label) (number : Nat)
    (left : List Instruction)
    (hsets : ∀ (index : Nat) (instruction : Instruction), code[index]? = some instruction →
      sets.after number (left.length + index) = sets.onward function instruction
        (sets.before config (left ++ code) number (left.length + index + 1)))
    (h : ofBlock config live code = .ok result) :
    (∀ location ∈ result.liveBefore,
        location ∈ sets.before config (left ++ code) number left.length) ∧
      ∀ index, ∀ location ∈ result.liveAfter.getD index ∅,
        location ∈ sets.after number (left.length + index) := by
  induction code generalizing left result with
  | nil =>
    cases h
    simp
  | cons instruction code ih =>
    obtain ⟨next, set, hnext, hset, rfl⟩ := ofBlock_cons_eq_ok.mp h
    obtain ⟨hstart, hrest⟩ := ih (left ++ [instruction])
      (fun index instruction' hinstruction' => by
        simpa [Nat.add_assoc, Nat.add_comm 1] using
          hsets (index + 1) instruction' hinstruction') hnext
    simp only [List.append_assoc, List.singleton_append, List.length_append, List.length_singleton]
      at hstart hrest
    have hself : ∀ location ∈ set, location ∈ sets.after number left.length := by
      intro location hmem
      rw [← Nat.add_zero left.length, hsets 0 instruction rfl, PointSets.mem_onward]
      refine ((mem_after_iff hset).mp hmem).imp ?_ fun hnext => ⟨hnext.1, hstart location hnext.2⟩
      rintro ⟨label, hlabel, target, htarget, hmem⟩
      exact ⟨label, hlabel, hlive label target htarget location hmem⟩
    refine ⟨fun location hmem => ?_, fun index => ?_⟩
    · rw [PointSets.before_append]
      exact (mem_before_iff.mp hmem).imp_right fun hkept => ⟨hself location hkept.1, hkept.2⟩
    · cases index with
      | zero => exact hself
      | succ index =>
        rw [Nat.add_comm index 1, ← Nat.add_assoc, Nat.add_comm 1 index]
        exact hrest index

/-! ## Labels -/

/-- There is only one last block with a label. -/
theorem length_eq_of_last {label : Name} {left left' right right' : List X86.Block}
    {block block' : X86.Block} (h : left ++ block :: right = left' ++ block' :: right')
    (hlabel : block.label = label) (hlabel' : block'.label = label)
    (hright : label ∉ right.map X86.Block.label) (hright' : label ∉ right'.map X86.Block.label) :
    left.length = left'.length := by
  induction left generalizing left' with
  | nil =>
    cases left' with
    | nil => rfl
    | cons first left' =>
      refine absurd (List.mem_map.mpr ⟨block', ?_, hlabel'⟩) hright
      rw [(List.cons.inj h).2]
      exact List.mem_append_right _ List.mem_cons_self
  | cons first left ih =>
    cases left' with
    | nil =>
      refine absurd (List.mem_map.mpr ⟨block, ?_, hlabel⟩) hright'
      rw [← (List.cons.inj h).2]
      exact List.mem_append_right _ List.mem_cons_self
    | cons first' left' => exact congrArg Nat.succ (ih (List.cons.inj h).2)

/-- A table as a list. -/
theorem getD_toList (number : Nat) : table.toList.getD number {} = table.getD number {} := by
  rw [List.getD_eq_getElem?_getD, Array.getElem?_toList, Array.getD_eq_getD_getElem?]

/-- What a table has at a label. -/
theorem mem_atLabel_iff {label : Name} {set : LiveSet}
    (h : atLabel function (blockNumbers function) table label = .ok set) {location : Location} :
    location ∈ set ↔ location ∈ (PointSets.ofBlocks table.toList).atLabel function label := by
  rw [atLabel] at h
  split at h
  · next hconclusion =>
    cases h
    exact ⟨fun hmem => absurd hmem Std.ExtTreeSet.not_mem_empty,
      fun hmem => absurd hconclusion hmem.1⟩
  · next hconclusion =>
    split at h
    · next number hnumber =>
      cases h
      obtain ⟨left, block, right, hblocks, rfl, hlabel, hright⟩ := exists_of_blockNumbers hnumber
      rw [← getD_toList]
      refine ⟨fun hmem => ⟨hconclusion, left, block, right, hblocks, hlabel, hright, hmem⟩, ?_⟩
      rintro ⟨-, left', block', right', hblocks', hlabel', hright', hmem⟩
      rw [length_eq_of_last (hblocks.symm.trans hblocks') hlabel hlabel' hright hright']
      exact hmem
    · cases h

/-! ## Rounds -/

/-- Computing a block once more leaves a table below a solution. -/
theorem le_update (hsets : sets.Solves config function) {block : X86.Block} {number : Nat}
    (hblock : function.blocks[number]? = some block) (hlt : number < table.size)
    (hle : PointSets.ofBlocks table.toList ≤ sets)
    (h : update config function (blockNumbers function) table (block, number) = .ok table') :
    PointSets.ofBlocks table'.toList ≤ sets := by
  obtain ⟨result, hresult, h⟩ := Except.bind_eq_ok.mp h
  cases h
  obtain ⟨hstart, hafter⟩ := le_of_ofBlock sets
    (fun label set hset location hmem =>
      PointSets.atLabel_mono hle label ((mem_atLabel_iff hset).mp hmem)) number []
    (fun index instruction hinstruction => by
      rw [List.length_nil, Nat.zero_add]
      exact hsets.after hblock hinstruction) hresult
  intro number'
  dsimp only [PointSets.ofBlocks]
  rw [getD_toList, getD_setIfInBounds hlt]
  split
  · next heq =>
    subst heq
    refine ⟨fun location hmem => ?_, fun index location hmem => ?_⟩
    · rw [hsets.start hblock]
      exact hstart location hmem
    · have := hafter index location hmem
      rwa [List.length_nil, Nat.zero_add] at this
  · rw [← getD_toList]
    exact hle number'

/-- A round stays below every solution. -/
theorem le_foldlM_update (hsets : sets.Solves config function) {work : List (X86.Block × Nat)}
    (hwork : ∀ entry ∈ work, function.blocks[entry.2]? = some entry.1)
    (htable : IsTable config function table) (hle : PointSets.ofBlocks table.toList ≤ sets)
    (h : work.foldlM (update config function (blockNumbers function)) table = .ok table') :
    PointSets.ofBlocks table'.toList ≤ sets := by
  induction work generalizing table with
  | nil =>
    cases h
    exact hle
  | cons entry work ih =>
    obtain ⟨hblock, hwork⟩ := List.forall_mem_cons.mp hwork
    rw [List.foldlM_cons, Except.bind_eq_ok] at h
    obtain ⟨table₁, htable₁, h⟩ := h
    have hlt : entry.2 < table.size := htable.size ▸ (List.getElem?_eq_some_iff.mp hblock).1
    exact ih hwork (htable.update hblock htable₁).1 (le_update hsets hblock hlt hle htable₁) h

/-- Rounds stay below a solution. -/
theorem le_round (hsets : sets.Solves config function) (htable : IsTable config function table)
    (hle : PointSets.ofBlocks table.toList ≤ sets)
    (h : Liveness.round config function table = .ok table') :
    PointSets.ofBlocks table'.toList ≤ sets :=
  le_foldlM_update hsets (fun _ hentry => List.mem_zipIdx_iff_getElem?.mp
    (List.mem_reverse.mp hentry)) htable hle h

/-- Empty sets are below all others. -/
theorem replicate_le (count : Nat) :
    PointSets.ofBlocks (Array.replicate count ({} : BlockLiveness)).toList ≤ sets := by
  intro number
  have hempty : (Array.replicate count ({} : BlockLiveness)).toList.getD number {} = {} := by
    rw [Array.toList_replicate, List.getD_eq_getElem?_getD, List.getElem?_replicate]
    split
    · rfl
    · rfl
  dsimp only [PointSets.ofBlocks]
  rw [hempty]
  simp

/-! ## The whole function -/

/-- A solution of the equations of the analysis is a solution of the equations at all points. -/
theorem IsSolution.solves (h : IsSolution config function table) :
    (PointSets.ofBlocks table.toList).Solves config function := by
  have hblock {block : X86.Block} {number : Nat} (hblock : function.blocks[number]? = some block) :=
    solves_of_ofBlock (.ofBlocks table.toList) (fun _ _ hset _ => mem_atLabel_iff hset) number []
      (fun index location => by
        rw [List.length_nil, Nat.zero_add, ← getD_toList]
        rfl) (h block number hblock)
  refine ⟨fun hnumber => ?_, fun hnumber index instruction hinstruction => ?_⟩
  · ext location
    refine Iff.trans ?_ ((hblock hnumber).1 location)
    rw [← getD_toList]
    rfl
  · have heq := (hblock hnumber).2 index instruction hinstruction
    rwa [List.length_nil, Nat.zero_add] at heq

end Liveness

namespace X86.Function

variable {config : Config} {function : X86.Function} {liveness : Liveness}

/-- If the live sets can be computed, all jumps go to blocks of the function or to its
conclusion. -/
theorem isClosed_of_liveness (h : function.liveness config = .ok liveness) :
    function.IsClosed := by
  obtain ⟨table, -, -, hsolution⟩ := liveness_equations h
  intro block hblock instruction hinstruction label hlabel
  obtain ⟨number, hnumber⟩ := List.mem_iff_getElem?.mp hblock
  obtain ⟨set, hset⟩ := Liveness.exists_of_mem_jumps (hsolution block number hnumber)
    instruction hinstruction label hlabel
  rw [Liveness.atLabel] at hset
  split at hset
  · next hconclusion => exact .inl hconclusion
  · split at hset
    · next number hnumber =>
      obtain ⟨left, found, right, hblocks, -, hfound, -⟩ :=
        Liveness.exists_of_blockNumbers hnumber
      refine .inr (List.mem_map.mpr ⟨found, ?_, hfound⟩)
      rw [hblocks]
      exact List.mem_append_right _ List.mem_cons_self
    · cases hset

/-- The computed sets have no more than any solution. -/
theorem liveness_le (h : function.liveness config = .ok liveness) {sets : PointSets}
    (hsets : sets.Solves config function) : PointSets.ofBlocks liveness.blocks ≤ sets := by
  obtain ⟨last, table, hlast, hround, -, hblocks⟩ :=
    (repeats_liveness config function).exists_last
      (p := fun table => Liveness.IsTable config function table ∧
        PointSets.ofBlocks table.toList ≤ sets)
      (fun _ _ htable hround => ⟨(htable.1.round hround).1,
        Liveness.le_round hsets htable.1 htable.2 hround⟩)
      ⟨.replicate, Liveness.replicate_le _⟩ h
  rw [hblocks]
  exact Liveness.le_round hsets hlast.1 hlast.2 hround

/-- The analysis repeats rounds until one changes nothing, and such a round comes.  It succeeds
exactly if every jump goes to a block of the function or to its conclusion.  Then it has found a
set at the start of every block and after every instruction, and these sets are the least ones that
solve the equations of liveness. -/
theorem liveness_least (config : Config) (function : X86.Function) :
    Liveness.Repeats config function 0 (.replicate function.blocks.length {})
        (function.liveness config) ∧
      ((∃ liveness, function.liveness config = .ok liveness) ↔ function.IsClosed) ∧
      ∀ liveness, function.liveness config = .ok liveness →
        liveness.IsComplete function ∧
        (PointSets.ofBlocks liveness.blocks).Solves config function ∧
        ∀ sets : PointSets, sets.Solves config function →
          PointSets.ofBlocks liveness.blocks ≤ sets := by
  have hclosed : (∃ liveness, function.liveness config = .ok liveness) ↔ function.IsClosed :=
    ⟨fun h => h.elim fun _ => isClosed_of_liveness, fun h => h.exists_liveness config⟩
  refine ⟨repeats_liveness config function, hclosed, fun liveness h =>
    ⟨?_, ?_, fun sets => liveness_le h⟩⟩
  · obtain ⟨_, -, -, hcomplete⟩ :=
      Liveness.IsTable.replicate.solve (.inl (Nat.succ_ne_zero _)) h
    exact hcomplete
  · obtain ⟨table, hblocks, -, hsolution⟩ := liveness_equations h
    rw [hblocks]
    exact hsolution.solves

/-- A function that returns `y`, or waits forever if `x` is zero.  At the loop every set of
locations solves the equations. -/
def waiting : X86.Function where
  name := "f"
  blocks := [
    ⟨"f.start", [
      .cmpq (.immediate 0) (.var "x"),
      .jumpIf .e "f.wait",
      .movq (.var "y") (.register .rax),
      .jump "f.conclusion"]⟩,
    ⟨"f.wait", [.jump "f.wait"]⟩]

/-- A function with a loop. -/
theorem liveness_least_waiting :
    ∃ liveness, waiting.liveness {} = .ok liveness ∧ liveness.IsComplete waiting ∧
      (PointSets.ofBlocks liveness.blocks).Solves {} waiting ∧
      ∀ sets : PointSets, sets.Solves {} waiting → PointSets.ofBlocks liveness.blocks ≤ sets := by
  obtain ⟨liveness, hliveness⟩ : ∃ liveness, waiting.liveness {} = .ok liveness :=
    Except.exists_ok_of_isSome (by decide +kernel)
  exact ⟨liveness, hliveness, (liveness_least {} waiting).2.2 liveness hliveness⟩

end X86.Function

end TupleLang
