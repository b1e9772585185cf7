import TupleLang.Proofs.AgreeingMachines
import TupleLang.Proofs.StraightCode

/-!
# Liveness and execution

What is not live at a point of a function makes no difference from there on.

The points of a function are the rows of its live sets: row number `k` has the instruction number
`k` of the function and what is live after it.  Since the live sets solve the equations of liveness,
whatever is live where control can go from a row is live after that row (`Liveness.RowCovers`).  So
two machines that agree on what is live at a point, and run on from there, agree on what is live at
every point to which they come, until the function calls another one or is left
(`X86.Function.live_locations_suffice`).
-/

namespace TupleLang

open X86 (Instruction)

/-- Whether a block may end with the instruction. -/
def X86.Instruction.endsBlock : Instruction → Bool
  | .jump _ | .tailJump _ _ => true
  | _ => false

/-- The function is as instructions are selected: each block ends in a jump or a tail jump, and
operands are plain. -/
structure X86.Function.IsSelected (function : X86.Function) : Prop where
  endsBlock : ∀ block ∈ function.blocks, ∃ last, block.instructions.getLast? = some last ∧
    last.endsBlock = true
  isPlain : ∀ instruction ∈ function.instructions, ∀ operand ∈ instruction.operands,
    operand.isPlain = true

namespace Liveness

variable {config : Config} {function : X86.Function} {liveness : Liveness}
  {live : Name → Except CompileError LiveSet} {k : Nat} {row : Instruction × LiveSet}
  {instruction : Instruction} {atNext set : LiveSet} {sets : BlockLiveness} {block : X86.Block}

/-! ## Rows -/

/-- What is live at a row, before its instruction. -/
def liveAtRow (config : Config) (row : Instruction × LiveSet) : LiveSet :=
  before config row.1 row.2

/-- Where control can go from a row, to the next one or to a label, no more is live than after the
row. -/
structure RowCovers (config : Config) (live : Name → Except CompileError LiveSet)
    (row : Instruction × LiveSet) (next? : Option (Instruction × LiveSet)) : Prop where
  next : row.1.isLocal = true → (∀ label, row.1 ≠ .jump label) →
    ∃ row', next? = some row' ∧ ∀ location ∈ liveAtRow config row', location ∈ row.2
  label : ∀ label, row.1.target? = some label →
    ∃ set, live label = .ok set ∧ ∀ location ∈ set, location ∈ row.2

/-- What is live at the next instruction is live after an instruction that may lead to it. -/
theorem mem_after_of_next (h : after live instruction atNext = .ok set)
    (hlocal : instruction.isLocal = true) (hjump : ∀ label, instruction ≠ .jump label) :
    ∀ location ∈ atNext, location ∈ set := by
  cases instruction with
  | jump label => exact absurd rfl (hjump label)
  | jumpIf condition label =>
    obtain ⟨target, -, hset⟩ := Except.bind_eq_ok.mp h
    cases hset
    exact fun location hmem => Std.ExtTreeSet.mem_union_iff.mpr (.inl hmem)
  | callq _ _ | callIndirect _ _ | tailJump _ _ | retq | jumpIndirect _ => cases hlocal
  | _ =>
    cases h
    exact fun _ hmem => hmem

/-- What is live at a label is live after an instruction that may jump there. -/
theorem mem_after_of_label (h : after live instruction atNext = .ok set) {label : Name}
    (hlabel : instruction.target? = some label) :
    ∃ target, live label = .ok target ∧ ∀ location ∈ target, location ∈ set := by
  cases instruction with
  | jump _ =>
    cases hlabel
    exact ⟨set, h, fun _ hmem => hmem⟩
  | jumpIf condition _ =>
    cases hlabel
    obtain ⟨target, htarget, hset⟩ := Except.bind_eq_ok.mp h
    cases hset
    exact ⟨target, htarget, fun location hmem => Std.ExtTreeSet.mem_union_iff.mpr (.inr hmem)⟩
  | _ => cases hlabel

/-- The rows of a block that ends in a jump or a tail jump. -/
theorem rowCovers_of_ofBlock {code : List Instruction} (h : ofBlock config live code = .ok sets)
    (hlast : ∀ last, code.getLast? = some last → last.endsBlock = true)
    (hrow : (code.zip sets.liveAfter)[k]? = some row) :
    RowCovers config live row (code.zip sets.liveAfter)[k + 1]? := by
  induction code generalizing sets k with
  | nil => cases hrow
  | cons instruction code ih =>
    obtain ⟨next, set, hnext, hset, rfl⟩ := ofBlock_cons_eq_ok.mp h
    cases k with
    | zero =>
      cases hrow
      refine ⟨fun hlocal hjump => ?_, fun label hlabel => mem_after_of_label hset hlabel⟩
      cases code with
      | nil =>
        -- The last instruction of a block is a jump, or it leaves the function.
        have hends := hlast instruction rfl
        cases instruction with
        | jump label => exact absurd rfl (hjump label)
        | tailJump _ _ => cases hlocal
        | _ => cases hends
      | cons instruction' code =>
        obtain ⟨_, set', -, -, rfl⟩ := ofBlock_cons_eq_ok.mp hnext
        exact ⟨(instruction', set'), rfl, mem_after_of_next hset hlocal hjump⟩
    | succ k =>
      refine ih hnext (fun last hlast' => hlast last ?_) hrow
      cases code with
      | nil => cases hlast'
      | cons _ _ => exact hlast'

/-- The rows of several blocks, one block after the other. -/
theorem rowCovers_of_flatMap {pairs : List (X86.Block × BlockLiveness)}
    (h : ∀ pair ∈ pairs, ofBlock config live pair.1.instructions = .ok pair.2 ∧
      ∀ last, pair.1.instructions.getLast? = some last → last.endsBlock = true)
    (hrow : (pairs.flatMap fun (block, sets) => block.instructions.zip sets.liveAfter)[k]? =
      some row) :
    RowCovers config live row
      (pairs.flatMap fun (block, sets) => block.instructions.zip sets.liveAfter)[k + 1]? := by
  induction pairs generalizing k with
  | nil => cases hrow
  | cons pair pairs ih =>
    obtain ⟨hpair, hpairs⟩ := List.forall_mem_cons.mp h
    obtain ⟨block, sets⟩ := pair
    rw [List.flatMap_cons] at hrow ⊢
    by_cases hk : k < (block.instructions.zip sets.liveAfter).length
    · rw [List.getElem?_append_left hk] at hrow
      have hcovers := rowCovers_of_ofBlock hpair.1 hpair.2 hrow
      refine ⟨fun hlocal hjump => ?_, hcovers.label⟩
      obtain ⟨row', hrow', hlive⟩ := hcovers.next hlocal hjump
      refine ⟨row', ?_, hlive⟩
      rw [List.getElem?_append_left (List.getElem?_eq_some_iff.mp hrow').1, hrow']
    · rw [List.getElem?_append_right (Nat.le_of_not_lt hk)] at hrow
      rw [List.getElem?_append_right (Nat.le_add_right_of_le (Nat.le_of_not_lt hk)),
        Nat.sub_add_comm (Nat.le_of_not_lt hk)]
      exact ih hpairs hrow

variable {table : Array BlockLiveness}

/-- Blocks have the live sets of the table. -/
theorem ofBlock_of_mem_zip (hsolution : IsSolution config function table)
    (h : (block, sets) ∈ function.blocks.zip table.toList) :
    ofBlock config (atLabel function (blockNumbers function) table) block.instructions =
      .ok sets := by
  obtain ⟨number, hnumber⟩ := List.mem_iff_getElem?.mp h
  obtain ⟨hblock, hsets⟩ := List.getElem?_zip_eq_some.mp hnumber
  have h := hsolution _ _ hblock
  rwa [Array.getD_eq_getD_getElem?, ← Array.getElem?_toList, hsets] at h

/-- The row of the first instruction of a block. -/
theorem exists_row_of_block (hsets : liveness.blocks = table.toList)
    (htable : IsTable config function table) (hsolution : IsSolution config function table)
    (hfunction : function.IsSelected) {left right : List X86.Block}
    (hblocks : function.blocks = left ++ block :: right) :
    ∃ row, (liveness.rows function)[Image.codeLength left]? = some row ∧
      liveAtRow config row = (table.getD left.length {}).liveBefore := by
  obtain ⟨setsLeft, sets, setsRight, htoList, hlength⟩ :
      ∃ setsLeft sets setsRight, table.toList = setsLeft ++ sets :: setsRight ∧
        left.length = setsLeft.length := by
    have hlt : left.length < table.toList.length := by
      have hsize : table.toList.length = function.blocks.length := htable.size
      rw [hsize, hblocks, List.length_append, List.length_cons]
      omega
    refine ⟨table.toList.take left.length, table.toList[left.length],
      table.toList.drop (left.length + 1), ?_, ?_⟩
    · rw [← List.drop_eq_getElem_cons hlt, List.take_append_drop]
    · rw [List.length_take_of_le (Nat.le_of_lt hlt)]
  have hzip : function.blocks.zip table.toList =
      left.zip setsLeft ++ (block, sets) :: right.zip setsRight := by
    rw [hblocks, htoList, List.zip_append hlength, List.zip_cons_cons]
  have hcomplete : IsComplete ⟨setsLeft, 0⟩ { function with blocks := left } :=
    List.forall₂_iff_zip.mpr ⟨hlength, fun hmem =>
      length_ofBlock (ofBlock_of_mem_zip hsolution (hzip ▸ List.mem_append_left _ hmem))⟩
  have hleft : (rows ⟨setsLeft, 0⟩ { function with blocks := left }).length =
      Image.codeLength left := by
    rw [← List.length_map Prod.fst, hcomplete.map_fst_rows]
    rfl
  have hrows : liveness.rows function = rows ⟨setsLeft, 0⟩ { function with blocks := left } ++
      (block.instructions.zip sets.liveAfter ++
        rows ⟨setsRight, 0⟩ { function with blocks := right }) := by
    rw [rows, hsets, hzip, List.flatMap_append, List.flatMap_cons]
    rfl
  have hblock := ofBlock_of_mem_zip hsolution
    (hzip ▸ List.mem_append_right (left.zip setsLeft) List.mem_cons_self)
  have hgetD : table.getD left.length {} = sets := by
    rw [Array.getD_eq_getD_getElem?, ← Array.getElem?_toList, htoList, hlength]
    simp
  obtain ⟨last, hlast, -⟩ := hfunction.endsBlock block (hblocks ▸ by simp)
  obtain ⟨label, code⟩ := block
  cases code with
  | nil => cases hlast
  | cons instruction code =>
    obtain ⟨next, set, -, -, rfl⟩ := ofBlock_cons_eq_ok.mp hblock
    refine ⟨(instruction, set), ?_, ?_⟩
    · rw [hrows, ← hleft, List.getElem?_append_right (Nat.le_refl _), Nat.sub_self]
      rfl
    · rw [hgetD]
      rfl

/-- The rows of a function cover each other. -/
theorem rowCovers_rows (hsets : liveness.blocks = table.toList)
    (hsolution : IsSolution config function table) (hfunction : function.IsSelected)
    (hrow : (liveness.rows function)[k]? = some row) :
    RowCovers config (atLabel function (blockNumbers function) table) row
      (liveness.rows function)[k + 1]? := by
  refine rowCovers_of_flatMap (fun ⟨block, sets⟩ hmem => ⟨?_, fun last hlast => ?_⟩) hrow
  · exact ofBlock_of_mem_zip hsolution (hsets ▸ hmem)
  · obtain ⟨last', hlast', hends⟩ := hfunction.endsBlock block (List.of_mem_zip hmem).1
    rw [hlast] at hlast'
    cases hlast'
    exact hends

end Liveness

/-! ## Execution -/

/-- Whether the instruction calls a function or leaves its own one.  The conclusion is left to. -/
def X86.Instruction.leaves (conclusion : Name) (flags : Word × Word) : Instruction → Bool
  | .callq _ _ | .callIndirect _ _ | .tailJump _ _ | .retq | .jumpIndirect _ => true
  | .jump label => label == conclusion
  | .jumpIf condition label => condition.holds flags.1 flags.2 && label == conclusion
  | _ => false

/-- What does not leave a function is local. -/
theorem X86.Instruction.isLocal_of_leaves {conclusion : Name} {flags : Word × Word}
    {instruction : Instruction} (h : instruction.leaves conclusion flags = false) :
    instruction.isLocal = true := by
  cases instruction with
  | callq _ _ | callIndirect _ _ | tailJump _ _ | retq | jumpIndirect _ => cases h
  | _ => rfl

namespace Machine

/-- Where a machine goes with an instruction that does not leave the function: to the next
instruction, or to a label other than the conclusion. -/
theorem next_execute_or_label {image : Image} {conclusion : Name} {machine m : Machine}
    {instruction : Instruction} (hstays : instruction.leaves conclusion machine.flags = false)
    (h : machine.execute image instruction = .ok (.running m)) :
    (m.next = machine.next ∧ ∀ label, instruction ≠ .jump label) ∨
      ∃ label, instruction.target? = some label ∧ label ≠ conclusion ∧
        image.label label = .ok m.next := by
  cases instruction with
  | jump label =>
    obtain ⟨number, hnumber, hm⟩ := Except.bind_eq_ok.mp h
    cases hm
    exact .inr ⟨label, rfl, beq_eq_false_iff_ne.mp hstays, hnumber⟩
  | jumpIf condition label =>
    rw [execute] at h
    rw [X86.Instruction.leaves] at hstays
    split at h
    · rename_i hholds
      obtain ⟨number, hnumber, hm⟩ := Except.bind_eq_ok.mp h
      cases hm
      rw [hholds, Bool.true_and] at hstays
      exact .inr ⟨label, rfl, beq_eq_false_iff_ne.mp hstays, hnumber⟩
    · cases h
      exact .inl ⟨rfl, fun _ hjump => by cases hjump⟩
  | callq _ _ | callIndirect _ _ | tailJump _ _ | retq | jumpIndirect _ => cases hstays
  | _ => exact .inl ⟨next_execute rfl h, fun _ hjump => by cases hjump⟩

/-- Takes some steps, but stops before the first instruction that calls a function or leaves its
own one. -/
def runWithin (image : Image) (conclusion : Name) :
    (steps : Nat) → Machine → Except MachineError Machine
  | 0, machine => .ok machine
  | steps + 1, machine =>
    match image.code[machine.next]? with
    | none => .error .fellOffEnd
    | some instruction =>
      if instruction.leaves conclusion machine.flags then .ok machine
      else do
        match ← machine.step image with
        | .running machine => machine.runWithin image conclusion steps
        | .halted machine => return machine

/-- The machines are at the same point of a function, whose code begins at `offset`, and they agree
on what is live there. -/
def AgreeAt (config : Config) (rows : List (Instruction × LiveSet)) (offset : Nat)
    (machine machine' : Machine) : Prop :=
  ∃ k row, rows[k]? = some row ∧ machine.next = offset + k ∧
    Agree config (Liveness.liveAtRow config row) machine machine'

variable {config : Config} {front back : List X86.Function} {function : X86.Function}
  {liveness : Liveness} {machine machine' : Machine} {row : Instruction × LiveSet} {k : Nat}

variable (front back) in
/-- The rows of a function are its points. -/
theorem code_of_row (hliveness : function.liveness config = .ok liveness)
    (hrow : (liveness.rows function)[k]? = some row) :
    (Image.ofProgram ⟨front ++ function :: back⟩).code[
      (front.flatMap X86.Function.instructions).length + k]? = some row.1 := by
  have hinstruction : function.instructions[k]? = some row.1 := by
    rw [← X86.Function.map_fst_rows hliveness, List.getElem?_map, hrow]
    rfl
  rw [Image.hasCode_ofProgram front back function k (List.getElem?_eq_some_iff.mp hinstruction).1,
    hinstruction]

variable (hconfig : config.validate = .ok ()) (hliveness : function.liveness config = .ok liveness)
  (hfunction : function.IsSelected)
  (hback : ∀ block ∈ function.blocks,
    block.label ∉ (back.flatMap X86.Function.blocks).map X86.Block.label)
include hfunction hback

variable (front) in
/-- A label of the function, but for the conclusion, stands for a row, and what is live at the label
is what is live at that row. -/
theorem exists_label_row {table : Array BlockLiveness} (hsets : liveness.blocks = table.toList)
    (htable : Liveness.IsTable config function table)
    (hsolution : Liveness.IsSolution config function table) {label : Name} {set : LiveSet}
    (h : Liveness.atLabel function (Liveness.blockNumbers function) table label = .ok set)
    (hlabel : label ≠ function.name.conclusionLabel) :
    ∃ k row, (liveness.rows function)[k]? = some row ∧ Liveness.liveAtRow config row = set ∧
      (Image.ofProgram ⟨front ++ function :: back⟩).label label =
        .ok ((front.flatMap X86.Function.instructions).length + k) := by
  rw [Liveness.atLabel, if_neg hlabel] at h
  split at h
  · rename_i number hnumber
    cases h
    obtain ⟨left, block, right, hblocks, rfl, rfl, hright⟩ :=
      Liveness.exists_of_blockNumbers hnumber
    obtain ⟨row, hrow, hlive⟩ :=
      Liveness.exists_row_of_block hsets htable hsolution hfunction hblocks
    refine ⟨Image.codeLength left, row, hrow, hlive, ?_⟩
    exact Image.label_ofProgram hblocks hright (hback block (hblocks ▸ by simp))
  · cases h

include hliveness

/-- After an instruction that does not leave the function, the machine is at a row at which no more
is live than after that instruction. -/
theorem exists_next_row (hrow : (liveness.rows function)[k]? = some row)
    (hnext : machine.next = (front.flatMap X86.Function.instructions).length + (k + 1))
    (hstays : row.1.leaves function.name.conclusionLabel machine.flags = false) {m : Machine}
    (h : machine.execute (Image.ofProgram ⟨front ++ function :: back⟩) row.1 = .ok (.running m)) :
    ∃ k' row', (liveness.rows function)[k']? = some row' ∧
      m.next = (front.flatMap X86.Function.instructions).length + k' ∧
      ∀ location ∈ Liveness.liveAtRow config row', location ∈ row.2 := by
  obtain ⟨table, hsets, htable, hsolution⟩ := X86.Function.liveness_equations hliveness
  have hcovers := Liveness.rowCovers_rows hsets hsolution hfunction hrow
  rcases next_execute_or_label hstays h with ⟨hsame, hjump⟩ | ⟨label, htarget, hlabel, hnumber⟩
  · obtain ⟨row', hrow', hlive⟩ :=
      hcovers.next (X86.Instruction.isLocal_of_leaves hstays) hjump
    exact ⟨k + 1, row', hrow', hsame.trans hnext, hlive⟩
  · obtain ⟨set, hset, hlive⟩ := hcovers.label label htarget
    obtain ⟨k', row', hrow', rfl, hplace⟩ :=
      exists_label_row front hfunction hback hsets htable hsolution hset hlabel
    exact ⟨k', row', hrow', Except.ok.inj (hnumber.symm.trans hplace), hlive⟩

include hconfig

/-- One step keeps machines in agreement. -/
theorem AgreeAt.step {instruction : Instruction}
    (hcode : (Image.ofProgram ⟨front ++ function :: back⟩).code[machine.next]? = some instruction)
    (hstays : instruction.leaves function.name.conclusionLabel machine.flags = false)
    (h : AgreeAt config (liveness.rows function)
      (front.flatMap X86.Function.instructions).length machine machine') :
    Alike (fun progress progress' => ∃ m m', progress = .running m ∧ progress' = .running m' ∧
        AgreeAt config (liveness.rows function)
          (front.flatMap X86.Function.instructions).length m m')
      (machine.step (Image.ofProgram ⟨front ++ function :: back⟩))
      (machine'.step (Image.ofProgram ⟨front ++ function :: back⟩)) := by
  obtain ⟨k, row, hrow, hnext, hagree⟩ := h
  obtain rfl : row.1 = instruction := by
    have hfetch := code_of_row front back hliveness hrow
    rw [← hnext, hcode] at hfetch
    exact (Option.some.inj hfetch).symm
  have hplain : ∀ operand ∈ row.1.operands, operand.isPlain = true := by
    refine hfunction.isPlain row.1 ?_
    rw [← X86.Function.map_fst_rows hliveness]
    exact List.mem_map_of_mem (List.mem_of_getElem? hrow)
  have hlocal := X86.Instruction.isLocal_of_leaves hstays
  simp only [Machine.step, hagree.next_eq, hcode]
  refine ((hagree.continueAt (machine.next + 1)).execute hconfig hlocal hplain).imp ?_
  rintro _ _ hm ⟨hagree'⟩
  have hnext' : (machine.continueAt (machine.next + 1)).next =
      (front.flatMap X86.Function.instructions).length + (k + 1) := by
    rw [← Nat.add_assoc, ← hnext]
    rfl
  obtain ⟨k', row', hrow', hplace, hlive⟩ :=
    exists_next_row hliveness hfunction hback hrow hnext' hstays hm
  exact ⟨_, _, rfl, rfl, k', row', hrow', hplace, hagree'.mono hlive⟩

end Machine

/-- What is not live makes no difference.  Two machines stand at the same point of a function and
agree on everything but variables and allocatable registers that are not live there.  Until the
function calls another one or is left, they do the same, step by step: both fail with the same
error, or both come to the same point and agree on everything but what is not live at that
point. -/
theorem X86.Function.live_locations_suffice {config : Config} (hconfig : config.validate = .ok ())
    {function : X86.Function} (hfunction : function.IsSelected) {liveness : Liveness}
    (hliveness : function.liveness config = .ok liveness) (front : List X86.Function)
    {back : List X86.Function}
    (hback : ∀ block ∈ function.blocks,
      block.label ∉ (back.flatMap X86.Function.blocks).map X86.Block.label)
    {machine machine' : Machine}
    (h : machine.AgreeAt config (liveness.rows function)
      (front.flatMap X86.Function.instructions).length machine') (steps : Nat) :
    Alike (Machine.AgreeAt config (liveness.rows function)
        (front.flatMap X86.Function.instructions).length)
      (machine.runWithin (Image.ofProgram ⟨front ++ function :: back⟩)
        function.name.conclusionLabel steps)
      (machine'.runWithin (Image.ofProgram ⟨front ++ function :: back⟩)
        function.name.conclusionLabel steps) := by
  induction steps generalizing machine machine' with
  | zero => exact .ok h
  | succ steps ih =>
    obtain ⟨k, row, -, -, hagree⟩ := id h
    rw [Machine.runWithin, Machine.runWithin, hagree.next_eq, hagree.flags_eq]
    split
    · exact .error _
    · rename_i instruction hcode
      split
      · exact .ok h
      · rename_i hstays
        refine (h.step hconfig hliveness hfunction hback hcode (by simpa using hstays)).bind ?_
        rintro _ _ ⟨m, m', rfl, rfl, hagree'⟩
        exact ih hagree'

/-- A function that counts `x` down from three and then returns `y`. -/
def X86.Function.countdown : X86.Function where
  name := "f"
  blocks := [
    ⟨"f.start", [
      .movq (.immediate 3) (.var "x"),
      .jump "f.loop"]⟩,
    ⟨"f.loop", [
      .cmpq (.immediate 0) (.var "x"),
      .jumpIf .e "f.done",
      .subq (.immediate 1) (.var "x"),
      .jump "f.loop"]⟩,
    ⟨"f.done", [
      .movq (.var "y") (.register .rax),
      .jump "f.conclusion"]⟩]

/-- A machine at the start of `countdown`, with a value for `x`. -/
def X86.Function.countdownStart (x : Word) : Machine :=
  { nextHeap := Machine.heapBase, bindings := some fun name => if name = "x" then x else 1 }

/-- The value of `x` before `countdown` does not matter, although the loop reads `x`. -/
theorem X86.Function.live_locations_suffice_countdown :
    ∃ liveness, countdown.liveness {} = .ok liveness ∧
      (countdownStart 0).AgreeAt {} (liveness.rows countdown) 0 (countdownStart 7) ∧
      ∀ steps, Alike (Machine.AgreeAt {} (liveness.rows countdown) 0)
        ((countdownStart 0).runWithin (Image.ofProgram ⟨[countdown]⟩) "f.conclusion" steps)
        ((countdownStart 7).runWithin (Image.ofProgram ⟨[countdown]⟩) "f.conclusion" steps) := by
  have hrows : ((countdown.liveness {}).toOption.any fun liveness =>
      (liveness.rows countdown)[0]?.any fun row =>
        !(Liveness.liveAtRow {} row).contains (.var "x")) = true := by
    decide +kernel
  obtain ⟨liveness, hliveness, hrows⟩ := Except.exists_ok_of_any hrows
  obtain ⟨row, hrow, hx⟩ := (Option.any_eq_true _ _).mp hrows
  have hagree : (countdownStart 0).AgreeAt {} (liveness.rows countdown) 0 (countdownStart 7) := by
    refine ⟨0, row, hrow, rfl, ⟨rfl, rfl, rfl, rfl, rfl, rfl, rfl, fun _ _ => rfl, ?_⟩⟩
    refine ⟨_, _, rfl, rfl, fun name hname => ?_⟩
    have hne : name ≠ "x" := by
      rintro rfl
      rw [Std.ExtTreeSet.contains_iff_mem.mpr hname] at hx
      cases hx
    rw [if_neg hne, if_neg hne]
  refine ⟨liveness, hliveness, hagree, fun steps => ?_⟩
  exact live_locations_suffice (rfl : Config.validate {} = .ok ())
    ⟨by simp [countdown, Instruction.endsBlock], by decide⟩ hliveness [] (by simp) hagree steps

end TupleLang
