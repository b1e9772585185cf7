import TupleLang.Liveness
import TupleLang.Proofs.Stateful

/-!
# The live sets of a function

Whenever the live sets of a function can be computed, there is one after each of its instructions
(`Liveness.IsComplete`), so that the rows of a function list all its instructions
(`Liveness.IsComplete.map_fst_rows`).  Moreover a location is only ever live if some instruction of
the function reads it (`X86.Function.Reads`).

Both hold of every table that a round leaves behind: a round computes the entry of each block once,
and what it takes from other entries are locations that were found live there before.
-/

namespace TupleLang

open X86 (Instruction)

/-- Some instruction of the function needs the value of the location. -/
def X86.Function.Reads (config : Config) (function : X86.Function) (location : Location) : Prop :=
  ∃ instruction ∈ function.instructions, location ∈ instruction.reads config

/-- All locations of the live sets have a property. -/
structure BlockLiveness.Within (p : Location → Prop) (sets : BlockLiveness) : Prop where
  before : ∀ location ∈ sets.liveBefore, p location
  after : ∀ live ∈ sets.liveAfter, ∀ location ∈ live, p location

theorem BlockLiveness.Within.empty {p : Location → Prop} : BlockLiveness.Within p {} :=
  ⟨fun _ h => absurd h Std.ExtTreeSet.not_mem_empty, nofun⟩

namespace Liveness

variable {config : Config} {function : X86.Function} {set : LiveSet} {location : Location}
  {p : Location → Prop}

/-! ## One block -/

/-- Removing a list of members removes them one by one. -/
theorem eraseMany_list {α : Type} [Ord α] [Std.TransOrd α] (set : Std.ExtTreeSet α)
    (members : List α) : set.eraseMany members = members.foldl Std.ExtTreeSet.erase set := by
  have hinner (map : Std.ExtDTreeMap α fun _ => Unit) :
      map.eraseMany members = members.foldl Std.ExtDTreeMap.erase map := by
    simp only [Std.ExtDTreeMap.eraseMany, List.forIn_pure_yield_eq_foldl, pure_bind, Id.run_pure]
    exact (List.foldl_hom Subtype.val fun _ _ => rfl).symm
  rw [Std.ExtTreeSet.eraseMany, Std.ExtTreeMap.eraseMany, hinner]
  clear hinner
  induction members generalizing set with
  | nil => rfl
  | cons member members ih => exact ih (set.erase member)

/-- What stays when a list is taken out. -/
theorem mem_eraseMany_list {locations : List Location} :
    location ∈ set.eraseMany locations ↔ location ∈ set ∧ location ∉ locations := by
  rw [eraseMany_list]
  induction locations generalizing set with
  | nil => exact (and_iff_left List.not_mem_nil).symm
  | cons first locations ih =>
    rw [List.foldl_cons, ih, Std.ExtTreeSet.mem_erase, List.mem_cons, not_or, Ne,
      Std.LawfulEqCmp.compare_eq_iff_eq, eq_comm, and_assoc, and_left_comm]

variable {instruction : Instruction} {live : Name → Except CompileError LiveSet}
  {code : List Instruction} {sets : BlockLiveness} {table table' : Array BlockLiveness}
  {numbers : Std.ExtTreeMap Name Nat}

/-- Before an instruction only those locations are live that it reads or that are live after it. -/
theorem mem_before {live : LiveSet} (h : location ∈ before config instruction live) :
    location ∈ live ∨ location ∈ instruction.reads config := by
  rw [before, Std.ExtTreeSet.mem_insertMany_list] at h
  refine h.imp (fun hkept => ?_) fun hread => ?_
  · exact (mem_eraseMany_list.mp hkept).1
  · exact List.contains_iff_mem.mp hread

/-- After an instruction only those locations are live that are live at the next one or at a
label. -/
theorem forall_mem_after (hlive : ∀ label set, live label = .ok set → ∀ location ∈ set, p location)
    {atNext : LiveSet} (hnext : ∀ location ∈ atNext, p location)
    (h : after live instruction atNext = .ok set) : ∀ location ∈ set, p location := by
  have hempty : ∀ location ∈ (∅ : LiveSet), p location := fun _ hmem =>
    absurd hmem Std.ExtTreeSet.not_mem_empty
  cases instruction with
  | jump label => exact hlive label set h
  | jumpIf condition label =>
    obtain ⟨target, htarget, hset⟩ := Except.bind_eq_ok.mp h
    cases hset
    intro location hmem
    exact (Std.ExtTreeSet.mem_union_iff.mp hmem).elim (hnext location)
      (hlive label target htarget location)
  | retq | tailJump | jumpIndirect =>
    cases h
    exact hempty
  | _ =>
    cases h
    exact hnext

/-- What the live sets of a block are computed from: those of the block without its first
instruction. -/
theorem ofBlock_cons_eq_ok :
    ofBlock config live (instruction :: code) = .ok sets ↔
      ∃ next set, ofBlock config live code = .ok next ∧
        after live instruction next.liveBefore = .ok set ∧
        ⟨before config instruction set, set :: next.liveAfter⟩ = sets := by
  rw [ofBlock, Except.bind_eq_ok]
  refine exists_congr fun next => ⟨fun ⟨hnext, h⟩ => ?_, fun ⟨set, hnext, hset, h⟩ => ?_⟩
  · obtain ⟨set, hset, h⟩ := Except.bind_eq_ok.mp h
    cases h
    exact ⟨set, hnext, hset, rfl⟩
  · cases h
    exact ⟨hnext, Except.bind_eq_ok.mpr ⟨set, hset, rfl⟩⟩

/-- A block has one live set after each instruction. -/
theorem length_ofBlock (h : ofBlock config live code = .ok sets) :
    sets.liveAfter.length = code.length := by
  induction code generalizing sets with
  | nil =>
    cases h
    rfl
  | cons instruction code ih =>
    obtain ⟨next, set, hnext, -, rfl⟩ := ofBlock_cons_eq_ok.mp h
    exact congrArg Nat.succ (ih hnext)

/-- The live sets of a block hold what is live at labels and what the block reads. -/
theorem within_ofBlock (hlive : ∀ label set, live label = .ok set → ∀ location ∈ set, p location)
    (hcode : ∀ instruction ∈ code, ∀ location ∈ instruction.reads config, p location)
    (h : ofBlock config live code = .ok sets) : sets.Within p := by
  induction code generalizing sets with
  | nil =>
    cases h
    exact .empty
  | cons instruction code ih =>
    obtain ⟨hreads, hcode⟩ := List.forall_mem_cons.mp hcode
    obtain ⟨next, set, hnext, hset, rfl⟩ := ofBlock_cons_eq_ok.mp h
    have hwithin := ih hcode hnext
    have hset := forall_mem_after hlive hwithin.before hset
    refine ⟨fun location hmem => (mem_before hmem).elim (hset location) (hreads location), ?_⟩
    exact List.forall_mem_cons.mpr ⟨hset, hwithin.after⟩

/-! ## Tables of blocks -/

/-- A table of the live sets of a function: it has an entry for each block, and all live locations
are read somewhere. -/
structure IsTable (config : Config) (function : X86.Function) (table : Array BlockLiveness) :
    Prop where
  size : table.size = function.blocks.length
  within (number : Nat) : (table.getD number {}).Within (function.Reads config)

/-- The entry of the table for a block has a live set after each of its instructions. -/
def Fits (table : Array BlockLiveness) (block : X86.Block) (number : Nat) : Prop :=
  (table.getD number {}).liveAfter.length = block.instructions.length

/-- The first table. -/
theorem IsTable.replicate : IsTable config function (.replicate function.blocks.length {}) := by
  refine ⟨Array.size_replicate, fun number => ?_⟩
  rw [Array.getD_eq_getD_getElem?, Array.getElem?_replicate]
  split
  · exact .empty
  · exact .empty

section Tables

variable (htable : IsTable config function table)
include htable

/-- Only what is read is live at labels. -/
theorem IsTable.atLabel {label : Name} {set : LiveSet}
    (h : atLabel function numbers table label = .ok set) :
    ∀ location ∈ set, function.Reads config location := by
  rw [Liveness.atLabel] at h
  split at h
  · cases h
    exact fun _ hmem => absurd hmem Std.ExtTreeSet.not_mem_empty
  · split at h
    · next number hnumber =>
      cases h
      exact (htable.within number).before
    · cases h

/-- One block is brought up to date. -/
theorem IsTable.update {block : X86.Block} {number : Nat}
    (hblock : function.blocks[number]? = some block)
    (h : update config function numbers table (block, number) = .ok table') :
    IsTable config function table' ∧ Fits table' block number ∧
      ∀ number', number' ≠ number → table'.getD number' {} = table.getD number' {} := by
  obtain ⟨sets, hsets, h⟩ := Except.bind_eq_ok.mp h
  cases h
  have hlt : number < table.size := htable.size ▸ (List.getElem?_eq_some_iff.mp hblock).1
  have hself : (table.setIfInBounds number sets).getD number {} = sets := by simp [hlt]
  have hother : ∀ number', number' ≠ number →
      (table.setIfInBounds number sets).getD number' {} = table.getD number' {} := by
    intro number' hne
    simp [Ne.symm hne]
  refine ⟨⟨?_, fun number' => ?_⟩, ?_, hother⟩
  · rw [Array.size_setIfInBounds, htable.size]
  · by_cases heq : number' = number
    · subst heq
      rw [hself]
      refine within_ofBlock (fun label set => htable.atLabel) (fun instruction hmem location => ?_)
        hsets
      exact fun hread => ⟨instruction, List.mem_flatMap.mpr
        ⟨block, List.mem_of_getElem? hblock, hmem⟩, hread⟩
    · rw [hother number' heq]
      exact htable.within number'
  · rw [Fits, hself]
    exact length_ofBlock hsets

/-- The entries of the blocks that a round went through fit. -/
theorem IsTable.foldlM_update {work : List (X86.Block × Nat)}
    (hwork : ∀ entry ∈ work, function.blocks[entry.2]? = some entry.1)
    (h : work.foldlM (Liveness.update config function numbers) table = .ok table') :
    IsTable config function table' ∧
      ∀ block number, function.blocks[number]? = some block →
        (block, number) ∈ work ∨ Fits table block number → Fits table' block number := by
  induction work generalizing table with
  | nil =>
    cases h
    exact ⟨htable, fun _ _ _ hfits => hfits.resolve_left List.not_mem_nil⟩
  | cons entry work ih =>
    obtain ⟨block, number⟩ := entry
    obtain ⟨hblock, hwork⟩ := List.forall_mem_cons.mp hwork
    rw [List.foldlM_cons, Except.bind_eq_ok] at h
    obtain ⟨table₁, htable₁, h⟩ := h
    obtain ⟨htable₁, hfits₁, hothers₁⟩ := htable.update hblock htable₁
    obtain ⟨htable', hfits'⟩ := ih htable₁ hwork h
    refine ⟨htable', fun block' number' hblock' hfits => hfits' _ _ hblock' ?_⟩
    by_cases hnumber : number' = number
    · subst hnumber
      cases hblock.symm.trans hblock'
      exact .inr hfits₁
    · refine hfits.imp (fun hmem => ?_) fun hfits => ?_
      · exact (List.mem_cons.mp hmem).resolve_left fun heq => hnumber (congrArg Prod.snd heq)
      · rwa [Fits, hothers₁ number' hnumber]

/-- A round leaves entries that fit. -/
theorem IsTable.round (h : round config function table = .ok table') :
    IsTable config function table' ∧
      ∀ block number, function.blocks[number]? = some block → Fits table' block number := by
  have hwork : ∀ entry ∈ function.blocks.zipIdx.reverse,
      function.blocks[entry.2]? = some entry.1 := fun entry hentry =>
    List.mem_zipIdx_iff_getElem?.mp (List.mem_reverse.mp hentry)
  obtain ⟨htable', hfits⟩ := htable.foldlM_update hwork h
  exact ⟨htable', fun block number hblock => hfits block number hblock
    (.inl (List.mem_reverse.mpr (List.mem_zipIdx_iff_getElem?.mpr hblock)))⟩

/-! ## The whole function -/

/-- The live sets of a function, one after each instruction. -/
def IsComplete (liveness : Liveness) (function : X86.Function) : Prop :=
  List.Forall₂ (fun block sets => sets.liveAfter.length = block.instructions.length)
    function.blocks liveness.blocks

/-- A finished table is complete. -/
theorem IsTable.isComplete
    (hfits : ∀ block number, function.blocks[number]? = some block → Fits table block number)
    (rounds : Nat) : IsComplete ⟨table.toList, rounds⟩ function := by
  refine List.forall₂_iff_get.mpr ⟨htable.size.symm, fun number hblock hsets => ?_⟩
  have hfits := hfits _ number (List.getElem?_eq_getElem hblock)
  rw [Fits, Array.getD_eq_getD_getElem?] at hfits
  simpa [htable.size, hblock] using hfits

/-- Repeating rounds ends with a table whose entries fit, provided that there is a round. -/
theorem IsTable.solve {limit rounds : Nat}
    (hstart : limit ≠ 0 ∨
      ∀ block number, function.blocks[number]? = some block → Fits table block number)
    {liveness : Liveness} (h : solve config function limit rounds table = .ok liveness) :
    ∃ table' : Array BlockLiveness, IsTable config function table' ∧
      liveness.blocks = table'.toList ∧ liveness.IsComplete function := by
  induction limit generalizing table rounds with
  | zero =>
    cases h
    exact ⟨table, htable, rfl, htable.isComplete (hstart.resolve_left (· rfl)) rounds⟩
  | succ limit ih =>
    rw [Liveness.solve, Except.bind_eq_ok] at h
    obtain ⟨next, hnext, h⟩ := h
    obtain ⟨hnext, hfits⟩ := htable.round hnext
    split at h
    · cases h
      exact ⟨next, hnext, rfl, hnext.isComplete hfits (rounds + 1)⟩
    · exact ih hnext (.inr hfits) h

end Tables

/-- The instructions of complete live sets are those of the function. -/
theorem IsComplete.map_fst_rows {liveness : Liveness} (h : liveness.IsComplete function) :
    (liveness.rows function).map Prod.fst = function.instructions := by
  rw [rows, X86.Function.instructions]
  unfold IsComplete at h
  generalize function.blocks = blocks, liveness.blocks = sets at h ⊢
  induction h with
  | nil => rfl
  | cons hlength _ ih =>
    rw [List.zip_cons_cons, List.flatMap_cons, List.flatMap_cons, List.map_append, ih]
    rw [List.map_fst_zip (Nat.le_of_eq hlength.symm)]

end Liveness

namespace X86.Function

open Liveness

variable {config : Config} {function : X86.Function} {liveness : Liveness}

/-- The rows of a function list its instructions. -/
theorem map_fst_rows (h : function.liveness config = .ok liveness) :
    (liveness.rows function).map Prod.fst = function.instructions := by
  obtain ⟨_, -, -, hcomplete⟩ := IsTable.replicate.solve (.inl (Nat.succ_ne_zero _)) h
  exact hcomplete.map_fst_rows

/-- What is live somewhere is read somewhere. -/
theorem reads_of_mem_rows (h : function.liveness config = .ok liveness)
    {row : Instruction × LiveSet} (hrow : row ∈ liveness.rows function) {location : Location}
    (hlocation : location ∈ row.2) : function.Reads config location := by
  obtain ⟨table, htable, hblocks, -⟩ := IsTable.replicate.solve (.inl (Nat.succ_ne_zero _)) h
  obtain ⟨⟨block, sets⟩, hmem, hrow⟩ := List.mem_flatMap.mp hrow
  have hsets : sets ∈ table.toList := hblocks ▸ (List.of_mem_zip hmem).2
  obtain ⟨number, hlt, rfl⟩ := Array.mem_iff_getElem.mp (Array.mem_toList_iff.mp hsets)
  have hwithin := htable.within number
  rw [Array.getD_eq_getD_getElem?, Array.getElem?_eq_getElem hlt] at hwithin
  exact hwithin.after row.2 (List.of_mem_zip hrow).2 location hlocation

end X86.Function

end TupleLang
