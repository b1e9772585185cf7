import Mathlib.Data.List.Nodup
import Mathlib.Data.List.ProdSigma
import TupleLang.Proofs.LiveSets

/-!
# The equations of liveness

The live sets of a function solve the equations by which they are computed: those of a block are
what `Liveness.ofBlock` makes of what is live at the labels, when that is taken from the same live
sets (`X86.Function.liveness_equations`).

A round sees sets of the round before and new ones side by side.  If it changes nothing at the
starts of the blocks, this makes no difference, so the equations hold
(`Liveness.isSolution_of_isStable`).
It remains to see that the limit on the number of rounds is never reached
(`X86.Function.repeats_liveness`).  Rounds are monotone, so the sets only grow (`Liveness.Below`).
What they can hold are reads of the function, and a round that changes something adds one of the
reads to one of the blocks (`Liveness.weight_lt`).
-/

namespace TupleLang

open X86 (Instruction)

namespace Liveness

variable {config : Config} {function : X86.Function} {instruction : Instruction}
  {live live' : Name → Except CompileError LiveSet} {set set' : LiveSet}
  {work : List (X86.Block × Nat)} {next' : Array BlockLiveness} {rounds : Nat}

/-! ## One block -/

/-- What is live before an instruction: what it reads, and what is live after it and not written. -/
theorem mem_before_iff {live : LiveSet} {location : Location} :
    location ∈ before config instruction live ↔
      location ∈ instruction.reads config ∨
        location ∈ live ∧ location ∉ instruction.writes config := by
  rw [before, Std.ExtTreeSet.mem_insertMany_list, mem_eraseMany_list, List.contains_iff_mem,
    or_comm]

/-- Where more is live at the labels, more is live. -/
theorem after_mono
    (hlive : ∀ label set set', live label = .ok set → live' label = .ok set' →
      ∀ location ∈ set, location ∈ set') {next next' : LiveSet}
    (hnext : ∀ location ∈ next, location ∈ next') (h : after live instruction next = .ok set)
    (h' : after live' instruction next' = .ok set') : ∀ location ∈ set, location ∈ set' := by
  cases instruction with
  | jump label => exact hlive label set set' h h'
  | jumpIf condition label =>
    obtain ⟨target, htarget, hset⟩ := Except.bind_eq_ok.mp h
    obtain ⟨target', htarget', hset'⟩ := Except.bind_eq_ok.mp h'
    cases hset
    cases hset'
    intro location hmem
    rw [Std.ExtTreeSet.mem_union_iff] at hmem ⊢
    exact hmem.imp (hnext location) (hlive label target target' htarget htarget' location)
  | retq | tailJump | jumpIndirect =>
    cases h
    cases h'
    exact fun _ hmem => hmem
  | _ =>
    cases h
    cases h'
    exact hnext

/-- More live at labels is more live before. -/
theorem ofBlock_mono
    (hlive : ∀ label set set', live label = .ok set → live' label = .ok set' →
      ∀ location ∈ set, location ∈ set') {code : List Instruction} {sets sets' : BlockLiveness}
    (h : ofBlock config live code = .ok sets) (h' : ofBlock config live' code = .ok sets') :
    ∀ location ∈ sets.liveBefore, location ∈ sets'.liveBefore := by
  induction code generalizing sets sets' with
  | nil =>
    cases h
    cases h'
    exact fun _ hmem => hmem
  | cons instruction code ih =>
    obtain ⟨next, set, hnext, hset, rfl⟩ := ofBlock_cons_eq_ok.mp h
    obtain ⟨next', set', hnext', hset', rfl⟩ := ofBlock_cons_eq_ok.mp h'
    intro location hmem
    rw [mem_before_iff] at hmem ⊢
    exact hmem.imp_right fun hkept =>
      ⟨after_mono hlive (ih hnext hnext') hset hset' location hkept.1, hkept.2⟩

/-! ## Rounds -/

/-- Two tables say the same about the starts of all blocks. -/
def SameStarts (table table' : Array BlockLiveness) : Prop :=
  ∀ number : Nat, (table.getD number {}).liveBefore = (table'.getD number {}).liveBefore

/-- The second table has at least what the first one has, at the starts of all blocks. -/
def Below (table table' : Array BlockLiveness) : Prop :=
  ∀ number : Nat, ∀ location ∈ (table.getD number {}).liveBefore,
    location ∈ (table'.getD number {}).liveBefore

variable {numbers : Std.ExtTreeMap Name Nat} {table table' next : Array BlockLiveness}

/-- Only what is live at starts matters. -/
theorem atLabel_congr (h : SameStarts table table') :
    atLabel function numbers table = atLabel function numbers table' := by
  funext label
  unfold atLabel
  split
  · rfl
  · split
    · rw [h]
    · rfl

/-- Larger tables have more at labels. -/
theorem atLabel_mono (h : Below table table') {label : Name}
    (hset : atLabel function numbers table label = .ok set)
    (hset' : atLabel function numbers table' label = .ok set') :
    ∀ location ∈ set, location ∈ set' := by
  unfold atLabel at hset hset'
  split at hset
  · rename_i hconclusion
    rw [if_pos hconclusion] at hset'
    cases hset
    cases hset'
    exact fun _ hmem => hmem
  · rename_i hconclusion
    rw [if_neg hconclusion] at hset'
    split at hset
    · rename_i number hnumber
      rw [hnumber] at hset'
      cases hset
      cases hset'
      exact h number
    · cases hset

/-- What a table has after a block was computed once more. -/
theorem getD_setIfInBounds {number : Nat} (hlt : number < table.size) (sets : BlockLiveness)
    (number' : Nat) :
    (table.setIfInBounds number sets).getD number' {} =
      if number' = number then sets else table.getD number' {} := by
  split
  · rename_i heq
    simp [heq, hlt]
  · rename_i hne
    simp [Ne.symm hne]

/-- Rounds keep the order of tables. -/
theorem foldlM_update_mono (hwork : ∀ entry ∈ work, entry.2 < table.size)
    (hsize : table'.size = table.size) (hbelow : Below table table')
    (h : work.foldlM (update config function numbers) table = .ok next)
    (h' : work.foldlM (update config function numbers) table' = .ok next') : Below next next' := by
  induction work generalizing table table' with
  | nil =>
    cases h
    cases h'
    exact hbelow
  | cons entry work ih =>
    obtain ⟨hentry, hwork⟩ := List.forall_mem_cons.mp hwork
    rw [List.foldlM_cons, Except.bind_eq_ok] at h h'
    obtain ⟨table₁, htable₁, h⟩ := h
    obtain ⟨table₁', htable₁', h'⟩ := h'
    obtain ⟨sets, hsets, hupdate⟩ := Except.bind_eq_ok.mp htable₁
    obtain ⟨sets', hsets', hupdate'⟩ := Except.bind_eq_ok.mp htable₁'
    cases hupdate
    cases hupdate'
    refine ih (by simpa using hwork) (by simpa using hsize) (fun number => ?_) h h'
    rw [getD_setIfInBounds hentry, getD_setIfInBounds (hsize ▸ hentry)]
    split
    · exact ofBlock_mono (fun _ _ _ => atLabel_mono hbelow) hsets hsets'
    · exact hbelow number

/-- Rounds are monotone. -/
theorem round_mono (htable : IsTable config function table)
    (htable' : IsTable config function table') (hbelow : Below table table')
    (h : round config function table = .ok next) (h' : round config function table' = .ok next') :
    Below next next' := by
  refine foldlM_update_mono (fun entry hentry => ?_) (htable'.size.trans htable.size.symm) hbelow h
    h'
  have hblock := List.mem_zipIdx_iff_getElem?.mp (List.mem_reverse.mp hentry)
  exact htable.size ▸ (List.getElem?_eq_some_iff.mp hblock).1

/-! ## Solutions -/

/-- The table solves the equations of liveness. -/
def IsSolution (config : Config) (function : X86.Function) (table : Array BlockLiveness) : Prop :=
  ∀ (block : X86.Block) (number : Nat), function.blocks[number]? = some block →
    ofBlock config (atLabel function (blockNumbers function) table) block.instructions =
      .ok (table.getD number {})

/-- The entries that a round makes are computed from tables whose entries are old or new. -/
theorem exists_ofBlock_of_foldlM_update (hwork : ∀ entry ∈ work, entry.2 < table.size)
    (hnodup : (work.map Prod.snd).Nodup)
    (h : work.foldlM (update config function numbers) table = .ok table') :
    (∀ number ∉ work.map Prod.snd, table'.getD number {} = table.getD number {}) ∧
      ∀ entry ∈ work, ∃ middle : Array BlockLiveness,
        ofBlock config (atLabel function numbers middle) entry.1.instructions =
          .ok (table'.getD entry.2 {}) ∧
        ∀ number, middle.getD number {} = table.getD number {} ∨
          middle.getD number {} = table'.getD number {} := by
  induction work generalizing table with
  | nil =>
    cases h
    exact ⟨fun _ _ => rfl, List.forall_mem_nil _⟩
  | cons entry work ih =>
    obtain ⟨hentry, hwork⟩ := List.forall_mem_cons.mp hwork
    rw [List.map_cons, List.nodup_cons] at hnodup
    rw [List.foldlM_cons, Except.bind_eq_ok] at h
    obtain ⟨table₁, htable₁, h⟩ := h
    obtain ⟨sets, hsets, hupdate⟩ := Except.bind_eq_ok.mp htable₁
    cases hupdate
    obtain ⟨hkept, hmade⟩ := ih (by simpa using hwork) hnodup.2 h
    -- The entry is not touched again by the rest of the round.
    have hself : table'.getD entry.2 {} = sets := by
      rw [hkept _ hnodup.1, getD_setIfInBounds hentry, if_pos rfl]
    refine ⟨fun number hnumber => ?_, List.forall_mem_cons.mpr ⟨⟨table, ?_, fun _ => .inl rfl⟩, ?_⟩⟩
    · rw [List.map_cons, List.mem_cons, not_or] at hnumber
      rw [hkept _ hnumber.2, getD_setIfInBounds hentry, if_neg hnumber.1]
    · rw [hself]
      exact hsets
    · intro entry' hentry'
      obtain ⟨middle, hmiddle, hold⟩ := hmade entry' hentry'
      refine ⟨middle, hmiddle, fun number => ?_⟩
      rcases hold number with hnumber | hnumber
      · rw [getD_setIfInBounds hentry] at hnumber
        split at hnumber
        · rename_i heq
          exact .inr (by rw [hnumber, heq, hself])
        · exact .inl hnumber
      · exact .inr hnumber

/-- Stable tables have the same starts. -/
theorem isStable_iff (hsize : next.size = table.size) :
    isStable table next = true ↔ SameStarts table next := by
  have hstarts : ∀ (table : Array BlockLiveness) (number : Nat),
      (table.toList.map (·.liveBefore.toList))[number]?.getD [] =
        (table.getD number {}).liveBefore.toList := by
    intro table number
    rw [List.getElem?_map, Array.getElem?_toList, Array.getD_eq_getD_getElem?]
    cases table[number]? with
    | none => simp
    | some sets => rfl
  rw [isStable, beq_iff_eq]
  constructor
  · intro h number
    rw [← Std.ExtTreeSet.toList_inj, ← hstarts table, ← hstarts next, h]
  · intro h
    refine List.ext_getElem (by simp [hsize]) fun number hlt hlt' => ?_
    have hnumber := (hstarts table number).trans ((congrArg _ (h number)).trans
      (hstarts next number).symm)
    rwa [List.getElem?_eq_getElem hlt, List.getElem?_eq_getElem hlt'] at hnumber

/-- A round that changes nothing at the starts of the blocks has solved the equations. -/
theorem isSolution_of_isStable (htable : IsTable config function table)
    (h : round config function table = .ok next) (hstable : SameStarts table next) :
    IsSolution config function next := by
  intro block number hblock
  have hwork : ∀ entry ∈ function.blocks.zipIdx.reverse, entry.2 < table.size := by
    intro entry hentry
    have hblock := List.mem_zipIdx_iff_getElem?.mp (List.mem_reverse.mp hentry)
    exact htable.size ▸ (List.getElem?_eq_some_iff.mp hblock).1
  have hnodup : (function.blocks.zipIdx.reverse.map Prod.snd).Nodup := by
    rw [List.map_reverse, List.zipIdx_map_snd]
    exact List.nodup_reverse.mpr (List.nodup_range' 1)
  obtain ⟨-, hmade⟩ := exists_ofBlock_of_foldlM_update hwork hnodup h
  obtain ⟨middle, hmiddle, hold⟩ := hmade (block, number)
    (List.mem_reverse.mpr (List.mem_zipIdx_iff_getElem?.mpr hblock))
  have hsame : SameStarts middle next := by
    intro number
    rcases hold number with hnumber | hnumber
    · rw [hnumber, hstable]
    · rw [hnumber]
  rw [← atLabel_congr hsame]
  exact hmiddle

/-! ## The number of rounds -/

/-- Whether a table has a location at the start of a block. -/
def hasAt (table : Array BlockLiveness) (entry : Nat × Location) : Bool :=
  (table.getD entry.1 {}).liveBefore.contains entry.2

/-- Whether a location is live at a start. -/
theorem hasAt_iff {entry : Nat × Location} :
    hasAt table entry = true ↔ entry.2 ∈ (table.getD entry.1 {}).liveBefore :=
  Std.ExtTreeSet.contains_iff_mem

/-- What a table can have: each read of the function at the start of each block. -/
def entries (config : Config) (function : X86.Function) : List (Nat × Location) :=
  List.range function.blocks.length ×ˢ function.instructions.flatMap (·.reads config)

/-- How much of that a table has. -/
def weight (config : Config) (function : X86.Function) (table : Array BlockLiveness) : Nat :=
  (entries config function).countP (hasAt table)

/-- There are enough rounds. -/
theorem weight_lt_roundLimit (config : Config) (function : X86.Function)
    (table : Array BlockLiveness) :
    weight config function table < roundLimit config function := by
  have hlength : (entries config function).length + 1 = roundLimit config function := by
    rw [entries, List.length_product, List.length_range, roundLimit]
  rw [← hlength]
  exact Nat.lt_succ_of_le List.countP_le_length

/-- A table that has more, has more of the reads. -/
theorem weight_lt (hnext : IsTable config function next) (hbelow : Below table next)
    (hchanged : ¬SameStarts table next) :
    weight config function table < weight config function next := by
  have hnew : ∃ number location, location ∈ (next.getD number {}).liveBefore ∧
      location ∉ (table.getD number {}).liveBefore := by
    by_contra hnone
    push Not at hnone
    exact hchanged fun number => Std.ExtTreeSet.ext_mem fun location =>
      ⟨hbelow number location, hnone number location⟩
  obtain ⟨number, location, hmem, hnotMem⟩ := hnew
  have hlt : number < function.blocks.length := by
    rw [← hnext.size]
    by_contra hge
    rw [Array.getD_eq_getD_getElem?, Array.getElem?_eq_none (Nat.le_of_not_lt hge)] at hmem
    exact Std.ExtTreeSet.not_mem_empty hmem
  obtain ⟨instruction, hinstruction, hread⟩ := (hnext.within number).before location hmem
  have hentry : (number, location) ∈ entries config function :=
    List.mem_product.mpr
      ⟨List.mem_range.mpr hlt, List.mem_flatMap.mpr ⟨instruction, hinstruction, hread⟩⟩
  have hsublist := List.monotone_filter_right (entries config function)
    (p := hasAt table) (q := hasAt next) fun entry hhas =>
      hasAt_iff.mpr (hbelow _ _ (hasAt_iff.mp hhas))
  rw [weight, weight, List.countP_eq_length_filter, List.countP_eq_length_filter]
  refine Nat.lt_of_le_of_ne hsublist.length_le fun hlength => hnotMem ?_
  have hfilter := List.mem_filter.mpr ⟨hentry, hasAt_iff.mpr hmem⟩
  rw [← hsublist.eq_of_length hlength, List.mem_filter] at hfilter
  exact hasAt_iff.mp hfilter.2

/-! ## Repeated rounds -/

/-- How repeating rounds from a table ends when there is no limit on their number: with the error of
a round, or with the first round that changes nothing at the starts of the blocks. -/
inductive Repeats (config : Config) (function : X86.Function) :
    (rounds : Nat) → Array BlockLiveness → Except CompileError Liveness → Prop
  | fails {rounds : Nat} {table : Array BlockLiveness} {error : CompileError}
      (hround : round config function table = .error error) :
      Repeats config function rounds table (.error error)
  | settles {rounds : Nat} {table next : Array BlockLiveness}
      (hround : round config function table = .ok next) (hstable : isStable table next = true) :
      Repeats config function rounds table (.ok ⟨next.toList, rounds + 1⟩)
  | again {rounds : Nat} {table next : Array BlockLiveness} {result : Except CompileError Liveness}
      (hround : round config function table = .ok next) (hchanged : ¬isStable table next = true)
      (hrest : Repeats config function (rounds + 1) next result) :
      Repeats config function rounds table result

/-- The limit on the number of rounds is never what ends them. -/
theorem IsTable.repeats_solve (htable : IsTable config function table)
    (hgrows : ∀ next, Liveness.round config function table = .ok next → Below table next)
    {limit : Nat} (hlimit : roundLimit config function ≤ limit + weight config function table) :
    Repeats config function rounds table (Liveness.solve config function limit rounds table) := by
  induction limit generalizing table rounds with
  | zero =>
    have hweight := weight_lt_roundLimit config function table
    omega
  | succ limit ih =>
    rw [Liveness.solve]
    cases hround : Liveness.round config function table with
    | error error => exact .fails hround
    | ok next =>
      have hnext := (htable.round hround).1
      have hbelow := hgrows next hround
      change Repeats _ _ _ _ (if isStable table next = true then _ else _)
      split
      · next hstable => exact .settles hround hstable
      · next hchanged =>
        have hsame := isStable_iff (hnext.size.trans htable.size.symm)
        have hweight := weight_lt hnext hbelow (mt hsame.mpr hchanged)
        refine .again hround hchanged (ih hnext (fun next' hround' => ?_) (by omega))
        exact round_mono htable hnext hbelow hround hround'

/-- What rounds keep holds of the tables around the last round. -/
theorem Repeats.exists_last {p : Array BlockLiveness → Prop}
    (hp : ∀ table next, p table → Liveness.round config function table = .ok next → p next)
    {result : Except CompileError Liveness} (h : Repeats config function rounds table result)
    (htable : p table) {liveness : Liveness} (hresult : result = .ok liveness) :
    ∃ last next, p last ∧ Liveness.round config function last = .ok next ∧
      isStable last next = true ∧ liveness.blocks = next.toList := by
  induction h with
  | fails => cases hresult
  | @settles _ table next hround hstable =>
    cases hresult
    exact ⟨table, next, htable, hround, hstable, rfl⟩
  | again hround _ _ ih => exact ih (hp _ _ htable hround) hresult

end Liveness

/-- The live sets of a function are what repeating rounds ends with. -/
theorem X86.Function.repeats_liveness (config : Config) (function : X86.Function) :
    Liveness.Repeats config function 0 (.replicate function.blocks.length {})
      (function.liveness config) := by
  refine Liveness.IsTable.replicate.repeats_solve (fun next _ number location hmem => ?_)
    (Nat.le_add_right _ _)
  rw [Array.getD_eq_getD_getElem?, Array.getElem?_replicate] at hmem
  split at hmem
  · exact absurd hmem Std.ExtTreeSet.not_mem_empty
  · exact absurd hmem Std.ExtTreeSet.not_mem_empty

/-- The live sets of a function solve the equations of liveness. -/
theorem X86.Function.liveness_equations {config : Config} {function : X86.Function}
    {liveness : Liveness} (h : function.liveness config = .ok liveness) :
    ∃ table : Array BlockLiveness, liveness.blocks = table.toList ∧
      Liveness.IsTable config function table ∧ Liveness.IsSolution config function table := by
  obtain ⟨last, table, hlast, hround, hstable, hblocks⟩ :=
    (repeats_liveness config function).exists_last (p := Liveness.IsTable config function)
      (fun _ _ htable hround => (htable.round hround).1) .replicate h
  have htable := (hlast.round hround).1
  have hsame := (Liveness.isStable_iff (htable.size.trans hlast.size.symm)).mp hstable
  exact ⟨table, hblocks, htable, Liveness.isSolution_of_isStable hlast hround hsame⟩

end TupleLang
