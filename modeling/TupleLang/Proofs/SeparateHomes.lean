import Mathlib.Data.List.Dedup
import TupleLang.Proofs.Addresses
import TupleLang.Proofs.ValidColorings
import TupleLang.Proofs.VariableHomes

/-!
# Separate homes

Locations that interfere get different homes (`Allocation.homeOf_ne`): their colors differ, and
colors determine homes (`Allocation.homeAt`).  So no instruction of a function overwrites the home
of a value that is still needed (`X86.Function.allocate_keeps_live_values`).

Homes in memory are found by words of 64 bits, so no more than `2 ^ 61` slots have different
addresses; a function whose variables are no more than that gets a slot for each of them.
-/

namespace TupleLang

open X86 (Instruction Operand Register Frame)

/-! ## Configurations -/

namespace Config

variable {config : Config}

/-- No register is repeated. -/
theorem nodup_of_firstRepeatedAfter? {seen registers : List Register}
    (h : firstRepeatedAfter? seen registers = none) :
    registers.Nodup ∧ ∀ register ∈ registers, register ∉ seen := by
  induction registers generalizing seen with
  | nil => exact ⟨List.nodup_nil, nofun⟩
  | cons register registers ih =>
    rw [firstRepeatedAfter?] at h
    split at h
    · cases h
    · next hseen =>
      obtain ⟨hnodup, hrest⟩ := ih h
      have hregister : register ∉ registers := fun hmem => hrest register hmem List.mem_cons_self
      refine ⟨List.nodup_cons.mpr ⟨hregister, hnodup⟩, List.forall_mem_cons.mpr ⟨?_, ?_⟩⟩
      · rwa [List.contains_iff_mem] at hseen
      · exact fun other hother => List.not_mem_of_not_mem_cons (hrest other hother)

/-- A valid configuration has different registers in its table, and no reserved ones. -/
theorem allocatable_of_validate (h : config.validate = .ok ()) :
    config.allocatable.Nodup ∧
      ∀ register ∈ config.allocatable, register ∉ reservedRegisters := by
  have hfault : config.fault? = none := by
    rw [validate] at h
    split at h
    · cases h
    · next hfault => exact hfault
  rw [fault?] at hfault
  split at hfault
  · cases hfault
  split at hfault
  · cases hfault
  · next hreserved =>
    split at hfault
    · cases hfault
    split at hfault
    · cases hfault
    split at hfault
    · cases hfault
    · next hrepeated =>
      have hrepeated := Option.eq_none_iff_forall_ne_some.mpr hrepeated
      have hreserved := Option.eq_none_iff_forall_ne_some.mpr hreserved
      refine ⟨(nodup_of_firstRepeatedAfter? hrepeated).1, fun register hregister hmem => ?_⟩
      exact List.find?_eq_none.mp hreserved register hregister (List.contains_iff_mem.mpr hmem)

end Config

/-! ## Slots -/

/-- Slots with different indices are at different distances from their base. -/
theorem Word.offset_inj {i j : Nat} (hi : i < 2 ^ 61) (hj : j < 2 ^ 61) {base : Word}
    (h : -8 * (base + ofCount i + 1) = -8 * (base + ofCount j + 1)) : i = j := by
  have hnth : nth 0 i = nth 0 j := by
    rw [nth, nth]
    grind
  exact nth_inj hi hj hnth

/-- Slots of the stack differ. -/
theorem X86.Frame.stackSlot_inj {saved i j : Nat} (hi : i < 2 ^ 61) (hj : j < 2 ^ 61)
    (h : stackSlot saved i = stackSlot saved j) : i = j :=
  Word.offset_inj hi hj (Operand.deref.inj h).2

/-- Slots of the root stack differ. -/
theorem X86.Frame.rootSlot_inj {i j : Nat} (hi : i < 2 ^ 61) (hj : j < 2 ^ 61)
    (h : rootSlot i = rootSlot j) : i = j := by
  refine Word.offset_inj hi hj (?_ : -8 * (0 + Word.ofCount i + 1) = _)
  rw [Int64.zero_add, Int64.zero_add]
  exact (Operand.deref.inj h).2

/-! ## The home of a color -/

namespace Allocation

variable {config : Config} {graph : InterferenceGraph} {allocation : Allocation} {name : Name}
  {color node : Nat} {roots : Std.ExtTreeSet Name} {entries : List (Name × Nat)}

/-- The home of a variable with the given color, below the given number of saved registers. -/
def homeAt (config : Config) (roots : Std.ExtTreeSet Name) (saved : Nat) (name : Name)
    (color : Nat) : Operand :=
  match config.allocatable[color]? with
  | some register => .register register
  | none =>
    if roots.contains name then Frame.rootSlot (color - config.allocatable.length)
    else Frame.stackSlot saved (color - config.allocatable.length)

/-- A home is a register of the table, a root slot of a root, or a stack slot. -/
theorem homeAt_cases (config : Config) (roots : Std.ExtTreeSet Name) (saved : Nat) (name : Name)
    (color : Nat) :
    (∃ register, config.allocatable[color]? = some register ∧
        homeAt config roots saved name color = .register register) ∨
      config.allocatable.length ≤ color ∧
        ((name ∈ roots ∧ homeAt config roots saved name color =
            Frame.rootSlot (color - config.allocatable.length)) ∨
          (name ∉ roots ∧ homeAt config roots saved name color =
            Frame.stackSlot saved (color - config.allocatable.length))) := by
  rw [homeAt]
  cases hcolor : config.allocatable[color]? with
  | some register => exact .inl ⟨register, rfl, rfl⟩
  | none =>
    refine .inr ⟨List.getElem?_eq_none_iff.mp hcolor, ?_⟩
    dsimp only
    split
    · next hroot => exact .inl ⟨hroot, rfl⟩
    · next hroot => exact .inr ⟨hroot, rfl⟩

/-- What adding a home changes. -/
theorem addHome_spec (config : Config) (roots : Std.ExtTreeSet Name) (allocation : Allocation)
    (name : Name) (color : Nat) :
    (allocation.addHome config roots (name, color)).homes = allocation.homes.insert name
        (homeAt config roots allocation.frame.calleeSaved.length name color) ∧
      (allocation.addHome config roots (name, color)).frame.calleeSaved =
        allocation.frame.calleeSaved ∧
      (allocation.addHome config roots (name, color)).frame.rootSlots =
        max allocation.frame.rootSlots
          (if config.allocatable.length ≤ color ∧ name ∈ roots
            then color - config.allocatable.length + 1 else 0) := by
  rw [addHome, homeAt]
  cases hcolor : config.allocatable[color]? with
  | some register =>
    have hlt : color < config.allocatable.length := (List.getElem?_eq_some_iff.mp hcolor).1
    have hnot : ¬ (config.allocatable.length ≤ color ∧ name ∈ roots) := fun h =>
      absurd h.1 (Nat.not_le.mpr hlt)
    rw [if_neg hnot, Nat.max_zero]
    exact ⟨rfl, rfl, rfl⟩
  | none =>
    have hle : config.allocatable.length ≤ color := List.getElem?_eq_none_iff.mp hcolor
    dsimp only
    split
    · next hroot => exact ⟨rfl, rfl, by rw [if_pos ⟨hle, hroot⟩]⟩
    · next hroot => exact ⟨rfl, rfl, by rw [if_neg fun h => hroot h.2, Nat.max_zero]⟩

/-- Homes do not change the saved registers. -/
theorem calleeSaved_foldl_addHome (config : Config) (roots : Std.ExtTreeSet Name)
    (entries : List (Name × Nat)) (allocation : Allocation) :
    (entries.foldl (addHome config roots) allocation).frame.calleeSaved =
      allocation.frame.calleeSaved := by
  induction entries generalizing allocation with
  | nil => rfl
  | cons entry entries ih =>
    rw [List.foldl_cons, ih, (addHome_spec config roots allocation entry.1 entry.2).2.1]

/-- A variable with one color gets the home of that color. -/
theorem getElem?_homes_foldl_addHome (hcolor : ∀ entry ∈ entries, entry.1 = name → entry.2 = color)
    (h : name ∈ entries.map Prod.fst ∨ allocation.homes[name]? =
      some (homeAt config roots allocation.frame.calleeSaved.length name color)) :
    (entries.foldl (addHome config roots) allocation).homes[name]? =
      some (homeAt config roots allocation.frame.calleeSaved.length name color) := by
  induction entries generalizing allocation with
  | nil => exact h.resolve_left List.not_mem_nil
  | cons entry entries ih =>
    obtain ⟨hentry, hcolor⟩ := List.forall_mem_cons.mp hcolor
    obtain ⟨hhomes, hsaved, -⟩ := addHome_spec config roots allocation entry.1 entry.2
    rw [List.foldl_cons, ← hsaved]
    refine ih hcolor ?_
    rw [hhomes, hsaved, Std.ExtTreeMap.getElem?_insert]
    split
    · next heq =>
      cases Std.LawfulEqCmp.compare_eq_iff_eq.mp heq
      rw [hentry rfl]
      exact .inr rfl
    · next hne =>
      refine h.imp_left fun hmem => (List.mem_cons.mp hmem).resolve_left ?_
      rintro rfl
      exact hne (Std.LawfulEqCmp.compare_eq_iff_eq.mpr rfl)

/-- The frame has all root slots that are homes. -/
theorem lt_rootSlots_foldl_addHome {slot : Nat}
    (h : slot < allocation.frame.rootSlots ∨ ∃ entry ∈ entries,
      config.allocatable.length ≤ entry.2 ∧ entry.1 ∈ roots ∧
        entry.2 - config.allocatable.length = slot) :
    slot < (entries.foldl (addHome config roots) allocation).frame.rootSlots := by
  induction entries generalizing allocation with
  | nil => exact h.resolve_right fun ⟨_, hmem, _⟩ => List.not_mem_nil hmem
  | cons entry entries ih =>
    refine ih ?_
    rw [(addHome_spec config roots allocation entry.1 entry.2).2.2]
    obtain hlt | ⟨other, hmem, hle, hroot, rfl⟩ := h
    · exact .inl (Nat.lt_of_lt_of_le hlt (Nat.le_max_left ..))
    · obtain rfl | hmem := List.mem_cons.mp hmem
      · rw [if_pos ⟨hle, hroot⟩]
        exact .inl (Nat.lt_of_lt_of_le (Nat.lt_succ_self _) (Nat.le_max_right ..))
      · exact .inr ⟨other, hmem, hle, hroot, rfl⟩

/-! ## The homes of a graph -/

/-- The home of a variable of the graph is the home of its color. -/
theorem getElem?_homes_ofGraph (hwf : graph.WellFormed) (config : Config)
    (hnode : graph.find? (.var name) = some node) :
    (ofGraph config graph).homes[name]? =
      some (homeAt config graph.roots (ofGraph config graph).frame.calleeSaved.length name
        ((graph.color config).getD node 0)) := by
  have hmem : (name, (graph.color config).getD node 0) ∈
      coloredVariables graph (graph.color config) :=
    (mem_coloredVariables hwf).mpr ⟨node, hnode, rfl⟩
  rw [ofGraph, ofColoring, calleeSaved_foldl_addHome]
  refine getElem?_homes_foldl_addHome (fun entry hentry hname => ?_)
    (.inl (List.mem_map_of_mem hmem))
  obtain ⟨node', hnode', hcolor⟩ := (mem_coloredVariables hwf).mp hentry
  rw [hname, hnode] at hnode'
  cases hnode'
  exact hcolor.symm

/-- The home of a location; that of a register is the register itself. -/
def homeOf (allocation : Allocation) : Location → Operand
  | .var name => allocation.place (.var name)
  | .register register => .register register

/-- The home of a variable is that of its color. -/
theorem homeOf_var (hwf : graph.WellFormed) (config : Config)
    (hnode : graph.find? (.var name) = some node) :
    (ofGraph config graph).homeOf (.var name) =
      homeAt config graph.roots (ofGraph config graph).frame.calleeSaved.length name
        ((graph.color config).getD node 0) := by
  rw [homeOf, place, Std.ExtTreeMap.getD_eq_getD_getElem?, getElem?_homes_ofGraph hwf config hnode]
  rfl

/-- Homes of different colors are different, as long as there are enough addresses. -/
theorem homeAt_ne (hnodup : config.allocatable.Nodup) (roots : Std.ExtTreeSet Name) (saved : Nat)
    {name' : Name} {color' : Nat} (hne : color ≠ color')
    (hcolor : color < config.allocatable.length + 2 ^ 61)
    (hcolor' : color' < config.allocatable.length + 2 ^ 61) :
    homeAt config roots saved name color ≠ homeAt config roots saved name' color' := by
  obtain ⟨register, hregister, hhome⟩ | ⟨hle, ⟨-, hhome⟩ | ⟨-, hhome⟩⟩ :=
    homeAt_cases config roots saved name color <;>
  obtain ⟨register', hregister', hhome'⟩ | ⟨hle', ⟨-, hhome'⟩ | ⟨-, hhome'⟩⟩ :=
    homeAt_cases config roots saved name' color' <;>
  rw [hhome, hhome']
  case inl.inl =>
    intro heq
    cases heq
    obtain ⟨_, hget⟩ := List.getElem?_eq_some_iff.mp hregister
    obtain ⟨_, hget'⟩ := List.getElem?_eq_some_iff.mp hregister'
    exact hne (hnodup.getElem_inj_iff.mp (hget.trans hget'.symm))
  case inr.inl.inr.inl =>
    intro heq
    have := Frame.rootSlot_inj (by omega) (by omega) heq
    omega
  case inr.inr.inr.inr =>
    intro heq
    have := Frame.stackSlot_inj (by omega) (by omega) heq
    omega
  all_goals exact nofun

/-- Colors are below the number of locations. -/
theorem color_lt_size (hwf : graph.WellFormed) (config : Config)
    (hnode : graph.find? (.var name) = some node) :
    (graph.color config).getD node 0 < graph.size := by
  have hlt : node < graph.size := hwf.nodes.lt_size hnode
  refine Nat.lt_of_le_of_lt (hwf.color_le hlt ?_) (hwf.size_neighbors_lt hlt)
  rw [Coloring.ownColor?, InterferenceGraph.location?, (hwf.nodes _ _).mp hnode]

/-- The color of a register of the table is not the color of a variable that interferes with it, so
the variable lives elsewhere. -/
theorem homeAt_ne_register (hwf : graph.WellFormed) (hnodup : config.allocatable.Nodup)
    (roots : Std.ExtTreeSet Name) (saved : Nat) {register : Register} {node' : Nat}
    (hregister : graph.find? (.register register) = some node')
    (h : (graph.color config).getD node' 0 ≠ color) :
    homeAt config roots saved name color ≠ .register register := by
  obtain ⟨register', hregister', hhome⟩ | ⟨hle, ⟨-, hhome⟩ | ⟨-, hhome⟩⟩ :=
    homeAt_cases config roots saved name color <;> rw [hhome]
  · intro heq
    cases heq
    obtain ⟨hlt, hget⟩ := List.getElem?_eq_some_iff.mp hregister'
    refine h (hwf.color_register hregister (List.idxOf?_eq_some_iff.mpr ⟨hlt, hget, ?_⟩))
    intro j hj hget'
    exact absurd ((hnodup.getElem_inj_iff).mp (hget'.trans hget.symm)) (Nat.ne_of_lt hj)
  · exact nofun
  · exact nofun

/-- Locations that interfere have different homes. -/
theorem homeOf_ne (hwf : graph.WellFormed) (hnodup : config.allocatable.Nodup)
    (hsize : graph.size ≤ config.allocatable.length + 2 ^ 61) {a b : Location}
    (h : graph.Interferes a b) :
    (ofGraph config graph).homeOf a ≠ (ofGraph config graph).homeOf b := by
  obtain ⟨i, j, hi, hj, hmem⟩ := h
  have hcolor := hwf.color_ne config hmem
  cases a with
  | register register =>
    cases b with
    | register register' =>
      intro heq
      cases heq
      cases hi.symm.trans hj
      exact hwf.irrefl i hmem
    | var name =>
      rw [homeOf_var hwf config hj]
      exact (homeAt_ne_register hwf hnodup _ _ hi hcolor).symm
  | var name =>
    rw [homeOf_var hwf config hi]
    cases b with
    | register register => exact homeAt_ne_register hwf hnodup _ _ hj hcolor.symm
    | var name' =>
      rw [homeOf_var hwf config hj]
      exact homeAt_ne hnodup _ _ hcolor
        (Nat.lt_of_lt_of_le (color_lt_size hwf config hi) hsize)
        (Nat.lt_of_lt_of_le (color_lt_size hwf config hj) hsize)

end Allocation

/-! ## Allocated functions -/

/-- Whether the instruction calls a function. -/
def X86.Instruction.isCall : Instruction → Bool
  | .callq _ _ | .callIndirect _ _ => true
  | _ => false

namespace X86.Function

variable {config : Config} {function : X86.Function} {liveness : Liveness}
  {instruction : Instruction}

/-- The variables that a function mentions, each once. -/
def mentionedVariables (function : X86.Function) : List Location :=
  (function.instructions.flatMap InterferenceGraph.operandVariables).dedup

/-- The graph of a function has its variables and the registers of the table. -/
theorem size_interference_le (h : function.liveness config = .ok liveness) :
    (function.interference config liveness).size ≤
      config.allocatable.length + function.mentionedVariables.length := by
  have hwf := wellFormed_interference config function liveness
  rw [← List.length_map Location.register, ← List.length_append]
  refine hwf.size_le fun location hlocation => ?_
  rw [has_interference h, InterferenceGraph.locations, List.mem_append] at hlocation
  exact List.mem_append.mpr (hlocation.imp_right List.mem_dedup.mpr)

/-- A variable with a home is a variable of the graph, and its home is that of its color. -/
theorem exists_homeAt {name : Name} {home : Operand}
    (h : (function.allocation config liveness).homes[name]? = some home) :
    ∃ node, (function.interference config liveness).find? (.var name) = some node ∧
      home = Allocation.homeAt config (function.interference config liveness).roots
        (function.allocation config liveness).frame.calleeSaved.length name
        (((function.interference config liveness).color config).getD node 0) := by
  have hwf := wellFormed_interference config function liveness
  have hmem : name ∈ (function.allocation config liveness).homes :=
    Std.ExtTreeMap.mem_iff_isSome_getElem?.mpr (Option.isSome_iff_exists.mpr ⟨home, h⟩)
  obtain ⟨node, hnode⟩ := (Allocation.mem_homes_ofGraph hwf).mp hmem
  rw [allocation, Allocation.getElem?_homes_ofGraph hwf config hnode] at h
  exact ⟨node, hnode, (Option.some_inj.mp h).symm⟩

/-- The homes of a function are no variables. -/
theorem place_ne_var (h : function.liveness config = .ok liveness)
    (hinstruction : instruction ∈ function.instructions) {operand : Operand}
    (hoperand : operand ∈ instruction.operands) (name : Name) :
    (function.allocation config liveness).place operand ≠ .var name := by
  cases operand with
  | var other =>
    obtain ⟨home, hhome⟩ := Option.isSome_iff_exists.mp (Std.ExtTreeMap.mem_iff_isSome_getElem?.mp
      (mem_homes_interference h hinstruction hoperand))
    have hplace : (function.allocation config liveness).place (.var other) = home := by
      rw [Allocation.place, Std.ExtTreeMap.getD_eq_getD_getElem?, hhome]
      rfl
    obtain ⟨node, -, hhome⟩ := exists_homeAt hhome
    rw [hplace, hhome]
    obtain ⟨register, -, hhome⟩ | ⟨-, ⟨-, hhome⟩ | ⟨-, hhome⟩⟩ :=
      Allocation.homeAt_cases config _ _ other _ <;> rw [hhome]
    · exact nofun
    · exact nofun
    · exact nofun
  | _ => exact nofun

/-- The homes of a function are not in reserved registers. -/
theorem not_reserved_of_homes (hconfig : config.validate = .ok ()) {name : Name}
    {register : Register}
    (h : (function.allocation config liveness).homes[name]? = some (.register register)) :
    register ∉ Config.reservedRegisters := by
  obtain ⟨node, -, hhome⟩ := exists_homeAt h
  obtain ⟨register', hregister, hhome'⟩ | ⟨-, ⟨-, hhome'⟩ | ⟨-, hhome'⟩⟩ :=
    Allocation.homeAt_cases config _ _ name _ <;> rw [hhome'] at hhome
  · cases hhome
    exact (Config.allocatable_of_validate hconfig).2 register (List.mem_of_getElem? hregister)
  · exact absurd hhome nofun
  · exact absurd hhome nofun

/-- What an instruction writes interferes with what is live after it, unless it copies it. -/
theorem interferes_of_mem_rows {live : LiveSet}
    (hrow : (instruction, live) ∈ liveness.rows function) {written location : Location}
    (hwritten : written ∈ instruction.writes config) (hlive : location ∈ live)
    (hne : location ≠ written) (hcopied : instruction.movedFrom? config ≠ some location) :
    (function.interference config liveness).Interferes written location := by
  refine InterferenceGraph.interferes_ofRows.mpr ⟨hne.symm, .inl (List.mem_append_left _ ?_)⟩
  refine List.mem_flatMap.mpr ⟨(instruction, live.toList), List.mem_map_of_mem hrow, ?_⟩
  exact InterferenceGraph.mem_edges.mpr ⟨hwritten, Std.ExtTreeSet.mem_toList.mpr hlive, hcopied⟩

/-- Calls write all registers of the table that a call may change. -/
theorem mem_writes_of_isCall {register : Register} (h : register ∈ config.callerSaved)
    (hcall : instruction.isCall = true) : .register register ∈ instruction.writes config := by
  have hlocation : Location.ofRegister? config register = some (.register register) := by
    rw [Location.ofRegister?, Config.isCallerSaved, List.contains_iff_mem.mpr h]
    rfl
  cases instruction with
  | callq label arguments | callIndirect target arguments =>
    exact List.mem_filterMap.mpr ⟨register, h, hlocation⟩
  | _ => cases hcall

/-- The variables of a function get homes, none of them in a reserved register, and no instruction
overwrites the home of a location that is live after it, apart from the one it copies.  This holds
of every function whose variables can be told apart by addresses of 64 bits. -/
theorem allocate_keeps_live_values (hconfig : config.validate = .ok ())
    (hliveness : function.liveness config = .ok liveness)
    (hvariables : function.mentionedVariables.length ≤ 2 ^ 61) :
    ∃ allocated, function.allocate (function.allocation config liveness) = .ok allocated ∧
      allocated.instructions = function.instructions.map
        (·.mapOperands (function.allocation config liveness).place) ∧
      (∀ instruction ∈ allocated.instructions, ∀ name, Operand.var name ∉ instruction.operands) ∧
      (∀ (name : Name) (register : Register),
        (function.allocation config liveness).homes[name]? = some (.register register) →
          register ∉ Config.reservedRegisters) ∧
      (liveness.rows function).map Prod.fst = function.instructions ∧
      ∀ instruction live, (instruction, live) ∈ liveness.rows function →
        (instruction.isCall = true → ∀ register ∈ config.callerSaved,
          .register register ∈ instruction.writes config) ∧
        ∀ written ∈ instruction.writes config, ∀ location ∈ live, location ≠ written →
          instruction.movedFrom? config ≠ some location →
          (function.allocation config liveness).homeOf written ≠
            (function.allocation config liveness).homeOf location := by
  obtain ⟨allocated, hallocated, hinstructions⟩ := exists_allocate hliveness
  refine ⟨allocated, hallocated, hinstructions, ?_, ?_, map_fst_rows hliveness, ?_⟩
  · rw [hinstructions]
    intro instruction hinstruction name hname
    obtain ⟨source, hsource, rfl⟩ := List.mem_map.mp hinstruction
    rw [Instruction.operands_mapOperands, List.mem_map] at hname
    obtain ⟨operand, hoperand, hplace⟩ := hname
    exact place_ne_var hliveness hsource hoperand name hplace
  · exact fun name register => not_reserved_of_homes hconfig
  · intro instruction live hrow
    refine ⟨fun hcall register hregister => mem_writes_of_isCall hregister hcall, ?_⟩
    intro written hwritten location hlive hne hcopied
    exact Allocation.homeOf_ne (wellFormed_interference config function liveness)
      (Config.allocatable_of_validate hconfig).1
      (Nat.le_trans (size_interference_le hliveness) (Nat.add_le_add_left hvariables _))
      (interferes_of_mem_rows hrow hwritten hlive hne hcopied)

/-- A function with two variables that are needed at the same time, one of them also after a
call. -/
def sumAcrossCall : X86.Function where
  name := "sum"
  blocks := [⟨"sum.start", [
    .movq (.immediate 1) (.var "x"),
    .movq (.immediate 2) (.var "y"),
    .movq (.var "y") (.register .rdi),
    .callq "print_int" [.rdi],
    .addq (.var "x") (.var "y"),
    .movq (.var "y") (.register .rax),
    .jump "sum.conclusion"]⟩]

/-- Both variables of `sumAcrossCall` get homes of their own, and `x` has one that the call
keeps. -/
theorem allocate_keeps_live_values_sumAcrossCall :
    ∃ liveness, sumAcrossCall.liveness {} = .ok liveness ∧
      (∃ allocated, sumAcrossCall.allocate (sumAcrossCall.allocation {} liveness) = .ok allocated ∧
        ∀ instruction ∈ allocated.instructions, ∀ name,
          Operand.var name ∉ instruction.operands) ∧
      (sumAcrossCall.allocation {} liveness).homeOf (.var "y") ≠
        (sumAcrossCall.allocation {} liveness).homeOf (.var "x") ∧
      ∀ register ∈ Config.callerSaved {}, (sumAcrossCall.allocation {} liveness).homeOf (.var "x") ≠
        .register register := by
  have hrows : ((sumAcrossCall.liveness {}).toOption.any fun liveness =>
      ((liveness.rows sumAcrossCall).any fun row =>
        row.1 == .movq (.immediate 2) (.var "y") && row.2.contains (.var "x")) &&
      (liveness.rows sumAcrossCall).any fun row =>
        row.1 == .callq "print_int" [.rdi] && row.2.contains (.var "x")) = true := by
    decide +kernel
  obtain ⟨liveness, hliveness, hrows⟩ := Except.exists_ok_of_any hrows
  obtain ⟨allocated, hallocated, -, hoperands, -, -, hhomes⟩ :=
    allocate_keeps_live_values (rfl : Config.validate {} = .ok ()) hliveness (by decide)
  obtain ⟨hmove, hcall⟩ := Bool.and_eq_true_iff.mp hrows
  obtain ⟨⟨move, live⟩, hmem, hrow⟩ := List.any_eq_true.mp hmove
  obtain ⟨⟨call, live'⟩, hmem', hrow'⟩ := List.any_eq_true.mp hcall
  rw [Bool.and_eq_true_iff, beq_iff_eq] at hrow hrow'
  obtain ⟨rfl, hlive⟩ := hrow
  obtain ⟨rfl, hlive'⟩ := hrow'
  refine ⟨liveness, hliveness, ⟨allocated, hallocated, hoperands⟩, ?_,
    fun register hregister => ?_⟩
  · exact (hhomes _ live hmem).2 _ List.mem_cons_self _ hlive (by decide) nofun
  · refine ((hhomes _ live' hmem').2 (.register register) ?_ _ hlive' nofun nofun).symm
    exact (hhomes _ live' hmem').1 rfl register hregister

end X86.Function

end TupleLang
