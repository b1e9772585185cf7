import TupleLang.Proofs.Compilation
import TupleLang.Proofs.SeparateHomes

/-!
# Orders of enumeration

Live sets and roots are sets, while the interference graph is built by going through their members
one after the other.  The order makes no difference (`X86.Function.allocation_of_enumeration`): the
graph is the same for all orders (`InterferenceGraph.SameRows.ofOrder_eq`), hence so are its
coloring, the homes of the variables and the code.

The reason is that all locations of a function are numbered before the first edge is drawn, the
registers of the table first and then the variables in the order of their first occurrence
(`InterferenceGraph.toList_numbered`).  Edges never add a location, and a graph with fixed numbers
is determined by which locations interfere (`InterferenceGraph.WellFormed.ext`).
-/

namespace TupleLang

open X86 (Instruction)

namespace Table

variable {α : Type} {table table' : Table α}

/-- Tables are given by their entries. -/
theorem ext_get? (h : ∀ number, table.get? number = table'.get? number) : table = table' := by
  cases table
  cases table'
  exact congrArg mk (Array.ext_getElem? h)

/-- Tables of the same size are equal if they have the same entries. -/
theorem ext_getD {default : α} (hsize : table.size = table'.size)
    (h : ∀ number, table.getD number default = table'.getD number default) : table = table' := by
  refine ext_get? fun number => ?_
  have hnumber := h number
  rw [getD_eq, getD_eq] at hnumber
  by_cases hlt : number < table.size
  · obtain ⟨entry, hentry⟩ : ∃ entry, table.get? number = some entry :=
      ⟨_, Array.getElem?_eq_getElem hlt⟩
    obtain ⟨entry', hentry'⟩ : ∃ entry', table'.get? number = some entry' :=
      ⟨_, Array.getElem?_eq_getElem (Nat.lt_of_lt_of_eq hlt hsize)⟩
    rw [hentry, hentry'] at hnumber ⊢
    exact congrArg some hnumber
  · rw [get?, get?, Array.getElem?_eq_none (Nat.le_of_not_lt hlt),
      Array.getElem?_eq_none (Nat.le_trans (Nat.le_of_eq hsize.symm) (Nat.le_of_not_lt hlt))]

end Table

/-! ## Numbers -/

namespace InterferenceGraph

variable {config : Config} {types : Std.ExtTreeMap Name Ty} {graph graph' : InterferenceGraph}

/-- A location that is not there yet comes after all others. -/
theorem toList_addNode {location : Location} (h : graph.find? location = none) :
    (graph.addNode location).nodes.items.toList = graph.nodes.items.toList ++ [location] := by
  change graph.nodes.find? location = none at h
  rw [nodes_addNode, Numbering.insert, h]
  exact Array.toList_push

/-- New locations come after all others, in the order of their first occurrence. -/
theorem toList_foldl_addNode (graph : InterferenceGraph) (locations : List Location) :
    (locations.foldl addNode graph).nodes.items.toList =
      graph.nodes.items.toList ++
        (locations.filter fun location => (graph.find? location).isNone).eraseDups := by
  induction locations generalizing graph with
  | nil => simp
  | cons first locations ih =>
    rw [List.foldl_cons, ih]
    cases hfirst : graph.find? first with
    | some number =>
      rw [addNode_of_has ⟨number, hfirst⟩, List.filter_cons_of_neg (by simp [hfirst])]
    | none =>
      have hnew (location : Location) : ((graph.addNode first).find? location).isNone =
          (!location == first && (graph.find? location).isNone) := by
        by_cases heq : first = location
        · subst heq
          simp [find?_addNode_self]
        · simp [find?_addNode_of_ne heq, Ne.symm heq]
      rw [List.filter_cons_of_pos (by simp [hfirst]), List.eraseDups_cons, List.filter_filter,
        toList_addNode hfirst, List.append_assoc, List.singleton_append]
      simp only [hnew]

/-- Nothing is dropped where nothing repeats. -/
theorem eraseDups_of_nodup {locations : List Location} (h : locations.Nodup) :
    locations.eraseDups = locations := by
  induction locations with
  | nil => rfl
  | cons first locations ih =>
    obtain ⟨hfirst, hnodup⟩ := List.nodup_cons.mp h
    have hothers : locations.filter (fun location => !location == first) = locations :=
      List.filter_eq_self.mpr fun location hlocation => by
        simpa using ne_of_mem_of_not_mem hlocation hfirst
    rw [List.eraseDups_cons, hothers, ih hnodup]

/-- The registers of the table come first, and then the variables in the order of their first
occurrence among the operands. -/
theorem toList_numbered (hnodup : config.allocatable.Nodup) (instructions : List Instruction) :
    (numbered config instructions).nodes.items.toList =
      config.allocatable.map .register ++ (instructions.flatMap operandVariables).eraseDups := by
  have hempty (location : Location) : find? {} location = none :=
    Std.ExtTreeMap.getElem?_empty
  have hregisters : (config.allocatable.map Location.register).Nodup :=
    hnodup.map fun _ _ heq => Location.register.inj heq
  have hvariables : (instructions.flatMap operandVariables).removeAll
      (config.allocatable.map Location.register) = instructions.flatMap operandVariables := by
    refine List.filter_eq_self.mpr fun location hlocation => ?_
    obtain ⟨instruction, -, hmem⟩ := List.mem_flatMap.mp hlocation
    obtain ⟨operand, -, hoperand⟩ := List.mem_filterMap.mp hmem
    cases operand with
    | var name =>
      cases hoperand
      simp
    | _ => cases hoperand
  rw [numbered, toList_foldl_addNode]
  simp only [hempty, Option.isNone_none, List.filter_true, List.eraseDups_append,
    eraseDups_of_nodup hregisters, hvariables]
  rfl

/-! ## Edges -/

/-- All numbers below the size are those of locations. -/
theorem WellFormed.exists_find? (h : graph.WellFormed) {number : Nat} (hlt : number < graph.size) :
    ∃ location, graph.find? location = some number := by
  obtain ⟨location, hlocation⟩ : ∃ location, graph.nodes.get? number = some location :=
    ⟨_, Array.getElem?_eq_getElem hlt⟩
  exact ⟨location, (h.nodes location number).mpr hlocation⟩

/-- Neighbors are the numbers of locations that interfere. -/
theorem WellFormed.mem_neighbors_iff (h : graph.WellFormed) {i j : Nat} :
    j ∈ graph.neighbors i ↔
      ∃ a b, graph.find? a = some i ∧ graph.find? b = some j ∧ graph.Interferes a b := by
  constructor
  · intro hmem
    obtain ⟨a, ha⟩ := h.exists_find? (h.lt_size (h.symm hmem))
    obtain ⟨b, hb⟩ := h.exists_find? (h.lt_size hmem)
    exact ⟨a, b, ha, hb, i, j, ha, hb, hmem⟩
  · rintro ⟨a, b, ha, hb, i', j', ha', hb', hmem⟩
    cases ha.symm.trans ha'
    cases hb.symm.trans hb'
    exact hmem

/-- Graphs with the same numbers and roots are equal if the same locations interfere. -/
theorem WellFormed.ext (h : graph.WellFormed) (h' : graph'.WellFormed)
    (hnodes : graph.nodes = graph'.nodes) (hroots : graph.roots = graph'.roots)
    (hedges : ∀ a b, graph.Interferes a b ↔ graph'.Interferes a b) : graph = graph' := by
  have hsize : graph.size = graph'.size := congrArg Numbering.size hnodes
  have hfind (location : Location) : graph.find? location = graph'.find? location :=
    congrArg (Numbering.find? · location) hnodes
  have hneighbors (i : Nat) : graph.neighbors i = graph'.neighbors i := by
    refine Std.ExtTreeSet.ext_mem fun j => ?_
    rw [h.mem_neighbors_iff, h'.mem_neighbors_iff]
    simp only [hfind, hedges]
  have hadjacent : graph.adjacent = graph'.adjacent :=
    Table.ext_getD (h.size_adjacent.trans (hsize.trans h'.size_adjacent.symm)) hneighbors
  cases graph
  cases graph'
  cases hnodes
  cases hroots
  cases hadjacent
  rfl

/-- The order of pairs makes no difference if the graph has all their locations. -/
theorem WellFormed.addPairs_congr (hwf : graph.WellFormed)
    {pairs pairs' : List (Location × Location)}
    (hhas : ∀ pair ∈ pairs, graph.Has pair.1 ∧ graph.Has pair.2)
    (hmem : ∀ pair, pair ∈ pairs ↔ pair ∈ pairs') :
    graph.addPairs pairs = graph.addPairs pairs' := by
  refine (hwf.addPairs pairs).ext (hwf.addPairs pairs') ?_ ?_ fun a b => ?_
  · rw [nodes_addPairs hhas, nodes_addPairs fun pair hpair => hhas pair ((hmem pair).mpr hpair)]
  · rw [roots_addPairs, roots_addPairs]
  · rw [interferes_addPairs hwf, interferes_addPairs hwf, hmem, hmem]

/-- The graph of a sequence of instructions, each with what is live after it, when `enumerate`
tells in which order to go through the roots. -/
def ofOrder (config : Config) (types : Std.ExtTreeMap Name Ty)
    (rows : List (Instruction × List Location)) (enumerate : Std.ExtTreeSet Name → List Name) :
    InterferenceGraph :=
  let graph := rows.foldl (addRow config types) (numbered config (rows.map Prod.fst))
  graph.separateRoots config (enumerate graph.roots)

section OfOrder

variable {rows rows' : List (Instruction × List Location)}
  {enumerate : Std.ExtTreeSet Name → List Name}

/-- The roots of rows, added one after the other. -/
theorem roots_foldl_addRow (config : Config) (types : Std.ExtTreeMap Name Ty)
    (rows : List (Instruction × List Location)) :
    (rows.foldl (addRow config types) (numbered config (rows.map Prod.fst))).roots =
      (rows.flatMap fun row => rootsAt types row.1 row.2).foldl (·.insert ·) ∅ := by
  rw [foldl_addRow, roots_numbered]
  rfl

/-- All pairs are added to the numbered locations, one after the other. -/
theorem ofOrder_eq_addPairs (config : Config) (types : Std.ExtTreeMap Name Ty)
    (rows : List (Instruction × List Location)) (enumerate : Std.ExtTreeSet Name → List Name) :
    ofOrder config types rows enumerate =
      ((numbered config (rows.map Prod.fst)).addPairs
        (rowPairs config rows (enumerate (ofOrder config types rows enumerate).roots))).withRoots
          (ofOrder config types rows enumerate).roots := by
  have hroots : (ofOrder config types rows enumerate).roots =
      (rows.flatMap fun row => rootsAt types row.1 row.2).foldl (·.insert ·) ∅ := by
    rw [ofOrder, separateRoots_eq, roots_addPairs, roots_foldl_addRow]
  rw [hroots, ofOrder, roots_foldl_addRow, separateRoots_eq, foldl_addRow, roots_numbered,
    addPairs_withRoots, rowPairs, addPairs_append]

/-- Two lists of rows have the same instructions, with the same locations live after them. -/
def SameRows (rows rows' : List (Instruction × List Location)) : Prop :=
  List.Forall₂ (fun row row' => row.1 = row'.1 ∧ ∀ location, location ∈ row.2 ↔ location ∈ row'.2)
    rows rows'

/-- The instructions are the same. -/
theorem SameRows.map_fst (h : SameRows rows rows') : rows.map Prod.fst = rows'.map Prod.fst := by
  induction h with
  | nil => rfl
  | cons hrow _ ih => rw [List.map_cons, List.map_cons, hrow.1, ih]

/-- Whether a row has a property that depends on an instruction and on the members of its live set
is the same for both lists. -/
theorem SameRows.exists_iff (h : SameRows rows rows') {p : Instruction → List Location → Prop}
    (hp : ∀ instruction live live', (∀ location, location ∈ live ↔ location ∈ live') →
      (p instruction live ↔ p instruction live')) :
    (∃ row ∈ rows, p row.1 row.2) ↔ ∃ row ∈ rows', p row.1 row.2 := by
  induction h with
  | nil => simp
  | cons hrow _ ih =>
    simp only [List.mem_cons, exists_eq_or_imp]
    rw [ih, hrow.1, hp _ _ _ hrow.2]

/-- The roots are the same. -/
theorem SameRows.exists_mem_rootsAt (h : SameRows rows rows') (name : Name) :
    (∃ row ∈ rows, name ∈ rootsAt types row.1 row.2) ↔
      ∃ row ∈ rows', name ∈ rootsAt types row.1 row.2 := by
  refine h.exists_iff (p := fun instruction live => name ∈ rootsAt types instruction live) ?_
  intro instruction live live' hlive
  rw [mem_rootsAt, mem_rootsAt, hlive]

/-- A root is one of some row. -/
theorem mem_roots_ofOrder {name : Name} : name ∈ (ofOrder config types rows enumerate).roots ↔
    ∃ row ∈ rows, name ∈ rootsAt types row.1 row.2 := by
  rw [ofOrder, separateRoots_eq, roots_addPairs, roots_foldl_addRow, mem_foldl_insert,
    List.mem_flatMap]
  exact ⟨(Or.resolve_left · Std.ExtTreeSet.not_mem_empty), .inr⟩

/-- The pairs are the same. -/
theorem SameRows.mem_rowPairs (h : SameRows rows rows') {roots roots' : List Name}
    (hroots : ∀ name, name ∈ roots ↔ name ∈ roots') (pair : Location × Location) :
    pair ∈ rowPairs config rows roots ↔ pair ∈ rowPairs config rows' roots' := by
  obtain ⟨a, b⟩ := pair
  rw [rowPairs, rowPairs, List.mem_append, List.mem_append, List.mem_flatMap, List.mem_flatMap,
    rootPairs, rootPairs, List.mem_flatMap, List.mem_flatMap]
  refine or_congr ?_ (by simp only [hroots])
  refine h.exists_iff (p := fun instruction live => (a, b) ∈ edges config instruction live) ?_
  intro instruction live live' hlive
  rw [mem_edges, mem_edges, hlive]

/-- No pair that is drawn has a new location. -/
theorem has_of_mem_ofOrder (types : Std.ExtTreeMap Name Ty)
    (hlive : ∀ row ∈ rows, ∀ location ∈ row.2, location ∈ locations config (rows.map Prod.fst))
    (henumerate : ∀ names name, name ∈ enumerate names ↔ name ∈ names) :
    ∀ pair ∈ rowPairs config rows (enumerate (ofOrder config types rows enumerate).roots),
      (numbered config (rows.map Prod.fst)).Has pair.1 ∧
        (numbered config (rows.map Prod.fst)).Has pair.2 :=
  fun _ => has_of_mem_rowPairs hlive
    fun root hroot => mem_roots_ofOrder.mp ((henumerate _ root).mp hroot)

/-- The order in which live sets and roots are gone through makes no difference. -/
theorem SameRows.ofOrder_eq (h : SameRows rows rows')
    (hlive : ∀ row ∈ rows, ∀ location ∈ row.2, location ∈ locations config (rows.map Prod.fst))
    (henumerate : ∀ names name, name ∈ enumerate names ↔ name ∈ names) :
    ofOrder config types rows enumerate = ofRows config types rows' := by
  have hroots : (ofOrder config types rows enumerate).roots =
      (ofOrder config types rows' Std.ExtTreeSet.toList).roots := by
    refine Std.ExtTreeSet.ext_mem fun name => ?_
    rw [mem_roots_ofOrder, mem_roots_ofOrder, h.exists_mem_rootsAt]
  change _ = ofOrder config types rows' Std.ExtTreeSet.toList
  rw [ofOrder_eq_addPairs, ofOrder_eq_addPairs config types rows' Std.ExtTreeSet.toList,
    ← h.map_fst]
  refine congrArg₂ withRoots ((wellFormed_numbered ..).addPairs_congr
    (has_of_mem_ofOrder types hlive henumerate) (h.mem_rowPairs fun name => ?_)) hroots
  rw [henumerate, Std.ExtTreeSet.mem_toList, hroots]

end OfOrder

end InterferenceGraph

/-! ## Colors -/

namespace Coloring

variable {color : Nat}

/-- Every listed entry has the color, and the others are as before. -/
theorem get?_foldl_modify (saturation : Table (Std.ExtTreeSet Nat)) (nodes : List Nat) (i : Nat) :
    (nodes.foldl (fun saturation neighbor => saturation.modify neighbor (·.insert color))
        saturation).get? i =
      if i ∈ nodes then (saturation.get? i).map (·.insert color) else saturation.get? i := by
  have htwice (colors : Std.ExtTreeSet Nat) :
      (colors.insert color).insert color = colors.insert color := by
    refine Std.ExtTreeSet.ext_mem fun c => ?_
    simp only [Std.ExtTreeSet.mem_insert]
    grind
  induction nodes generalizing saturation with
  | nil => rfl
  | cons first nodes ih =>
    have hfirst : (saturation.modify first (·.insert color)).get? i =
        if first = i then (saturation.get? i).map (·.insert color) else saturation.get? i :=
      Array.getElem?_modify
    rw [List.foldl_cons, ih, hfirst]
    by_cases heq : first = i
    · subst heq
      simp [Function.comp_def, htwice]
    · simp [heq, Ne.symm heq]

/-- The neighbors of a location can be told its color in any order. -/
theorem assign_of_enumeration (graph : InterferenceGraph) (coloring : Coloring) (node color : Nat)
    {neighbors : List Nat}
    (h : ∀ neighbor, neighbor ∈ neighbors ↔ neighbor ∈ graph.neighbors node) :
    coloring.assign graph node color =
      { colors := coloring.colors.set node (some color)
        saturation := neighbors.foldl
          (fun saturation neighbor => saturation.modify neighbor (·.insert color))
          coloring.saturation } := by
  rw [assign, Coloring.mk.injEq]
  refine ⟨rfl, Table.ext_get? fun i => ?_⟩
  simp only [get?_foldl_modify, Std.ExtTreeSet.mem_toList, h]

end Coloring

/-! ## Homes -/

namespace X86.Function

open InterferenceGraph

variable {config : Config} {function : X86.Function} {liveness : Liveness}

/-- Take any enumerations of the live sets of a function and of its roots.  The graph built from
them is the graph of the function: it has the registers of the table and then the variables in the
order of their first occurrence, all of them numbered before the first pair is added.  While it is
colored, neighbors can be told a color in any order.  Hence the homes and the code are those that
the function is allocated to. -/
theorem allocation_of_enumeration (hconfig : config.validate = .ok ())
    (hliveness : function.liveness config = .ok liveness)
    {rows : List (Instruction × List Location)}
    (hrows : SameRows rows ((liveness.rows function).map fun row => (row.1, row.2.toList)))
    {enumerate : Std.ExtTreeSet Name → List Name}
    (henumerate : ∀ names name, name ∈ enumerate names ↔ name ∈ names) :
    ∃ graph, ofOrder config function.variableTypes rows enumerate = graph ∧
      function.interference config liveness = graph ∧
      graph.nodes.items.toList = config.allocatable.map .register ++
        (function.instructions.flatMap operandVariables).eraseDups ∧
      ((numbered config function.instructions).addPairs
        (rowPairs config rows (enumerate graph.roots))).withRoots graph.roots = graph ∧
      (∀ pairs, pairs <+: rowPairs config rows (enumerate graph.roots) →
        ((numbered config function.instructions).addPairs pairs).nodes = graph.nodes) ∧
      (∀ (coloring : Coloring) (node color : Nat) (neighbors : List Nat),
        (∀ neighbor, neighbor ∈ neighbors ↔ neighbor ∈ graph.neighbors node) →
        coloring.assign graph node color =
          { colors := coloring.colors.set node (some color)
            saturation := neighbors.foldl
              (fun saturation neighbor => saturation.modify neighbor (·.insert color))
              coloring.saturation }) ∧
      ∃ allocated, function.allocate (.ofColoring config graph (graph.color config)) =
          .ok allocated ∧ function.AllocatesTo config allocated := by
  have hinstructions : rows.map Prod.fst = function.instructions := by
    rw [hrows.map_fst, List.map_map]
    exact map_fst_rows hliveness
  have hlive : ∀ row ∈ rows, ∀ location ∈ row.2,
      location ∈ locations config (rows.map Prod.fst) := by
    intro row hrow location hlocation
    obtain ⟨row', hrow', hmem⟩ :=
      (hrows.exists_iff (p := fun _ live => location ∈ live) fun _ _ _ hsame => hsame location).mp
        ⟨row, hrow, hlocation⟩
    obtain ⟨entry, hentry, rfl⟩ := List.mem_map.mp hrow'
    rw [hinstructions]
    exact mem_locations_of_mem_rows hliveness hentry (Std.ExtTreeSet.mem_toList.mp hmem)
  have hgraph : ofOrder config function.variableTypes rows enumerate =
      function.interference config liveness := hrows.ofOrder_eq hlive henumerate
  have hpairs := ofOrder_eq_addPairs config function.variableTypes rows enumerate
  have hhas := has_of_mem_ofOrder function.variableTypes hlive henumerate
  rw [hgraph, hinstructions] at hpairs hhas
  have hnodes : (function.interference config liveness).nodes =
      (numbered config function.instructions).nodes :=
    (congrArg nodes hpairs).trans (nodes_addPairs hhas)
  refine ⟨_, hgraph, rfl, ?_, hpairs.symm, fun pairs hpart => ?_, ?_, ?_⟩
  · rw [hnodes, toList_numbered (Config.allocatable_of_validate hconfig).1]
  · rw [hnodes, nodes_addPairs fun pair hpair => hhas pair (hpart.subset hpair)]
  · exact fun coloring node color neighbors => coloring.assign_of_enumeration _ node color
  · obtain ⟨allocated, hallocated, -⟩ := exists_allocate hliveness
    exact ⟨allocated, hallocated, liveness, hliveness, hallocated⟩

/-- A function that keeps two tuples and a number across a collection. -/
def keptAcrossCollection : X86.Function where
  name := "keep"
  blocks := [⟨"keep.start", [
    .movq (.register .rdi) (.var "b"),
    .movq (.register .rsi) (.var "a"),
    .movq (.immediate 1) (.var "n"),
    .callq "collect" [],
    .addq (.var "a") (.var "n"),
    .addq (.var "b") (.var "n"),
    .movq (.var "n") (.register .rax),
    .jump "keep.conclusion"]⟩]
  variableTypes := .ofList [("a", Ty.tuple [.int]), ("b", Ty.tuple [.int]), ("n", Ty.int)]

/-- Going through all sets backwards gives the same graph and the same code. -/
theorem allocation_of_enumeration_keptAcrossCollection :
    ∃ liveness, keptAcrossCollection.liveness {} = .ok liveness ∧
      (let graph := ofOrder {} keptAcrossCollection.variableTypes
        ((liveness.rows keptAcrossCollection).map fun row => (row.1, row.2.toList.reverse))
        fun names => names.toList.reverse
      graph = keptAcrossCollection.interference {} liveness ∧
        graph.roots.toList = ["a", "b"] ∧
        graph.nodes.items.toList = (Config.allocatable {}).map .register ++
          [.var "b", .var "a", .var "n"] ∧
        ∃ allocated, keptAcrossCollection.allocate (.ofColoring {} graph (graph.color {})) =
          .ok allocated ∧ keptAcrossCollection.AllocatesTo {} allocated) := by
  have hroots : ((keptAcrossCollection.liveness {}).toOption.any fun liveness =>
      (keptAcrossCollection.interference {} liveness).roots.toList == ["a", "b"]) = true := by
    decide +kernel
  obtain ⟨liveness, hliveness, hroots⟩ := Except.exists_ok_of_any hroots
  have hrows : SameRows
      ((liveness.rows keptAcrossCollection).map fun row => (row.1, row.2.toList.reverse))
      ((liveness.rows keptAcrossCollection).map fun row => (row.1, row.2.toList)) := by
    refine List.forall₂_map_left_iff.mpr (List.forall₂_map_right_iff.mpr ?_)
    exact List.forall₂_same.mpr fun row _ => ⟨rfl, fun location => List.mem_reverse⟩
  have henumerate (names : Std.ExtTreeSet Name) (name : Name) :
      name ∈ names.toList.reverse ↔ name ∈ names :=
    List.mem_reverse.trans Std.ExtTreeSet.mem_toList
  obtain ⟨graph, hgraph, hsame, hnodes, -, -, -, hallocated⟩ :=
    allocation_of_enumeration (rfl : Config.validate {} = .ok ()) hliveness hrows henumerate
  refine ⟨liveness, hliveness, ?_⟩
  rw [hgraph]
  refine ⟨hsame.symm, ?_, hnodes, hallocated⟩
  rw [← hsame]
  exact beq_iff_eq.mp hroots

end X86.Function

end TupleLang
