import Mathlib.Algebra.BigOperators.Fin
import Mathlib.Data.Finset.Card
import Mathlib.Data.Sym.Sym2
import TupleLang.Proofs.ValidColorings

/-!
# Graphs built by additions

An interference graph keeps three things in parallel: a list of locations, the number of each of
them, and the neighbors of each number.  It is only ever built by adding locations and edges, in any
order and with any repetitions.  `InterferenceGraph.ofSteps_keeps_representation` says what holds
after any such history.

The representation itself is kept by every addition (`InterferenceGraph.WellFormed.apply`).  Two
locations interfere exactly if an edge between them was added
(`InterferenceGraph.interferes_ofSteps`), and a location keeps its number
(`InterferenceGraph.find?_foldl_apply`).

Edges are counted through the numbers of neighbors of all locations
(`InterferenceGraph.degreeSum`).  Adding a location leaves their sum as it is, and adding an edge
makes it larger by two if the edge is new, and by nothing if it is not; so the sum is always twice
the number of the unordered pairs that were named (`InterferenceGraph.degreeSum_ofSteps`).
-/

namespace TupleLang

/-- The sum over the entries of a table, by their numbers. -/
theorem Table.foldl_add_eq_sum {α : Type} (table : Table α) (f : α → Nat) (default : α) :
    table.toList.foldl (fun total entry => total + f entry) 0 =
      ∑ i ∈ Finset.range table.size, f (table.getD i default) := by
  have hentry (i : Fin table.toList.length) : table.getD i default = table.toList[i] := by
    rw [getD_eq, get?, ← Array.getElem?_toList]
    exact congrArg (Option.getD · default) (List.getElem?_eq_getElem i.isLt)
  calc table.toList.foldl (fun total entry => total + f entry) 0
      = (table.toList.map f).sum := by
        rw [List.sum_eq_foldl, List.foldl_map]
    _ = ∑ i : Fin table.toList.length, f table.toList[i] :=
        (Fin.sum_univ_fun_getElem table.toList f).symm
    _ = ∑ i : Fin table.toList.length, f (table.getD i default) := by
        simp only [hentry]
    _ = ∑ i ∈ Finset.range table.size, f (table.getD i default) :=
        (Finset.sum_range fun i => f (table.getD i default)).symm

namespace InterferenceGraph

variable {graph : InterferenceGraph} {steps : List Step} {a b location : Location} {step : Step}
  {number : Nat}

/-! ## What was named -/

/-- The pair of locations that an addition names as an edge.  Pairs have no order, and a location
makes no pair with itself. -/
def Step.pair? : Step → Option (Sym2 Location)
  | .node _ => none
  | .edge a b => if a = b then none else some s(a, b)

/-- The pairs that are named as edges, each of them once. -/
def namedPairs (steps : List Step) : Finset (Sym2 Location) :=
  (steps.filterMap Step.pair?).toFinset

/-- The pairs that were named. -/
theorem mem_namedPairs : s(a, b) ∈ namedPairs steps ↔
    a ≠ b ∧ (Step.edge a b ∈ steps ∨ Step.edge b a ∈ steps) := by
  rw [namedPairs, List.mem_toFinset, List.mem_filterMap]
  constructor
  · rintro ⟨step, hstep, hpair⟩
    cases step with
    | node location => cases hpair
    | edge x y =>
      rw [Step.pair?] at hpair
      split at hpair
      · cases hpair
      · next hne =>
        rw [Option.some_inj, Sym2.eq_iff] at hpair
        rcases hpair with ⟨rfl, rfl⟩ | ⟨rfl, rfl⟩
        · exact ⟨hne, .inl hstep⟩
        · exact ⟨Ne.symm hne, .inr hstep⟩
  · rintro ⟨hne, hstep | hstep⟩
    · exact ⟨_, hstep, if_neg hne⟩
    · refine ⟨_, hstep, ?_⟩
      rw [Step.pair?, if_neg (Ne.symm hne), Sym2.eq_swap]

/-- Steps without a pair add none. -/
theorem namedPairs_append_of_none (h : step.pair? = none) :
    namedPairs (steps ++ [step]) = namedPairs steps := by
  rw [namedPairs, List.filterMap_append, List.filterMap_cons_none h, List.filterMap_nil,
    List.append_nil]
  rfl

/-- A step with a pair adds it. -/
theorem namedPairs_append_of_some {pair : Sym2 Location} (h : step.pair? = some pair) :
    namedPairs (steps ++ [step]) = insert pair (namedPairs steps) := by
  rw [namedPairs, List.filterMap_append, List.filterMap_cons_some h, List.filterMap_nil,
    List.toFinset_append, Finset.union_comm]
  rfl

/-! ## Numbers and edges after additions -/

/-- Steps one after the other. -/
theorem ofSteps_append (steps more : List Step) :
    ofSteps (steps ++ more) = more.foldl Step.apply (ofSteps steps) :=
  List.foldl_append

/-- An addition changes no number. -/
theorem find?_apply (h : graph.find? location = some number) (step : Step) :
    (step.apply graph).find? location = some number := by
  cases step with
  | node location' => exact find?_addNode_of_some h
  | edge x y =>
    change (graph.addEdge x y).find? location = some number
    by_cases hne : x = y
    · rwa [hne, addEdge_self]
    · rw [find?_addEdge hne]
      exact find?_addNode_of_some (find?_addNode_of_some h)

/-- A location keeps its number, whatever is added. -/
theorem find?_foldl_apply (h : graph.find? location = some number) (steps : List Step) :
    (steps.foldl Step.apply graph).find? location = some number := by
  induction steps generalizing graph with
  | nil => exact h
  | cons step steps ih => exact ih (find?_apply h step)

/-- The edges after an addition. -/
theorem interferes_apply (hwf : graph.WellFormed) (step : Step) :
    (step.apply graph).Interferes a b ↔
      graph.Interferes a b ∨ a ≠ b ∧ (step = .edge a b ∨ step = .edge b a) := by
  cases step with
  | node location =>
    change (graph.addNode location).Interferes a b ↔ _
    rw [interferes_addNode hwf]
    simp
  | edge x y =>
    change (graph.addEdge x y).Interferes a b ↔ _
    by_cases hne : x = y
    · subst hne
      rw [addEdge_self]
      simp only [Step.edge.injEq]
      grind
    · rw [interferes_addEdge hwf hne]
      simp only [Step.edge.injEq, Prod.mk.injEq]
      grind

/-- Two locations interfere exactly if an edge between them was added, in one order or the other. -/
theorem interferes_ofSteps : (ofSteps steps).Interferes a b ↔
    a ≠ b ∧ (Step.edge a b ∈ steps ∨ Step.edge b a ∈ steps) := by
  induction steps using List.reverseRecOn with
  | nil =>
    refine ⟨fun h => absurd h not_interferes_empty, ?_⟩
    rintro ⟨-, h | h⟩ <;> exact absurd h List.not_mem_nil
  | append_singleton steps step ih =>
    rw [ofSteps_append]
    change (step.apply (ofSteps steps)).Interferes a b ↔ _
    rw [interferes_apply (wellFormed_ofSteps steps), ih]
    simp only [List.mem_append, List.mem_singleton]
    grind

/-! ## Counting edges -/

/-- The sum of the numbers of neighbors of all locations. -/
def degreeSum (graph : InterferenceGraph) : Nat :=
  ∑ i ∈ Finset.range graph.size, (graph.neighbors i).size

/-- Every edge is counted at both ends. -/
theorem WellFormed.edgeCount_eq (hwf : graph.WellFormed) :
    graph.edgeCount = graph.degreeSum / 2 := by
  rw [edgeCount, Table.foldl_add_eq_sum _ _ ∅, hwf.size_adjacent]
  rfl

/-- Numbers that no location has add nothing to the sum. -/
theorem WellFormed.sum_size_neighbors (hwf : graph.WellFormed) {bound : Nat}
    (h : graph.size ≤ bound) :
    ∑ i ∈ Finset.range bound, (graph.neighbors i).size = graph.degreeSum := by
  refine (Finset.sum_subset (Finset.range_subset_range.mpr h) fun i _ hi => ?_).symm
  have hsize : graph.adjacent.size ≤ i := by
    rw [hwf.size_adjacent]
    simpa using hi
  rw [neighbors, Table.getD_of_size_le hsize]
  exact Std.ExtTreeSet.size_empty

/-- A new location has no neighbors. -/
theorem WellFormed.degreeSum_addNode (hwf : graph.WellFormed) (location : Location) :
    (graph.addNode location).degreeSum = graph.degreeSum := by
  rw [degreeSum]
  simp only [neighbors_addNode]
  exact hwf.sum_size_neighbors (size_le_size_addNode graph location)

/-- An edge takes no location away. -/
theorem size_le_size_addEdge (hne : a ≠ b) : graph.size ≤ (graph.addEdge a b).size := by
  have hsize : (graph.addEdge a b).size = ((graph.addNode a).addNode b).size :=
    congrArg Numbering.size (nodes_addEdge graph hne)
  rw [hsize]
  exact Nat.le_trans (size_le_size_addNode graph a) (size_le_size_addNode _ b)

/-- An edge that was there before is not counted again. -/
theorem WellFormed.degreeSum_addEdge_of_interferes (hwf : graph.WellFormed) (hne : a ≠ b)
    (h : graph.Interferes a b) : (graph.addEdge a b).degreeSum = graph.degreeSum := by
  obtain ⟨i, j, ha, hb, -, -, hmem⟩ := mem_neighbors_addEdge hwf hne
  have hj : j ∈ graph.neighbors i := by
    obtain ⟨k, m, hk, hm, hneighbor⟩ := (interferes_iff_find?_addEdge hwf hne).mp h
    cases ha.symm.trans hk
    cases hb.symm.trans hm
    exact hneighbor
  have hsame (k : Nat) : (graph.addEdge a b).neighbors k = graph.neighbors k := by
    refine Std.ExtTreeSet.ext_mem fun m => ?_
    rw [hmem]
    constructor
    · rintro (hm | ⟨rfl, rfl⟩ | ⟨rfl, rfl⟩)
      · exact hm
      · exact hj
      · exact hwf.symm hj
    · exact .inl
  rw [degreeSum]
  simp only [hsame]
  exact hwf.sum_size_neighbors (size_le_size_addEdge hne)

/-- A new member counts once. -/
theorem size_insert_of_notMem {set : Std.ExtTreeSet Nat} {i : Nat} (h : i ∉ set) :
    (set.insert i).size = set.size + 1 := by
  rw [Std.ExtTreeSet.size_insert, if_neg]
  rwa [Std.ExtTreeSet.contains_iff_mem]

/-- A new edge gives each of its two ends one more neighbor. -/
theorem WellFormed.size_neighbors_addEdge (hwf : graph.WellFormed) (hne : a ≠ b)
    (h : ¬ graph.Interferes a b) :
    ∃ i < (graph.addEdge a b).size, ∃ j < (graph.addEdge a b).size, ∀ k,
      ((graph.addEdge a b).neighbors k).size =
        (graph.neighbors k).size + (if i = k then 1 else 0) + (if j = k then 1 else 0) := by
  obtain ⟨i, j, ha, hb, hij, -, hmem⟩ := mem_neighbors_addEdge hwf hne
  have hwf' := hwf.addEdge a b
  refine ⟨i, hwf'.nodes.lt_size ha, j, hwf'.nodes.lt_size hb, fun k => ?_⟩
  have hnew : j ∉ graph.neighbors i := fun hneighbor =>
    h ((interferes_iff_find?_addEdge hwf hne).mpr ⟨i, j, ha, hb, hneighbor⟩)
  have hmore {x y : Nat} (hends : x = i ∧ y = j ∨ x = j ∧ y = i) :
      (graph.addEdge a b).neighbors x = (graph.neighbors x).insert y :=
    Std.ExtTreeSet.ext_mem fun m => by
      rw [hmem, Std.ExtTreeSet.mem_insert, Std.LawfulEqCmp.compare_eq_iff_eq]
      grind
  by_cases hi : i = k
  · subst hi
    rw [hmore (.inl ⟨rfl, rfl⟩), size_insert_of_notMem hnew, if_pos rfl, if_neg hij.symm]
  · by_cases hj : j = k
    · subst hj
      have hnew' : i ∉ graph.neighbors j := fun hneighbor => hnew (hwf.symm hneighbor)
      rw [hmore (.inr ⟨rfl, rfl⟩), size_insert_of_notMem hnew', if_neg hij, if_pos rfl]
    · have hsame : (graph.addEdge a b).neighbors k = graph.neighbors k :=
        Std.ExtTreeSet.ext_mem fun m => by
          rw [hmem]
          grind
      rw [hsame, if_neg hi, if_neg hj, Nat.add_zero]

/-- A new edge counts at both ends. -/
theorem WellFormed.degreeSum_addEdge_of_not_interferes (hwf : graph.WellFormed) (hne : a ≠ b)
    (h : ¬ graph.Interferes a b) : (graph.addEdge a b).degreeSum = graph.degreeSum + 2 := by
  obtain ⟨i, hi, j, hj, hdegree⟩ := hwf.size_neighbors_addEdge hne h
  rw [degreeSum]
  simp only [hdegree, Finset.sum_add_distrib, Finset.sum_ite_eq, Finset.mem_range, hi, hj, if_true]
  rw [hwf.sum_size_neighbors (size_le_size_addEdge hne)]

/-- The sum of the numbers of neighbors is twice the number of pairs that were named. -/
theorem degreeSum_ofSteps (steps : List Step) :
    (ofSteps steps).degreeSum = 2 * (namedPairs steps).card := by
  induction steps using List.reverseRecOn with
  | nil => rfl
  | append_singleton steps step ih =>
    have hwf := wellFormed_ofSteps steps
    rw [ofSteps_append]
    cases step with
    | node location =>
      rw [namedPairs_append_of_none rfl, ← ih]
      exact hwf.degreeSum_addNode location
    | edge x y =>
      change ((ofSteps steps).addEdge x y).degreeSum = _
      by_cases hne : x = y
      · have hpair : (Step.edge x y).pair? = none := if_pos hne
        rw [namedPairs_append_of_none hpair, hne, addEdge_self, ih]
      · have hpair : (Step.edge x y).pair? = some s(x, y) := if_neg hne
        have hnamed : s(x, y) ∈ namedPairs steps ↔ (ofSteps steps).Interferes x y := by
          rw [mem_namedPairs, interferes_ofSteps]
        rw [namedPairs_append_of_some hpair]
        by_cases hold : (ofSteps steps).Interferes x y
        · rw [hwf.degreeSum_addEdge_of_interferes hne hold,
            Finset.insert_eq_of_mem (hnamed.mpr hold), ih]
        · rw [hwf.degreeSum_addEdge_of_not_interferes hne hold,
            Finset.card_insert_of_notMem (mt hnamed.mp hold), ih, Nat.mul_succ]

/-- After any additions to an empty graph, locations and their numbers determine each other, and
the number that an addition reports for a location stays its number whatever is added later.
Interference is symmetric, irreflexive, and between locations of the graph; two different locations
interfere exactly if some addition named them as an edge, in one order or the other; and the edges
are counted as the unordered pairs that were named. -/
theorem ofSteps_keeps_representation (steps : List Step) :
    let graph := ofSteps steps
    (∀ location number,
      graph.find? location = some number ↔ graph.location? number = some location) ∧
    (∀ location more,
      (ofSteps (steps ++ .node location :: more)).find? location =
        some (graph.node location).1) ∧
    (∀ location number more, graph.find? location = some number →
      (ofSteps (steps ++ more)).find? location = some number) ∧
    graph.adjacent.size = graph.size ∧
    (∀ i j, j ∈ graph.neighbors i → i ∈ graph.neighbors j) ∧
    (∀ i, i ∉ graph.neighbors i) ∧
    (∀ i j, j ∈ graph.neighbors i → i < graph.size ∧ j < graph.size) ∧
    (∀ a b, a ≠ b →
      (graph.Interferes a b ↔ Step.edge a b ∈ steps ∨ Step.edge b a ∈ steps)) ∧
    graph.edgeCount = (namedPairs steps).card := by
  intro graph
  have hwf : graph.WellFormed := wellFormed_ofSteps steps
  refine ⟨hwf.nodes, fun location more => ?_, fun location number more h => ?_, hwf.size_adjacent,
    fun i j => hwf.symm, hwf.irrefl, fun i j h => ⟨hwf.lt_size (hwf.symm h), hwf.lt_size h⟩,
    fun a b hne => ?_, ?_⟩
  · rw [ofSteps_append, List.foldl_cons]
    exact find?_foldl_apply (find?_addNode_self graph location) more
  · rw [ofSteps_append]
    exact find?_foldl_apply h more
  · rw [interferes_ofSteps]
    exact and_iff_right hne
  · rw [hwf.edgeCount_eq, degreeSum_ofSteps]
    exact Nat.mul_div_cancel_left _ Nat.two_pos

end InterferenceGraph

end TupleLang
