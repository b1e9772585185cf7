import TupleLang.Coloring
import TupleLang.Proofs.InterferenceGraphs

/-!
# Valid colorings

The coloring of an interference graph is valid: neighbors have different colors
(`InterferenceGraph.WellFormed.color_ne`), a register of the table has its own color
(`InterferenceGraph.WellFormed.color_register`), and any other location has a color that is at most
the number of its neighbors (`InterferenceGraph.WellFormed.color_le`).

All this follows from what every step of the coloring keeps (`Coloring.IsPartial`): the saturation
of a location is the set of the colors of its neighbors, and the colors given so far are valid.

The coloring ends by itself, without a limit on its steps or on the colors it tries
(`Coloring.Completes`).  For the graphs that additions of locations and pairs build from nothing,
`InterferenceGraph.color_ofSteps` has all this in one statement.
-/

namespace TupleLang

open X86 (Register)

namespace Coloring

variable {graph : InterferenceGraph} {registers : List Register} {coloring : Coloring}
  {node color : Nat}

/-- The color of a location, if it has one. -/
def colorOf? (coloring : Coloring) (node : Nat) : Option Nat :=
  coloring.colors.getD node none

/-- The color that a register of the table must have. -/
def ownColor? (graph : InterferenceGraph) (registers : List Register) (node : Nat) : Option Nat :=
  match graph.location? node with
  | some (.register register) => registers.idxOf? register
  | _ => none

/-- A location may have the color: its own one if it is a register of the table, else one that is at
most the number of its neighbors. -/
def Allows (graph : InterferenceGraph) (registers : List Register) (node color : Nat) : Prop :=
  ownColor? graph registers node = some color ∨
    ownColor? graph registers node = none ∧ color ≤ (graph.neighbors node).size

/-- A valid coloring of some of the locations, with the right saturation. -/
structure IsPartial (graph : InterferenceGraph) (registers : List Register)
    (coloring : Coloring) : Prop where
  size_colors : coloring.colors.size = graph.size
  size_saturation : coloring.saturation.size = graph.size
  mem_saturationOf {node color : Nat} : color ∈ coloring.saturationOf node ↔
    ∃ neighbor ∈ graph.neighbors node, coloring.colorOf? neighbor = some color
  ne_of_mem {i j color : Nat} : j ∈ graph.neighbors i → coloring.colorOf? i = some color →
    coloring.colorOf? j ≠ some color
  allows {node color : Nat} : coloring.colorOf? node = some color →
    Allows graph registers node color

/-! ## Colors and saturation -/

/-- The colors after a location got one. -/
theorem colorOf?_assign (graph : InterferenceGraph) (hnode : node < coloring.colors.size)
    (color i : Nat) : (coloring.assign graph node color).colorOf? i =
      if node = i then some color else coloring.colorOf? i :=
  Table.getD_set _ hnode _ i none

/-- The colors among the neighbors. -/
theorem mem_foldl_modify {saturation : Table (Std.ExtTreeSet Nat)} {nodes : List Nat}
    (hnodes : ∀ i ∈ nodes, i < saturation.size) {i c : Nat} :
    c ∈ (nodes.foldl (fun saturation neighbor => saturation.modify neighbor (·.insert color))
        saturation).getD i ∅ ↔
      c ∈ saturation.getD i ∅ ∨ i ∈ nodes ∧ c = color := by
  induction nodes generalizing saturation with
  | nil => exact ⟨.inl, (Or.resolve_right · fun h => List.not_mem_nil h.1)⟩
  | cons first nodes ih =>
    obtain ⟨hfirst, hnodes⟩ := List.forall_mem_cons.mp hnodes
    rw [List.foldl_cons, ih (by simpa only [Table.size_modify] using hnodes),
      Table.getD_modify _ hfirst, List.mem_cons]
    split
    · rw [Std.ExtTreeSet.mem_insert, Std.LawfulEqCmp.compare_eq_iff_eq]
      grind
    · grind

/-- Their table keeps its size. -/
theorem size_foldl_modify (saturation : Table (Std.ExtTreeSet Nat)) (nodes : List Nat) :
    (nodes.foldl (fun saturation neighbor => saturation.modify neighbor (·.insert color))
      saturation).size = saturation.size := by
  induction nodes generalizing saturation with
  | nil => rfl
  | cons first nodes ih => rw [List.foldl_cons, ih, Table.size_modify]

/-- Giving a location a color that no neighbor has keeps the coloring valid. -/
theorem IsPartial.assign (hwf : graph.WellFormed) (h : coloring.IsPartial graph registers)
    (hnode : node < graph.size) (hfree : color ∉ coloring.saturationOf node)
    (hold : ∀ c, coloring.colorOf? node = some c → c = color)
    (hallows : Allows graph registers node color) :
    (coloring.assign graph node color).IsPartial graph registers := by
  have hcolor := colorOf?_assign graph (h.size_colors.symm ▸ hnode) color
  have hmem {i c : Nat} : c ∈ (coloring.assign graph node color).saturationOf i ↔
      c ∈ coloring.saturationOf i ∨ i ∈ graph.neighbors node ∧ c = color := by
    rw [saturationOf, Coloring.assign, mem_foldl_modify, Std.ExtTreeSet.mem_toList]
    · rfl
    · intro i hi
      exact h.size_saturation.symm ▸ hwf.lt_size (Std.ExtTreeSet.mem_toList.mp hi)
  refine ⟨?_, ?_, ?_, ?_, ?_⟩
  · exact (Array.size_setIfInBounds ..).trans h.size_colors
  · exact (size_foldl_modify ..).trans h.size_saturation
  · intro i c
    rw [hmem, h.mem_saturationOf]
    constructor
    · rintro (⟨neighbor, hneighbor, hc⟩ | ⟨hi, rfl⟩)
      · refine ⟨neighbor, hneighbor, ?_⟩
        rw [hcolor]
        split
        · next heq =>
          subst heq
          rw [hold c hc]
        · exact hc
      · exact ⟨node, hwf.symm hi, by rw [hcolor, if_pos rfl]⟩
    · rintro ⟨neighbor, hneighbor, hc⟩
      rw [hcolor] at hc
      split at hc
      · next heq =>
        subst heq
        exact .inr ⟨hwf.symm hneighbor, (Option.some_inj.mp hc).symm⟩
      · exact .inl ⟨neighbor, hneighbor, hc⟩
  · intro i j c hj hi
    have hfree {neighbor : Nat} (hneighbor : neighbor ∈ graph.neighbors node) :
        coloring.colorOf? neighbor ≠ some color := fun hc =>
      hfree (h.mem_saturationOf.mpr ⟨neighbor, hneighbor, hc⟩)
    have hne : i ≠ j := fun heq => hwf.irrefl i (heq ▸ hj)
    rw [hcolor] at hi ⊢
    split at hi
    · next heq =>
      subst heq
      cases hi
      rw [if_neg hne]
      exact hfree hj
    · split
      · next heq =>
        subst heq
        intro hc
        cases hc
        exact hfree (hwf.symm hj) hi
      · exact h.ne_of_mem hj hi
  · intro i c hc
    rw [hcolor] at hc
    split at hc
    · next heq =>
      subst heq
      cases hc
      exact hallows
    · exact h.allows hc

/-! ## Free colors -/

/-- The least free color is free, and it is at most the number of colors in use. -/
theorem leastFree_spec (used : Std.ExtTreeSet Nat) :
    leastFree used ∉ used ∧ leastFree used ≤ used.size := by
  rw [leastFree]
  cases hfind : (List.range (used.size + 1)).find? (!used.contains ·) with
  | some color =>
    have hfree := List.find?_some hfind
    have hrange := List.mem_range.mp (List.mem_of_find?_eq_some hfind)
    rw [Bool.not_eq_true', ← Bool.not_eq_true, Std.ExtTreeSet.contains_iff_mem] at hfree
    exact ⟨hfree, Nat.le_of_lt_succ hrange⟩
  | none =>
    -- one more color than the set has members cannot all be members
    have hsubset : List.range (used.size + 1) ⊆ used.toList := by
      intro color hcolor
      have hused := List.find?_eq_none.mp hfind color hcolor
      exact Std.ExtTreeSet.mem_toList.mpr (by simpa using hused)
    have hle := (List.subperm_of_subset List.nodup_range hsubset).length_le
    rw [List.length_range, Std.ExtTreeSet.length_toList] at hle
    exact absurd hle (Nat.not_succ_le_self _)

/-- All colors below the least free one are in use. -/
theorem mem_of_lt_leastFree {used : Std.ExtTreeSet Nat} (h : color < leastFree used) :
    color ∈ used := by
  rw [leastFree] at h
  cases hfind : (List.range (used.size + 1)).find? (!used.contains ·) with
  | some least =>
    rw [hfind, Option.getD_some] at h
    simpa using (List.find?_range_eq_some.mp hfind).2.2 color h
  | none =>
    rw [hfind] at h
    exact absurd h (Nat.not_lt_zero color)

/-- Sets have no repetitions. -/
theorem nodup_toList (set : Std.ExtTreeSet Nat) : set.toList.Nodup :=
  set.distinct_toList.imp fun h heq => h (Std.LawfulEqCmp.compare_eq_iff_eq.mpr heq)

/-- The neighbors of a location have at most as many colors as there are neighbors. -/
theorem IsPartial.size_saturationOf_le (h : coloring.IsPartial graph registers) (node : Nat) :
    (coloring.saturationOf node).size ≤ (graph.neighbors node).size := by
  have hsubset : (coloring.saturationOf node).toList ⊆
      (graph.neighbors node).toList.filterMap coloring.colorOf? := by
    intro color hcolor
    obtain ⟨neighbor, hneighbor, hcolor⟩ := h.mem_saturationOf.mp
      (Std.ExtTreeSet.mem_toList.mp hcolor)
    exact List.mem_filterMap.mpr ⟨neighbor, Std.ExtTreeSet.mem_toList.mpr hneighbor, hcolor⟩
  calc (coloring.saturationOf node).size
      = (coloring.saturationOf node).toList.length := Std.ExtTreeSet.length_toList.symm
    _ ≤ ((graph.neighbors node).toList.filterMap coloring.colorOf?).length :=
      (List.subperm_of_subset (nodup_toList _) hsubset).length_le
    _ ≤ (graph.neighbors node).toList.length := List.length_filterMap_le ..
    _ = (graph.neighbors node).size := Std.ExtTreeSet.length_toList

/-! ## Registers -/

/-- No location is colored at first. -/
theorem IsPartial.empty (graph : InterferenceGraph) (registers : List Register) :
    (empty graph).IsPartial graph registers := by
  have hcolor (i : Nat) : (Coloring.empty graph).colorOf? i = none :=
    Table.getD_replicate graph.size none i
  have hsaturation (i : Nat) : (Coloring.empty graph).saturationOf i = ∅ :=
    Table.getD_replicate graph.size ∅ i
  refine ⟨?_, ?_, ?_, ?_, ?_⟩
  · exact List.length_replicate
  · exact List.length_replicate
  · simp [hcolor, hsaturation]
  · simp [hcolor]
  · simp [hcolor]

/-- Different locations have different own colors. -/
theorem eq_of_ownColor? (hwf : graph.WellFormed) {i j : Nat}
    (hi : ownColor? graph registers i = some color)
    (hj : ownColor? graph registers j = some color) : i = j := by
  have hlocation {k : Nat} (hk : ownColor? graph registers k = some color) :
      ∃ register, graph.location? k = some (.register register) ∧
        registers[color]? = some register := by
    rw [ownColor?] at hk
    split at hk
    · next register hregister =>
      obtain ⟨hlt, heq, -⟩ := List.idxOf?_eq_some_iff.mp hk
      exact ⟨register, hregister, List.getElem?_eq_some_iff.mpr ⟨hlt, heq⟩⟩
    · cases hk
  obtain ⟨register, hi, hcolor⟩ := hlocation hi
  obtain ⟨register', hj, hcolor'⟩ := hlocation hj
  cases hcolor.symm.trans hcolor'
  exact Option.some_inj.mp (((hwf.nodes _ _).mpr hi).symm.trans ((hwf.nodes _ _).mpr hj))

/-- The coloring knows own colors only. -/
def IsOwn (graph : InterferenceGraph) (registers : List Register) (coloring : Coloring) : Prop :=
  ∀ node color, coloring.colorOf? node = some color → ownColor? graph registers node = some color

/-- What giving a register its own color does. -/
theorem assignRegister_eq {location : Location} (h : graph.location? node = some location) :
    coloring.assignRegister graph registers (node, location) =
      match ownColor? graph registers node with
      | some color => coloring.assign graph node color
      | none => coloring := by
  rw [ownColor?, h]
  cases location with
  | var name => rfl
  | register register => rfl

/-- Giving registers their own colors keeps the coloring valid, and those registers have them. -/
theorem IsPartial.foldl_assignRegister (hwf : graph.WellFormed) {entries : List (Nat × Location)}
    (hentries : ∀ entry ∈ entries, graph.location? entry.1 = some entry.2)
    (h : coloring.IsPartial graph registers) (hown : coloring.IsOwn graph registers) :
    (entries.foldl (assignRegister graph registers) coloring).IsPartial graph registers ∧
      ∀ node color, ownColor? graph registers node = some color →
        node ∈ entries.map Prod.fst ∨ coloring.colorOf? node = some color →
        (entries.foldl (assignRegister graph registers) coloring).colorOf? node = some color := by
  induction entries generalizing coloring with
  | nil => exact ⟨h, fun _ _ _ hcolor => hcolor.resolve_left List.not_mem_nil⟩
  | cons entry entries ih =>
    obtain ⟨node, location⟩ := entry
    obtain ⟨hnode, hentries⟩ := List.forall_mem_cons.mp hentries
    have hlt : node < graph.size := (Array.getElem?_eq_some_iff.mp hnode).1
    rw [List.foldl_cons, assignRegister_eq hnode]
    cases hcolor : ownColor? graph registers node with
    | none =>
      obtain ⟨hpartial, hcolors⟩ := ih hentries h hown
      refine ⟨hpartial, fun node' color' hcolor' hmem => hcolors node' color' hcolor' ?_⟩
      refine hmem.imp_left fun hmem => (List.mem_cons.mp hmem).resolve_left ?_
      rintro rfl
      cases hcolor.symm.trans hcolor'
    | some color =>
      have hassign := colorOf?_assign graph (h.size_colors.symm ▸ hlt) color
      have hfree : color ∉ coloring.saturationOf node := by
        intro hmem
        obtain ⟨neighbor, hneighbor, hmem⟩ := h.mem_saturationOf.mp hmem
        rw [eq_of_ownColor? hwf (hown neighbor color hmem) hcolor] at hneighbor
        exact hwf.irrefl node hneighbor
      have hold (c : Nat) (hc : coloring.colorOf? node = some c) : c = color :=
        Option.some_inj.mp ((hown node c hc).symm.trans hcolor)
      obtain ⟨hpartial, hcolors⟩ := ih hentries (h.assign hwf hlt hfree hold (.inl hcolor)) (by
        intro node' color' hcolor'
        rw [hassign] at hcolor'
        split at hcolor'
        · next heq =>
          subst heq
          cases hcolor'
          exact hcolor
        · exact hown node' color' hcolor')
      refine ⟨hpartial, fun node' color' hcolor' hmem => hcolors node' color' hcolor' ?_⟩
      rw [hassign]
      split
      · next heq =>
        subst heq
        exact .inr (hcolor.symm.trans hcolor')
      · next hne =>
        exact hmem.imp_left fun hmem => (List.mem_cons.mp hmem).resolve_left (Ne.symm hne)

/-! ## The other locations -/

/-- What it means to be colored. -/
theorem isColored_eq_true : coloring.isColored node = true ↔
    ∃ color, coloring.colorOf? node = some color :=
  Option.isSome_iff_exists

/-- A choice between each member of a list and the one chosen before ends with a member, if there
is any. -/
theorem foldl_choice {step : Option Nat → Nat → Option Nat}
    (hstep : ∀ best node, step best node = some node ∨ step best node = best ∧ best ≠ none)
    (nodes : List Nat) (best : Option Nat) :
    (nodes.foldl step best = best ∧ (best = none → nodes = [])) ∨
      ∃ node ∈ nodes, nodes.foldl step best = some node := by
  induction nodes generalizing best with
  | nil => exact .inl ⟨rfl, fun _ => rfl⟩
  | cons node nodes ih =>
    rw [List.foldl_cons]
    obtain ⟨hsame, -⟩ | ⟨chosen, hmem, hchosen⟩ := ih (step best node)
    · obtain hnode | ⟨hbest, hsome⟩ := hstep best node
      · exact .inr ⟨node, List.mem_cons_self, hsame.trans hnode⟩
      · exact .inl ⟨hsame.trans hbest, fun hnone => absurd hnone hsome⟩
    · exact .inr ⟨chosen, List.mem_cons_of_mem _ hmem, hchosen⟩

/-- Either all locations have colors, or one without a color comes next. -/
theorem mostSaturated?_spec (coloring : Coloring) (nodes : List Nat) :
    (coloring.mostSaturated? nodes = none ∧ nodes.filter (!coloring.isColored ·) = []) ∨
      ∃ node ∈ nodes.filter (!coloring.isColored ·),
        coloring.mostSaturated? nodes = some node := by
  refine (foldl_choice (fun best node => ?_) _ none).imp_left fun h => ⟨h.1, h.2 rfl⟩
  cases best with
  | none => exact .inl rfl
  | some chosen =>
    dsimp only
    split
    · exact .inr ⟨rfl, nofun⟩
    · exact .inl rfl

/-- Every step of the coloring leaves fewer locations without a color. -/
theorem length_uncolored_assign (graph : InterferenceGraph) {nodes : List Nat}
    (hlt : node < coloring.colors.size) (hnode : node ∈ nodes.filter (!coloring.isColored ·))
    (color : Nat) :
    (nodes.filter (!(coloring.assign graph node color).isColored ·)).length <
      (nodes.filter (!coloring.isColored ·)).length := by
  have hfilter : nodes.filter (!(coloring.assign graph node color).isColored ·) =
      (nodes.filter (!coloring.isColored ·)).filter (· != node) := by
    rw [List.filter_filter]
    refine List.filter_congr fun i _ => ?_
    change (!((coloring.assign graph node color).colorOf? i).isSome) = _
    rw [colorOf?_assign graph hlt]
    split
    · next heq => simp [heq]
    · next hne => simp [Ne.symm hne, isColored, colorOf?]
  rw [hfilter, List.length_filter_lt_length_iff_exists]
  exact ⟨node, hnode, by simp⟩

/-- If no location is left without a color, all have one. -/
theorem exists_colorOf? (hnil : graph.nodes.items.numbers.filter (!coloring.isColored ·) = [])
    (hnode : node < graph.size) : ∃ color, coloring.colorOf? node = some color := by
  have hcolored := List.filter_eq_nil_iff.mp hnil node (Table.mem_numbers.mpr hnode)
  exact isColored_eq_true.mp (by simpa using hcolored)

/-- Coloring more locations keeps the coloring valid; with as many steps as
there are locations without a color, all of them get one. -/
theorem IsPartial.extend (hwf : graph.WellFormed) (h : coloring.IsPartial graph registers)
    (hown : ∀ node color, ownColor? graph registers node = some color →
      coloring.colorOf? node = some color) {count : Nat}
    (hcount : (graph.nodes.items.numbers.filter (!coloring.isColored ·)).length ≤ count) :
    (extend graph count coloring).IsPartial graph registers ∧
      ∀ node < graph.size, ∃ color, (extend graph count coloring).colorOf? node = some color := by
  induction count generalizing coloring with
  | zero =>
    exact ⟨h, fun _ => exists_colorOf? (List.eq_nil_of_length_eq_zero (Nat.le_zero.mp hcount))⟩
  | succ count ih =>
    rw [Coloring.extend]
    obtain ⟨hnone, hnil⟩ | ⟨node, hnode, hsome⟩ :=
      mostSaturated?_spec coloring graph.nodes.items.numbers
    · rw [hnone]
      exact ⟨h, fun _ => exists_colorOf? hnil⟩
    · rw [hsome]
      obtain ⟨hnumber, huncolored⟩ := List.mem_filter.mp hnode
      have hlt : node < graph.size := Table.mem_numbers.mp hnumber
      have hlt' : node < coloring.colors.size := h.size_colors.symm ▸ hlt
      have hnocolor : coloring.colorOf? node = none := by
        simpa [isColored, colorOf?] using huncolored
      have hnoown : ownColor? graph registers node = none := by
        cases howncolor : ownColor? graph registers node with
        | none => rfl
        | some color => cases hnocolor.symm.trans (hown node color howncolor)
      obtain ⟨hfree, hle⟩ := leastFree_spec (coloring.saturationOf node)
      refine ih (h.assign hwf hlt hfree (by simp [hnocolor])
        (.inr ⟨hnoown, Nat.le_trans hle (h.size_saturationOf_le node)⟩)) ?_ ?_
      · intro node' color hcolor
        rw [colorOf?_assign graph hlt', if_neg, hown node' color hcolor]
        rintro rfl
        cases hnoown.symm.trans hcolor
      · exact Nat.le_of_lt_succ
          (Nat.lt_of_lt_of_le (length_uncolored_assign graph hlt' hnode _) hcount)

/-- The coloring of the locations without a color, with no limit: in each turn the most saturated
one gets the least color that is not in its saturation, until all have one. -/
inductive Completes (graph : InterferenceGraph) : (turns : Nat) → Coloring → Coloring → Prop
  | done {coloring : Coloring} (h : coloring.mostSaturated? graph.nodes.items.numbers = none) :
    Completes graph 0 coloring coloring
  | turn {coloring coloring' : Coloring} {turns node color : Nat}
    (h : coloring.mostSaturated? graph.nodes.items.numbers = some node)
    (hfree : color ∉ coloring.saturationOf node)
    (hleast : ∀ lower < color, lower ∈ coloring.saturationOf node)
    (hrest : Completes graph turns (coloring.assign graph node color) coloring') :
    Completes graph (turns + 1) coloring coloring'

/-- A limit that is at least the number of locations without a color is no limit. -/
theorem completes_extend (hsize : coloring.colors.size = graph.size) {count : Nat}
    (hcount : (graph.nodes.items.numbers.filter (!coloring.isColored ·)).length ≤ count) :
    ∃ turns ≤ count, Completes graph turns coloring (extend graph count coloring) := by
  induction count generalizing coloring with
  | zero =>
    refine ⟨0, Nat.le_refl 0, .done ?_⟩
    obtain ⟨hnone, -⟩ | ⟨node, hnode, -⟩ :=
      mostSaturated?_spec coloring graph.nodes.items.numbers
    · exact hnone
    · exact absurd hcount (Nat.not_le.mpr (List.length_pos_of_mem hnode))
  | succ count ih =>
    rw [Coloring.extend]
    obtain ⟨hnone, -⟩ | ⟨node, hnode, hsome⟩ :=
      mostSaturated?_spec coloring graph.nodes.items.numbers
    · rw [hnone]
      exact ⟨0, Nat.zero_le _, .done hnone⟩
    · rw [hsome]
      have hlt : node < coloring.colors.size :=
        hsize.symm ▸ Table.mem_numbers.mp (List.mem_filter.mp hnode).1
      have hsize' : (coloring.assign graph node
          (leastFree (coloring.saturationOf node))).colors.size = graph.size :=
        (Array.size_setIfInBounds ..).trans hsize
      obtain ⟨turns, hturns, hrest⟩ := ih hsize' (Nat.le_of_lt_succ
        (Nat.lt_of_lt_of_le (length_uncolored_assign graph hlt hnode _) hcount))
      exact ⟨turns + 1, Nat.succ_le_succ hturns,
        .turn hsome (leastFree_spec _).1 (fun _ => mem_of_lt_leastFree) hrest⟩

/-- The registers of the table have their own colors, and no other location has one. -/
def ofRegisters (graph : InterferenceGraph) (registers : List Register) : Coloring :=
  graph.nodes.items.numbered.foldl (assignRegister graph registers) (empty graph)

/-- The coloring starts from a valid coloring of the registers of the table. -/
theorem isPartial_ofRegisters (hwf : graph.WellFormed) (registers : List Register) :
    (ofRegisters graph registers).IsPartial graph registers ∧
      ∀ node color, ownColor? graph registers node = some color →
        (ofRegisters graph registers).colorOf? node = some color := by
  have hempty (node : Nat) : (Coloring.empty graph).colorOf? node = none :=
    Table.getD_replicate graph.size none node
  obtain ⟨hpartial, hown⟩ := (IsPartial.empty graph registers).foldl_assignRegister hwf
    (fun entry => Table.mem_numbered.mp) (by simp [IsOwn, hempty])
  refine ⟨hpartial, fun node color hcolor => hown node color hcolor (.inl ?_)⟩
  rw [ownColor?] at hcolor
  split at hcolor
  · next register hregister => exact List.mem_map_of_mem (Table.mem_numbered.mpr hregister)
  · cases hcolor

/-- At most all locations are without a color. -/
theorem length_uncolored_le (graph : InterferenceGraph) (coloring : Coloring) :
    (graph.nodes.items.numbers.filter (!coloring.isColored ·)).length ≤ graph.size :=
  Nat.le_trans (List.length_filter_le ..) (Nat.le_of_eq List.length_range)

end Coloring

namespace InterferenceGraph

variable {config : Config} {graph : InterferenceGraph} {node : Nat}

/-- The colors of a graph are a valid coloring of all its locations, and the coloring comes to it
by itself. -/
theorem WellFormed.exists_coloring (hwf : graph.WellFormed) (config : Config) :
    ∃ coloring : Coloring, coloring.IsPartial graph config.allocatable ∧
      (graph.color config).size = graph.size ∧
      (∀ node < graph.size, coloring.colorOf? node = some ((graph.color config).getD node 0)) ∧
      ∃ turns ≤ graph.size,
        Coloring.Completes graph turns (.ofRegisters graph config.allocatable) coloring := by
  obtain ⟨hregisters, hown⟩ := Coloring.isPartial_ofRegisters hwf config.allocatable
  have hcount := Coloring.length_uncolored_le graph (.ofRegisters graph config.allocatable)
  obtain ⟨hpartial, hcolored⟩ := hregisters.extend hwf hown hcount
  refine ⟨_, hpartial, (Array.size_map ..).trans hpartial.size_colors, fun node hnode => ?_,
    Coloring.completes_extend hregisters.size_colors hcount⟩
  obtain ⟨color, hcolor⟩ := hcolored node hnode
  exact hcolor.trans (congrArg some (Table.getD_map_getD hcolor).symm)

/-- Neighbors have different colors. -/
theorem WellFormed.color_ne (hwf : graph.WellFormed) (config : Config) {i j : Nat}
    (h : j ∈ graph.neighbors i) :
    (graph.color config).getD i 0 ≠ (graph.color config).getD j 0 := by
  obtain ⟨coloring, hpartial, -, hcolor, -⟩ := hwf.exists_coloring config
  have hi := hcolor i (hwf.lt_size (hwf.symm h))
  have hj := hcolor j (hwf.lt_size h)
  intro heq
  exact hpartial.ne_of_mem h hi (heq ▸ hj)

/-- A register of the table has its own color. -/
theorem WellFormed.color_register (hwf : graph.WellFormed) {register : Register}
    (hnode : graph.find? (.register register) = some node) {color : Nat}
    (h : config.allocatable.idxOf? register = some color) :
    (graph.color config).getD node 0 = color := by
  obtain ⟨coloring, hpartial, -, hcolor, -⟩ := hwf.exists_coloring config
  have hown : Coloring.ownColor? graph config.allocatable node = some color := by
    rw [Coloring.ownColor?, location?, (hwf.nodes _ _).mp hnode]
    exact h
  obtain hallows | ⟨hnone, -⟩ := hpartial.allows (hcolor node (hwf.nodes.lt_size hnode))
  · exact Option.some_inj.mp (hallows.symm.trans hown)
  · cases hnone.symm.trans hown

/-- A location that is no register of the table has a color that is at most the number of its
neighbors. -/
theorem WellFormed.color_le (hwf : graph.WellFormed) (hnode : node < graph.size)
    (h : Coloring.ownColor? graph config.allocatable node = none) :
    (graph.color config).getD node 0 ≤ (graph.neighbors node).size := by
  obtain ⟨coloring, hpartial, -, hcolor, -⟩ := hwf.exists_coloring config
  obtain hallows | ⟨-, hle⟩ := hpartial.allows (hcolor node hnode)
  · cases h.symm.trans hallows
  · exact hle

/-- A location has fewer neighbors than there are locations. -/
theorem WellFormed.size_neighbors_lt (hwf : graph.WellFormed) (hnode : node < graph.size) :
    (graph.neighbors node).size < graph.size := by
  have hnodup : (node :: (graph.neighbors node).toList).Nodup :=
    List.nodup_cons.mpr ⟨fun hmem => hwf.irrefl node (Std.ExtTreeSet.mem_toList.mp hmem),
      Coloring.nodup_toList _⟩
  have hsubset : node :: (graph.neighbors node).toList ⊆ List.range graph.size := by
    refine List.cons_subset.mpr ⟨List.mem_range.mpr hnode, fun neighbor hneighbor => ?_⟩
    exact List.mem_range.mpr (hwf.lt_size (Std.ExtTreeSet.mem_toList.mp hneighbor))
  have hle := (List.subperm_of_subset hnodup hsubset).length_le
  rwa [List.length_cons, Std.ExtTreeSet.length_toList, List.length_range] at hle

/-- The coloring passes the check. -/
theorem WellFormed.isValidColoring_color (hwf : graph.WellFormed) (config : Config) :
    graph.isValidColoring (graph.color config) = true := by
  refine List.all_eq_true.mpr fun i _ => List.all_eq_true.mpr fun j hj => ?_
  exact bne_iff_ne.mpr (hwf.color_ne config (Std.ExtTreeSet.mem_toList.mp hj)).symm

/-! ## Graphs from nothing -/

/-- An addition to a graph. -/
inductive Step
  | node (location : Location)
  | edge (a b : Location)

/-- The graph with the addition. -/
def Step.apply (graph : InterferenceGraph) : Step → InterferenceGraph
  | .node location => graph.addNode location
  | .edge a b => graph.addEdge a b

/-- The graph that additions build from nothing. -/
def ofSteps (steps : List Step) : InterferenceGraph :=
  steps.foldl Step.apply {}

/-- Every step keeps a graph well formed. -/
theorem WellFormed.apply (hwf : graph.WellFormed) (step : Step) :
    (step.apply graph).WellFormed := by
  cases step with
  | node location => exact hwf.addNode location
  | edge a b => exact hwf.addEdge a b

/-- So graphs built in steps are well formed. -/
theorem wellFormed_ofSteps (steps : List Step) : (ofSteps steps).WellFormed :=
  List.foldlRecOn steps Step.apply wellFormed_empty fun _ hwf step _ => hwf.apply step

/-- Every graph that is built from nothing is colored: the coloring ends by itself after at most one
turn for each location, with a color for each of them; neighbors have different colors; a register
of the table has its first place there as its color; and every other location has a color that is
at most the number of its neighbors. -/
theorem color_ofSteps (config : Config) (steps : List Step) :
    let graph := ofSteps steps
    let colors := graph.color config
    (∃ turns ≤ graph.size, ∃ coloring,
      Coloring.Completes graph turns (.ofRegisters graph config.allocatable) coloring ∧
        ∀ node < graph.size, coloring.colorOf? node = some (colors.getD node 0)) ∧
    colors.size = graph.size ∧
    graph.isValidColoring colors = true ∧
    (∀ node register color, graph.location? node = some (.register register) →
      config.allocatable.idxOf? register = some color → colors.getD node 0 = color) ∧
    ∀ node location, graph.location? node = some location →
      (∀ register ∈ config.allocatable, location ≠ .register register) →
      colors.getD node 0 ≤ (graph.neighbors node).size := by
  intro graph colors
  have hwf : graph.WellFormed := wellFormed_ofSteps steps
  obtain ⟨coloring, -, hsize, hcolors, turns, hturns, hcompletes⟩ := hwf.exists_coloring config
  refine ⟨⟨turns, hturns, coloring, hcompletes, hcolors⟩, hsize, hwf.isValidColoring_color config,
    ?_, ?_⟩
  · intro node register color hnode hcolor
    exact hwf.color_register ((hwf.nodes _ _).mpr hnode) hcolor
  · intro node location hnode hother
    refine hwf.color_le (Array.getElem?_eq_some_iff.mp hnode).1 ?_
    rw [Coloring.ownColor?, hnode]
    cases location with
    | var name => rfl
    | register register =>
      exact List.idxOf?_eq_none_iff.mpr fun hmem => hother register hmem rfl

end InterferenceGraph

end TupleLang
