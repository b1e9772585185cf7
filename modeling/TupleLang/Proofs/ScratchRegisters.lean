import TupleLang.Proofs.CodeShapes
import TupleLang.Proofs.StackWords
import TupleLang.X86.Encoding

/-!
# Code that overwrites scratch registers

An instruction that cannot be encoded becomes a sequence that goes through `%rax` or `%r11`, so the
machine that runs it ends up with other words in these registers.  `Machine.AgreesExcept` compares
two machines in everything but some registers; of memory it compares what can be loaded, since a
move that was dropped may have stored a word where it was found.

`X86.Survives` says that patching keeps what code does, if the machines agree except for some
registers before and are to agree except for others afterwards.  There is one lemma for each kind of
instruction; they say which operands must not depend on scratch registers.
-/

namespace TupleLang

open X86 (BinaryOperator Instruction Operand Register)

namespace X86.Operand

/-- The registers that the value or the place of an operand depends on. -/
def registers : Operand → List Register
  | .register full => [full]
  | .byteRegister low => [low.full]
  | .deref base _ => [base]
  | .immediate _ | .var _ | .global _ => []

/-- The operand does not depend on any of the registers. -/
def Avoids (operand : Operand) (unknown : List Register) : Prop :=
  ∀ full ∈ operand.registers, full ∉ unknown

end X86.Operand

namespace Word

/-- A low byte that was set is found again. -/
theorem lowByte_set (full low : Word) :
    (full &&& ~~~255 ||| low &&& 255) &&& 255 = low &&& 255 := by
  rw [← Int64.toBitVec_inj]
  simp only [Int64.toBitVec_or, Int64.toBitVec_and, Int64.toBitVec_not]
  ext i hi
  simp only [BitVec.getElem_or, BitVec.getElem_and, BitVec.getElem_not]
  grind

/-- Setting a low byte to what it is changes nothing. -/
theorem set_lowByte (full : Word) : full &&& ~~~255 ||| full &&& 255 &&& 255 = full := by
  rw [← Int64.toBitVec_inj]
  simp only [Int64.toBitVec_or, Int64.toBitVec_and, Int64.toBitVec_not]
  ext i hi
  simp only [BitVec.getElem_or, BitVec.getElem_and, BitVec.getElem_not]
  grind

end Word

namespace Machine

/-- The machines agree in everything but some registers. -/
structure AgreesExcept (unknown : List Register) (machine machine' : Machine) : Prop where
  register_eq : ∀ full ∉ unknown, machine'.register full = machine.register full
  load_eq : ∀ address, machine'.memory.load address = machine.memory.load address
  regions_eq : machine'.memory.regions = machine.memory.regions
  globals_eq : machine'.globals = machine.globals
  flags_eq : machine'.flags = machine.flags
  heap_eq : machine'.heap? = machine.heap?
  nextHeap_eq : machine'.nextHeap = machine.nextHeap
  next_eq : machine'.next = machine.next
  events_eq : machine'.events = machine.events
  bindings_eq : machine'.bindings = machine.bindings

namespace AgreesExcept

variable {image : Image} {unknown unknown' : List Register} {machine machine' result : Machine}
  {operand source destination : Operand} {word : Word} {operator : BinaryOperator}

/-- A machine agrees with itself. -/
theorem refl (unknown : List Register) (machine : Machine) :
    machine.AgreesExcept unknown machine :=
  ⟨fun _ _ => rfl, fun _ => rfl, rfl, rfl, rfl, rfl, rfl, rfl, rfl, rfl⟩

section Agreeing

variable (h : machine.AgreesExcept unknown machine')
include h

/-- More registers may be unknown. -/
theorem mono (hsubset : unknown ⊆ unknown') : machine.AgreesExcept unknown' machine' :=
  { h with register_eq := fun full hfull => h.register_eq full fun hmem => hfull (hsubset hmem) }

/-- Agreement is symmetric. -/
theorem symm : machine'.AgreesExcept unknown machine where
  register_eq full hfull := (h.register_eq full hfull).symm
  load_eq address := (h.load_eq address).symm
  regions_eq := h.regions_eq.symm
  globals_eq := h.globals_eq.symm
  flags_eq := h.flags_eq.symm
  heap_eq := h.heap_eq.symm
  nextHeap_eq := h.nextHeap_eq.symm
  next_eq := h.next_eq.symm
  events_eq := h.events_eq.symm
  bindings_eq := h.bindings_eq.symm

/-- Agreement is transitive. -/
theorem trans {machine'' : Machine} (h' : machine'.AgreesExcept unknown machine'') :
    machine.AgreesExcept unknown machine'' where
  register_eq full hfull := (h'.register_eq full hfull).trans (h.register_eq full hfull)
  load_eq address := (h'.load_eq address).trans (h.load_eq address)
  regions_eq := h'.regions_eq.trans h.regions_eq
  globals_eq := h'.globals_eq.trans h.globals_eq
  flags_eq := h'.flags_eq.trans h.flags_eq
  heap_eq := h'.heap_eq.trans h.heap_eq
  nextHeap_eq := h'.nextHeap_eq.trans h.nextHeap_eq
  next_eq := h'.next_eq.trans h.next_eq
  events_eq := h'.events_eq.trans h.events_eq
  bindings_eq := h'.bindings_eq.trans h.bindings_eq

/-! ## Reading -/

/-- Operands that avoid unknown registers have the same value. -/
theorem read_eq (havoids : operand.Avoids unknown) :
    machine'.read operand = machine.read operand := by
  cases operand with
  | immediate value => rfl
  | register full =>
    exact congrArg Except.ok (h.register_eq full (havoids full List.mem_cons_self))
  | byteRegister low =>
    exact congrArg (fun word => Except.ok (word &&& 255))
      (h.register_eq low.full (havoids low.full List.mem_cons_self))
  | var name => rw [read, read, h.bindings_eq]
  | deref base offset =>
    rw [read, read, load, load, h.register_eq base (havoids base List.mem_cons_self), h.load_eq]
  | global name => rw [read, read, global, global, h.globals_eq]

/-- They have the same address, too. -/
theorem effectiveAddress_eq (havoids : operand.Avoids unknown) :
    machine'.effectiveAddress image operand = machine.effectiveAddress image operand := by
  cases operand with
  | deref base offset =>
    rw [effectiveAddress, effectiveAddress,
      h.register_eq base (havoids base List.mem_cons_self)]
  | _ => rfl

/-! ## Writing -/

/-- The same word in a register of both machines. -/
theorem setRegister {full : Register}
    (hunknown : ∀ other ∈ unknown, other = full ∨ other ∈ unknown') (word : Word) :
    (machine.setRegister full word).AgreesExcept unknown' (machine'.setRegister full word) := by
  refine { h with register_eq := fun other hother => ?_ }
  by_cases heq : other = full
  · subst heq
    rw [register_setRegister_self, register_setRegister_self]
  · rw [register_setRegister_of_ne _ _ heq, register_setRegister_of_ne _ _ heq]
    exact h.register_eq other fun hmem =>
      hother ((hunknown other hmem).resolve_left heq)

/-- A word in an unknown register of the second machine. -/
theorem setUnknown {full : Register} (hfull : full ∈ unknown) (word : Word) :
    machine.AgreesExcept unknown (machine'.setRegister full word) := by
  refine { h with register_eq := fun other hother => ?_ }
  have hne : other ≠ full := fun heq => hother (heq ▸ hfull)
  rw [register_setRegister_of_ne _ _ hne]
  exact h.register_eq other hother

/-- A low byte of an unknown register of both machines. -/
theorem setLowByte {low : X86.ByteRegister} (hlow : low.full ∈ unknown) (word : Word) :
    (machine.setLowByte low word).AgreesExcept unknown (machine'.setLowByte low word) := by
  have hsecond : machine.AgreesExcept unknown (machine'.setLowByte low word) :=
    h.setUnknown hlow _
  exact (hsecond.symm.setUnknown hlow _).symm

/-- The same word at the same address. -/
theorem store {address : Word} (hstore : machine.store address word = .ok result) :
    ∃ result', machine'.store address word = .ok result' ∧ result.AgreesExcept unknown result' := by
  obtain ⟨memory, hmemory, hresult⟩ := Except.bind_eq_ok.mp hstore
  cases hresult
  obtain ⟨region, hregion, rfl⟩ := Memory.exists_region_of_store hmemory
  have hregion' : machine'.memory.region address = .ok region := by
    rw [← hregion, Memory.region, Memory.region, h.regions_eq]
  have hmemory' := Memory.store_eq_ok hregion' word
  refine ⟨_, Except.bind_eq_ok.mpr ⟨_, hmemory', rfl⟩, { h with load_eq := fun other => ?_ }⟩
  by_cases heq : address = other
  · subst heq
    rw [Memory.load_of_store hmemory', Memory.load_of_store hmemory]
  · rw [Memory.load_of_store_of_ne hmemory' heq, Memory.load_of_store_of_ne hmemory heq]
    exact h.load_eq other

/-- The same word in an operand that does not depend on unknown registers. -/
theorem write (havoids : operand.Avoids unknown)
    (hwrite : machine.write operand word = .ok result) :
    ∃ result', machine'.write operand word = .ok result' ∧ result.AgreesExcept unknown result' := by
  cases operand with
  | immediate value => cases hwrite
  | register full =>
    cases hwrite
    exact ⟨_, rfl, h.setRegister (fun _ => .inr) word⟩
  | byteRegister low =>
    cases hwrite
    refine ⟨_, rfl, ?_⟩
    rw [Machine.setLowByte, Machine.setLowByte,
      h.register_eq low.full (havoids low.full List.mem_cons_self)]
    exact h.setRegister (fun _ => .inr) _
  | var name =>
    obtain ⟨values, hbindings, rfl⟩ := write_var_eq_ok hwrite
    rw [Machine.write, h.bindings_eq, hbindings]
    exact ⟨_, rfl, { h with bindings_eq := rfl }⟩
  | deref base offset =>
    have hbase := h.register_eq base (havoids base List.mem_cons_self)
    rw [Machine.write, hbase]
    exact h.store hwrite
  | global name =>
    obtain ⟨value, hvalue, hresult⟩ := Except.bind_eq_ok.mp hwrite
    cases hresult
    have hvalue' : machine'.global name = .ok value := by
      rw [← hvalue, global, global, h.globals_eq]
    refine ⟨_, Except.bind_eq_ok.mpr ⟨value, hvalue', rfl⟩, { h with globals_eq := ?_ }⟩
    rw [setGlobal, setGlobal, h.globals_eq]

end Agreeing

/-- A register that is set to its own word. -/
theorem setRegister_self (machine : Machine) (full : Register) :
    (machine.setRegister full (machine.register full)).AgreesExcept [] machine := by
  refine { refl [] machine with register_eq := fun other _ => ?_ }
  by_cases heq : other = full
  · subst heq
    rw [register_setRegister_self]
  · rw [register_setRegister_of_ne _ _ heq]

/-- A word that is written to where it is read from changes nothing. -/
theorem write_read (hread : machine.read operand = .ok word)
    (hwrite : machine.write operand word = .ok result) : result.AgreesExcept [] machine := by
  cases operand with
  | immediate value => cases hwrite
  | register full =>
    cases hread
    cases hwrite
    exact setRegister_self machine full
  | byteRegister low =>
    cases hread
    cases hwrite
    rw [Machine.setLowByte, Word.set_lowByte]
    exact setRegister_self machine low.full
  | var name =>
    obtain ⟨values, hbindings, rfl⟩ := write_var_eq_ok hwrite
    rw [read, hbindings] at hread
    cases hread
    refine { refl [] machine with bindings_eq := ?_ }
    rw [hbindings]
    refine congrArg some (funext fun other => ?_)
    split
    · next heq => rw [heq]
    · rfl
  | deref base offset =>
    obtain ⟨memory, hmemory, hresult⟩ := Except.bind_eq_ok.mp hwrite
    cases hresult
    refine { refl [] machine with
      load_eq := fun address => ?_, regions_eq := (Memory.regions_of_store hmemory).symm }
    by_cases heq : machine.register base + offset = address
    · subst heq
      exact hread.trans (Memory.load_of_store hmemory).symm
    · exact (Memory.load_of_store_of_ne hmemory heq).symm
  | global name =>
    obtain ⟨value, -, hresult⟩ := Except.bind_eq_ok.mp hwrite
    cases hresult
    refine { refl [] machine with globals_eq := ?_ }
    have hword : machine.globals[name]? = some word := by
      rw [read, global] at hread
      split at hread
      · next hfound =>
        cases hread
        exact hfound
      · cases hread
    refine Std.ExtTreeMap.ext_getElem? fun other => ?_
    rw [setGlobal, Std.ExtTreeMap.getElem?_insert]
    split
    · next heq =>
      rw [← Std.LawfulEqCmp.compare_eq_iff_eq.mp heq, hword]
    · rfl

/-! ## Instructions with two operands -/

/-- All but `leaq` read their source. -/
theorem exists_read (hoperator : operator ≠ .leaq)
    (h : machine.executeBinary image operator source destination = .ok result) :
    ∃ word, machine.read source = .ok word := by
  cases operator with
  | leaq => exact absurd rfl hoperator
  | _ =>
    obtain ⟨word, hword, -⟩ := Except.bind_eq_ok.mp h
    exact ⟨word, hword⟩

/-- An instruction does the same on both machines, even with another source, if the sources have the
same value. -/
theorem executeBinary (h : machine.AgreesExcept unknown machine') {source' : Operand}
    (hoperator : operator ≠ .leaq) (hsource : machine'.read source' = machine.read source)
    (hdestination : destination.Avoids unknown)
    (hexecute : machine.executeBinary image operator source destination = .ok result) :
    ∃ result', machine'.executeBinary image operator source' destination = .ok result' ∧
      result.AgreesExcept unknown result' := by
  cases operator with
  | leaq => exact absurd rfl hoperator
  | cmpq =>
    obtain ⟨value, hvalue, hexecute⟩ := Except.bind_eq_ok.mp hexecute
    obtain ⟨old, hold, hresult⟩ := Except.bind_eq_ok.mp hexecute
    cases hresult
    have hold' := (h.read_eq hdestination).trans hold
    refine ⟨_, Except.bind_eq_ok.mpr ⟨value, hsource.trans hvalue,
      Except.bind_eq_ok.mpr ⟨old, hold', rfl⟩⟩, { h with flags_eq := rfl }⟩
  | movq | movzbq =>
    obtain ⟨value, hvalue, hwrite⟩ := Except.bind_eq_ok.mp hexecute
    obtain ⟨result', hwrite', hagrees⟩ := h.write hdestination hwrite
    exact ⟨result', Except.bind_eq_ok.mpr ⟨value, hsource.trans hvalue, hwrite'⟩, hagrees⟩
  | addq | subq | imulq | andq | orq | xorq =>
    obtain ⟨value, hvalue, hexecute⟩ := Except.bind_eq_ok.mp hexecute
    obtain ⟨old, hold, hwrite⟩ := Except.bind_eq_ok.mp hexecute
    have hold' := (h.read_eq hdestination).trans hold
    obtain ⟨result', hwrite', hagrees⟩ := h.write hdestination hwrite
    exact ⟨result', Except.bind_eq_ok.mpr ⟨value, hsource.trans hvalue,
      Except.bind_eq_ok.mpr ⟨old, hold', hwrite'⟩⟩, hagrees⟩

/-- A move into a register, on the second machine only. -/
theorem advance_load (image : Image) (h : machine.AgreesExcept unknown machine')
    (havoids : operand.Avoids unknown) (hread : machine.read operand = .ok word)
    (full : Register) : machine'.advance image (.movq operand (.register full)) =
      .ok (machine'.setRegister full word) := by
  rw [Instruction.movq, advance_binary]
  exact Except.bind_eq_ok.mpr ⟨word, (h.read_eq havoids).trans hread, rfl⟩

end AgreesExcept

end Machine

/-! ## Patched code -/

namespace X86

open Machine (AgreesExcept executeAll_cons executeAll_cons_of_ok executeAll_singleton)

variable {image : Image} {unknown unknown' unknown'' : List Register}
  {code code' patched patched' : List Instruction}

/-- Whatever the first code does, the second one does too, on machines that agree except for some
registers; afterwards the machines agree except for others. -/
def Mirrors (image : Image) (unknown unknown' : List Register) (code patched : List Instruction) :
    Prop :=
  ∀ machine machine' result : Machine, machine.AgreesExcept unknown machine' →
    machine.executeAll image code = .ok result →
    ∃ result', machine'.executeAll image patched = .ok result' ∧
      result.AgreesExcept unknown' result'

/-- Patching keeps what the code does. -/
def Survives (image : Image) (unknown unknown' : List Register) (code : List Instruction) : Prop :=
  Mirrors image unknown unknown' code (code.flatMap Instruction.patch)

namespace Mirrors

/-- Fewer registers unknown before, more afterwards. -/
theorem mono {less more : List Register} (h : Mirrors image unknown unknown' code patched)
    (hless : less ⊆ unknown) (hmore : unknown' ⊆ more) : Mirrors image less more code patched := by
  intro machine machine' result hagrees hexecute
  obtain ⟨result', hexecute', hagrees'⟩ := h machine machine' result (hagrees.mono hless) hexecute
  exact ⟨result', hexecute', hagrees'.mono hmore⟩

/-- Sequences mirror each other piece by piece. -/
theorem append (h : Mirrors image unknown unknown' code patched)
    (h' : Mirrors image unknown' unknown'' code' patched') :
    Mirrors image unknown unknown'' (code ++ code') (patched ++ patched') := by
  intro machine machine' result hagrees hexecute
  rw [Machine.executeAll_append] at hexecute
  obtain ⟨middle, hmiddle, hresult⟩ := Except.bind_eq_ok.mp hexecute
  obtain ⟨middle', hmiddle', hagrees'⟩ := h machine machine' middle hagrees hmiddle
  obtain ⟨result', hresult', hagrees''⟩ := h' middle middle' result hagrees' hresult
  refine ⟨result', ?_, hagrees''⟩
  rw [Machine.executeAll_append_of_ok _ hmiddle']
  exact hresult'

end Mirrors

namespace Survives

/-- Fewer registers unknown before, more afterwards. -/
theorem mono {less more : List Register} (h : Survives image unknown unknown' code)
    (hless : less ⊆ unknown) (hmore : unknown' ⊆ more) : Survives image less more code :=
  Mirrors.mono h hless hmore

/-- No code survives. -/
theorem nil (unknown : List Register) : Survives image unknown unknown [] := by
  intro machine machine' result hagrees hexecute
  cases hexecute
  exact ⟨machine', rfl, hagrees⟩

/-- Code that survives can be joined. -/
theorem append (h : Survives image unknown unknown' code)
    (h' : Survives image unknown' unknown'' code') :
    Survives image unknown unknown'' (code ++ code') := by
  rw [Survives, List.flatMap_append]
  exact Mirrors.append h h'

/-- The same, an instruction at a time. -/
theorem cons {instruction : Instruction} (h : Survives image unknown unknown' [instruction])
    (h' : Survives image unknown' unknown'' code') :
    Survives image unknown unknown'' (instruction :: code') :=
  h.append h'

/-- Code each of whose instructions survives. -/
theorem of_forall (h : ∀ instruction ∈ code, Survives image unknown unknown [instruction]) :
    Survives image unknown unknown code := by
  induction code with
  | nil => exact nil unknown
  | cons instruction code ih =>
    obtain ⟨hfirst, hcode⟩ := List.forall_mem_cons.mp h
    exact hfirst.cons (ih hcode)

end Survives

/-! ## Single instructions -/

section Single

variable {operator : BinaryOperator} {source destination operand : Operand} {full : Register}
  {machine machine' result : Machine} {word : Word}

/-- An instruction mirrors itself, away from unknown registers. -/
theorem mirrors_binary (hoperator : operator ≠ .leaq) (hsource : source.Avoids unknown)
    (hdestination : destination.Avoids unknown) :
    Mirrors image unknown unknown [.binary operator source destination]
      [.binary operator source destination] := by
  intro machine machine' result hagrees hexecute
  rw [executeAll_singleton, Machine.advance_binary] at hexecute ⊢
  exact hagrees.executeBinary hoperator (hagrees.read_eq hsource) hdestination hexecute

/-- A move of a value to where it is disappears. -/
theorem mirrors_selfMove : Mirrors image unknown unknown [.movq operand operand] [] := by
  intro machine machine' result hagrees hexecute
  rw [executeAll_singleton, Instruction.movq, Machine.advance_binary] at hexecute
  obtain ⟨word, hword, hwrite⟩ := Except.bind_eq_ok.mp hexecute
  have hsame := AgreesExcept.write_read hword hwrite
  exact ⟨machine', rfl, (hsame.mono (List.nil_subset _)).trans hagrees⟩

/-- A move out of a register needs no scratch register. -/
theorem survives_movq_fromRegister (hfull : full ∉ unknown)
    (hdestination : destination.Avoids unknown) :
    Survives image unknown unknown [.movq (.register full) destination] := by
  rw [Survives, List.flatMap_singleton, Instruction.movq, Instruction.patch, Encoding.binary]
  have hplain : (destination.isMemory && ((Operand.register full).isMemory ||
      (Operand.register full).isWideImmediate)) = false := Bool.and_false _
  rw [hplain, if_neg Bool.false_ne_true]
  split
  · next hsame =>
    subst hsame
    exact mirrors_selfMove
  · exact mirrors_binary BinaryOperator.noConfusion (List.forall_mem_singleton.mpr hfull)
      hdestination

/-- Arithmetic with a narrow constant on a register needs no scratch register. -/
theorem survives_narrow {value : Word} (hoperator : operator.isArithmetic = true)
    (hvalue : value.isNarrow = true) (hfull : full ∉ unknown) :
    Survives image unknown unknown [.binary operator (.immediate value) (.register full)] := by
  have hpatch : (Instruction.binary operator (.immediate value) (.register full)).patch =
      [.binary operator (.immediate value) (.register full)] := by
    have hgeneral : Encoding.general operator (.immediate value) (.register full) =
        [.binary operator (.immediate value) (.register full)] := by
      simp [Encoding.general, Operand.isWideImmediate, Operand.isMemory, hvalue]
    cases operator with
    | addq | subq | imulq | andq | orq | xorq => exact hgeneral
    | _ => cases hoperator
  rw [Survives, List.flatMap_singleton, hpatch]
  have hleaq : operator ≠ .leaq := by
    rintro rfl
    cases hoperator
  exact mirrors_binary hleaq (List.forall_mem_nil _) (List.forall_mem_singleton.mpr hfull)

/-- A value that the second machine finds in `%rax` is moved to the destination. -/
theorem exists_moveScratch (hagrees : machine.AgreesExcept unknown machine')
    (hrax : machine'.register .rax = word) (hdestination : destination.Avoids unknown)
    (hwrite : machine.write destination word = .ok result) :
    ∃ result', machine'.executeAll image [.movq Encoding.rax destination] = .ok result' ∧
      result.AgreesExcept unknown result' := by
  obtain ⟨result', hwrite', hagrees'⟩ := hagrees.write hdestination hwrite
  refine ⟨result', ?_, hagrees'⟩
  rw [executeAll_singleton, Instruction.movq, Machine.advance_binary]
  exact Except.bind_eq_ok.mpr ⟨word, congrArg Except.ok hrax, hwrite'⟩

/-- The detour by way of `%rax`: loads, then the operation. -/
theorem throughScratch_eq (operator : BinaryOperator) (source destination : Operand) :
    Encoding.throughScratch operator source destination =
      ((Encoding.narrowSource source).1 ++ [.movq destination Encoding.rax]) ++
        [.binary operator (Encoding.narrowSource source).2 Encoding.rax] := by
  rw [Encoding.throughScratch, List.append_assoc]
  rfl

section Scratch

variable (hrax : .rax ∈ unknown) (hsource : source.Avoids unknown)
  (hdestination : destination.Avoids unknown)
include hrax hsource hdestination

/-- An instruction takes its source from `%rax` instead. -/
theorem mirrors_throughSource (hoperator : operator ≠ .leaq) :
    Mirrors image unknown unknown [.binary operator source destination]
      [.movq source Encoding.rax, .binary operator Encoding.rax destination] := by
  intro machine machine' result hagrees hexecute
  rw [executeAll_singleton, Machine.advance_binary] at hexecute
  obtain ⟨word, hword⟩ := AgreesExcept.exists_read hoperator hexecute
  have hload := hagrees.advance_load image hsource hword .rax
  have hread : (machine'.setRegister .rax word).read Encoding.rax = machine.read source :=
    (congrArg Except.ok (Machine.register_setRegister_self ..)).trans hword.symm
  rw [Encoding.rax, executeAll_cons_of_ok _ hload, executeAll_singleton, Machine.advance_binary]
  exact (hagrees.setUnknown hrax word).executeBinary hoperator hread hdestination hexecute

/-- A detour mirrors the instruction itself. -/
theorem mirrors_general (hoperator : operator ≠ .leaq) :
    Mirrors image unknown unknown [.binary operator source destination]
      (Encoding.general operator source destination) := by
  unfold Encoding.general
  split
  · exact mirrors_throughSource hrax hsource hdestination hoperator
  · exact mirrors_binary hoperator hsource hdestination

/-- Moves survive. -/
theorem survives_movq : Survives image unknown unknown [.movq source destination] := by
  rw [Survives, List.flatMap_singleton, Instruction.movq, Instruction.patch, Encoding.binary]
  split
  · next hsame =>
    subst hsame
    exact mirrors_selfMove
  split
  · exact mirrors_throughSource hrax hsource hdestination BinaryOperator.noConfusion
  · exact mirrors_binary BinaryOperator.noConfusion hsource hdestination

/-- The address of a place reaches memory by way of `%rax`. -/
theorem survives_leaq (hnarrow : source.isWideImmediate = false) :
    Survives image unknown unknown [.leaq source destination] := by
  rw [Survives, List.flatMap_singleton, Instruction.leaq, Instruction.patch, Encoding.binary]
  intro machine machine' result hagrees hexecute
  rw [executeAll_singleton, Machine.advance_binary] at hexecute
  obtain ⟨address, haddress, hwrite⟩ := Except.bind_eq_ok.mp hexecute
  have haddress' := (hagrees.effectiveAddress_eq hsource).trans haddress
  split
  · have hmiddle : machine'.advance image (.binary .leaq source Encoding.rax) =
        .ok (machine'.setRegister .rax address) := by
      rw [Machine.advance_binary]
      exact Except.bind_eq_ok.mpr ⟨address, haddress', rfl⟩
    rw [executeAll_cons_of_ok _ hmiddle]
    exact exists_moveScratch (hagrees.setUnknown hrax address)
      (Machine.register_setRegister_self ..) hdestination hwrite
  · next hregister =>
    have hplain : (source.isWideImmediate || source.isMemory && destination.isMemory) = false := by
      simp [hnarrow, hregister]
    obtain ⟨result', hwrite', hagrees'⟩ := hagrees.write hdestination hwrite
    rw [Encoding.general, hplain, if_neg Bool.false_ne_true, executeAll_singleton,
      Machine.advance_binary]
    exact ⟨result', Except.bind_eq_ok.mpr ⟨address, haddress', hwrite'⟩, hagrees'⟩

/-- The second machine comes to have the value of the destination in `%rax` and that of the source,
which may have to wait in `%r11`, in the operand that is left. -/
theorem exists_throughScratch (image : Image) {machine machine' : Machine} {value old : Word}
    (hagrees : machine.AgreesExcept unknown machine') (hr11 : .r11 ∈ unknown)
    (hvalue : machine.read source = .ok value) (hold : machine.read destination = .ok old) :
    ∃ middle, machine'.executeAll image
        ((Encoding.narrowSource source).1 ++ [.movq destination Encoding.rax]) = .ok middle ∧
      middle.read (Encoding.narrowSource source).2 = .ok value ∧
      middle.register .rax = old ∧ machine.AgreesExcept unknown middle := by
  unfold Encoding.narrowSource
  split
  · have hwait := hagrees.advance_load image hsource hvalue .r11
    have hagrees₁ := hagrees.setUnknown hr11 value
    have hload := hagrees₁.advance_load image hdestination hold .rax
    refine ⟨(machine'.setRegister .r11 value).setRegister .rax old, ?_, congrArg Except.ok ?_,
      Machine.register_setRegister_self .., hagrees₁.setUnknown hrax old⟩
    · rw [Encoding.r11, Encoding.rax, List.singleton_append, executeAll_cons_of_ok _ hwait,
        executeAll_singleton, hload]
    · rw [Machine.register_setRegister_of_ne _ _ Register.noConfusion,
        Machine.register_setRegister_self]
  · have hload := hagrees.advance_load image hdestination hold .rax
    have hagrees' := hagrees.setUnknown hrax old
    refine ⟨machine'.setRegister .rax old, ?_, (hagrees'.read_eq hsource).trans hvalue,
      Machine.register_setRegister_self .., hagrees'⟩
    exact (executeAll_singleton _).trans hload

/-- Products survive if `%r11` is unknown. -/
theorem survives_imulq (hr11 : .r11 ∈ unknown) :
    Survives image unknown unknown [.binary .imulq source destination] := by
  rw [Survives, List.flatMap_singleton, Instruction.patch, Encoding.binary]
  split
  · intro machine machine' result hagrees hexecute
    rw [executeAll_singleton, Machine.advance_binary] at hexecute
    obtain ⟨value, hvalue, hexecute⟩ := Except.bind_eq_ok.mp hexecute
    obtain ⟨old, hold, hwrite⟩ := Except.bind_eq_ok.mp hexecute
    obtain ⟨middle, hmiddle, hvalue', hold', hagrees'⟩ :=
      exists_throughScratch hrax hsource hdestination image hagrees hr11 hvalue hold
    have hproduct : middle.advance image (.binary .imulq (Encoding.narrowSource source).2
        Encoding.rax) = .ok (middle.setRegister .rax (Machine.compute .imulq old value)) := by
      rw [Machine.advance_binary, Machine.executeBinary, hvalue', ← hold']
      rfl
    rw [throughScratch_eq, List.append_assoc, Machine.executeAll_append_of_ok _ hmiddle,
      List.singleton_append, executeAll_cons_of_ok _ hproduct]
    exact exists_moveScratch (hagrees'.setUnknown hrax _) (Machine.register_setRegister_self ..)
      hdestination hwrite
  · exact mirrors_general hrax hsource hdestination BinaryOperator.noConfusion

/-- Comparisons survive if `%r11` is unknown. -/
theorem survives_cmpq (hr11 : .r11 ∈ unknown) :
    Survives image unknown unknown [.cmpq source destination] := by
  rw [Survives, List.flatMap_singleton, Instruction.cmpq, Instruction.patch, Encoding.binary]
  split
  · intro machine machine' result hagrees hexecute
    rw [executeAll_singleton, Machine.advance_binary] at hexecute
    obtain ⟨value, hvalue, hexecute⟩ := Except.bind_eq_ok.mp hexecute
    obtain ⟨old, hold, hresult⟩ := Except.bind_eq_ok.mp hexecute
    cases hresult
    obtain ⟨middle, hmiddle, hvalue', hold', hagrees'⟩ :=
      exists_throughScratch hrax hsource hdestination image hagrees hr11 hvalue hold
    refine ⟨{ middle with flags := (old, value) }, ?_, { hagrees' with flags_eq := rfl }⟩
    rw [throughScratch_eq, Machine.executeAll_append_of_ok _ hmiddle, executeAll_singleton,
      Machine.advance_binary, Machine.executeBinary, hvalue', ← hold']
    rfl
  · exact mirrors_general hrax hsource hdestination BinaryOperator.noConfusion

/-- Arithmetic needs `%rax` as a scratch register, and `%r11` besides for products. -/
theorem survives_arithmetic (hoperator : operator.isArithmetic = true)
    (hr11 : operator = .imulq → .r11 ∈ unknown) :
    Survives image unknown unknown [.binary operator source destination] := by
  cases operator with
  | imulq => exact survives_imulq hrax hsource hdestination (hr11 rfl)
  | addq | subq | andq | orq | xorq =>
    rw [Survives, List.flatMap_singleton]
    exact mirrors_general hrax hsource hdestination BinaryOperator.noConfusion
  | _ => cases hoperator

end Scratch

/-- A move into a register makes the register known. -/
theorem survives_movq_register (hsource : source.Avoids unknown) (hfull : full ∈ unknown)
    (hunknown : ∀ other ∈ unknown, other = full ∨ other ∈ unknown') :
    Survives image unknown unknown' [.movq source (.register full)] := by
  have hne : source ≠ .register full := by
    rintro rfl
    exact hsource full List.mem_cons_self hfull
  have hpatch : (Instruction.movq source (.register full)).patch =
      [.movq source (.register full)] := by
    rw [Instruction.movq, Instruction.patch, Encoding.binary, if_neg hne]
    rfl
  rw [Survives, List.flatMap_singleton, hpatch]
  intro machine machine' result hagrees hexecute
  rw [executeAll_singleton, Instruction.movq, Machine.advance_binary] at hexecute
  obtain ⟨word, hword, hwrite⟩ := Except.bind_eq_ok.mp hexecute
  cases hwrite
  refine ⟨_, ?_, hagrees.setRegister hunknown word⟩
  rw [executeAll_singleton]
  exact hagrees.advance_load image hsource hword full

/-- Negations survive. -/
theorem survives_negq (hoperand : operand.Avoids unknown) :
    Survives image unknown unknown [.negq operand] := by
  intro machine machine' result hagrees hexecute
  rw [executeAll_singleton, Machine.advance_negq] at hexecute
  obtain ⟨word, hword, hwrite⟩ := Except.bind_eq_ok.mp hexecute
  obtain ⟨result', hwrite', hagrees'⟩ := hagrees.write hoperand hwrite
  refine ⟨result', ?_, hagrees'⟩
  change machine'.executeAll image [.negq operand] = _
  rw [executeAll_singleton, Machine.advance_negq]
  exact Except.bind_eq_ok.mpr ⟨word, (hagrees.read_eq hoperand).trans hword, hwrite'⟩

/-- Comments survive. -/
theorem survives_comment (text : String) : Survives image unknown unknown [.comment text] := by
  intro machine machine' result hagrees hexecute
  cases hexecute
  exact ⟨machine', rfl, hagrees⟩

/-- Both machines push the same word, the second one from anywhere. -/
theorem exists_push {operand' : Operand} (hagrees : machine.AgreesExcept unknown machine')
    (hrsp : .rsp ∉ unknown) (hread : machine'.read operand' = .ok word)
    (hpush : machine.push word = .ok result) :
    ∃ result', machine'.executeAll image [.pushq operand'] = .ok result' ∧
      result.AgreesExcept unknown result' := by
  obtain ⟨stored, hstore, hresult⟩ := Except.bind_eq_ok.mp hpush
  cases hresult
  obtain ⟨stored', hstore', hagrees'⟩ := hagrees.store hstore
  refine ⟨stored'.setRegister .rsp (machine.register .rsp - 8), ?_,
    hagrees'.setRegister (fun _ => .inr) _⟩
  rw [executeAll_singleton, Machine.advance_pushq]
  refine Except.bind_eq_ok.mpr ⟨word, hread, ?_⟩
  rw [Machine.push, hagrees.register_eq .rsp hrsp]
  exact Except.bind_eq_ok.mpr ⟨stored', hstore', rfl⟩

/-- Pushes survive if `%rax` is unknown. -/
theorem survives_pushq (hrax : .rax ∈ unknown) (hrsp : .rsp ∉ unknown)
    (hoperand : operand.Avoids unknown) : Survives image unknown unknown [.pushq operand] := by
  rw [Survives, List.flatMap_singleton, Instruction.patch]
  intro machine machine' result hagrees hexecute
  rw [executeAll_singleton, Machine.advance_pushq] at hexecute
  obtain ⟨word, hword, hpush⟩ := Except.bind_eq_ok.mp hexecute
  split
  · rw [Encoding.rax, executeAll_cons_of_ok _ (hagrees.advance_load image hoperand hword .rax)]
    exact exists_push (hagrees.setUnknown hrax word) hrsp
      (congrArg Except.ok (Machine.register_setRegister_self ..)) hpush
  · exact exists_push hagrees hrsp ((hagrees.read_eq hoperand).trans hword) hpush

/-- A low byte that was set is read again. -/
theorem read_setLowByte (machine : Machine) (low : ByteRegister) (word : Word) :
    (machine.setLowByte low word).read (.byteRegister low) = .ok (word &&& 255) := by
  rw [Machine.read, Machine.setLowByte, Machine.register_setRegister_self, Word.lowByte_set]

/-- The extension of a low byte that both machines have set, whatever else is in the register. -/
theorem exists_extend {low : ByteRegister} (hagrees : machine.AgreesExcept unknown machine')
    (hrax : .rax ∈ unknown) (hlow : machine.read (.byteRegister low) = .ok word)
    (hlow' : machine'.read (.byteRegister low) = .ok word)
    (hdestination : destination.Avoids unknown)
    (hexecute : machine.executeBinary image .movzbq (.byteRegister low) destination =
      .ok result) :
    ∃ result', machine'.executeAll image
        (Instruction.binary .movzbq (.byteRegister low) destination).patch = .ok result' ∧
      result.AgreesExcept unknown result' := by
  rw [Instruction.patch, Encoding.binary]
  split
  · obtain ⟨value, hvalue, hwrite⟩ := Except.bind_eq_ok.mp hexecute
    cases hlow.symm.trans hvalue
    have hload : machine'.advance image (.binary .movzbq (.byteRegister low) Encoding.rax) =
        .ok (machine'.setRegister .rax (Machine.compute .movzbq 0 word)) := by
      rw [Machine.advance_binary]
      exact Except.bind_eq_ok.mpr ⟨word, hlow', rfl⟩
    rw [executeAll_cons_of_ok _ hload]
    exact exists_moveScratch (hagrees.setUnknown hrax _)
      (Machine.register_setRegister_self ..) hdestination hwrite
  · have hplain : Encoding.general .movzbq (.byteRegister low) destination =
        [.binary .movzbq (.byteRegister low) destination] := rfl
    rw [hplain, executeAll_singleton, Machine.advance_binary]
    exact hagrees.executeBinary BinaryOperator.noConfusion (hlow'.trans hlow.symm) hdestination
      hexecute

/-- The value of a comparison goes through the low byte of `%rax`, whatever the rest of it is. -/
theorem survives_setAndExtend (condition : Condition) (hrax : .rax ∈ unknown)
    (hdestination : destination.Avoids unknown) :
    Survives image unknown unknown [.set condition (.byteRegister .al),
      .binary .movzbq (.byteRegister .al) destination] := by
  intro machine machine' result hagrees hexecute
  have hset (machine : Machine) : machine.advance image (.set condition (.byteRegister .al)) =
      .ok (machine.setLowByte .al
        (Word.ofBool (condition.holds machine.flags.1 machine.flags.2))) :=
    Machine.advance_set condition _
  rw [executeAll_cons_of_ok _ (hset machine), executeAll_singleton, Machine.advance_binary]
    at hexecute
  have hpatch : (Instruction.set condition (.byteRegister .al)).patch =
      [.set condition (.byteRegister .al)] := rfl
  rw [List.flatMap_cons, List.flatMap_singleton, hpatch, List.singleton_append,
    executeAll_cons_of_ok _ (hset machine'), hagrees.flags_eq]
  have hlow : ByteRegister.al.full ∈ unknown := hrax
  exact exists_extend (hagrees.setLowByte hlow _) hrax (read_setLowByte ..) (read_setLowByte ..)
    hdestination hexecute

end Single

end X86

end TupleLang
