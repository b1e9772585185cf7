import TupleLang.Machine.Step
import TupleLang.Proofs.LivenessEquations

/-!
# Machines that agree on what is live

Two machines agree on a set of live locations if they are the same but for the values of variables
and of allocatable registers outside of the set (`Machine.Agree`).  An instruction that both of them
run takes what is live before it to what is live after it (`Machine.Agree.execute`): it does not
depend on anything else than what it reads, and what it writes is the same on both.  Either both
fail, with the same error, or none does (`Alike`).

Two things have to be asked for.  Memory is addressed through registers that are never allocatable,
since the analysis takes no account of the base of an address.  And no low byte but `%al` is
written, since the rest of the register keeps its value then, while the analysis takes it for
overwritten.
-/

namespace TupleLang

open X86 (Register ByteRegister BinaryOperator Operand Instruction)

/-- Both computations fail with the same error, or both give results that are related. -/
inductive Alike {α : Type} (related : α → α → Prop) :
    Except MachineError α → Except MachineError α → Prop where
  | ok {a b : α} (h : related a b) : Alike related (.ok a) (.ok b)
  | error (error : MachineError) : Alike related (.error error) (.error error)

variable {α : Type} {config : Config}

theorem Alike.bind {β : Type} {related : α → α → Prop} {related' : β → β → Prop}
    {x y : Except MachineError α} {f g : α → Except MachineError β} (h : Alike related x y)
    (hf : ∀ a b, related a b → Alike related' (f a) (g b)) :
    Alike related' (x >>= f) (y >>= g) := by
  cases h with
  | ok h => exact hf _ _ h
  | error error => exact .error error

/-- The same first step. -/
theorem Alike.bind_self {β : Type} {related : β → β → Prop} (x : Except MachineError α)
    {f g : α → Except MachineError β} (h : ∀ a, Alike related (f a) (g a)) :
    Alike related (x >>= f) (x >>= g) := by
  cases x with
  | ok a => exact h a
  | error error => exact .error error

theorem Alike.imp {related related' : α → α → Prop} {x y : Except MachineError α}
    (h : Alike related x y) (himp : ∀ a b, x = .ok a → related a b → related' a b) :
    Alike related' x y := by
  cases h with
  | ok h => exact .ok (himp _ _ rfl h)
  | error error => exact .error error

/-- An operand whose value is all that the analysis has to know about it: its base, if it is a word
in memory, is never allocatable, and it is no low byte but that of `%rax`. -/
def X86.Operand.isPlain : Operand → Bool
  | .deref base _ => Config.reservedRegisters.contains base
  | .byteRegister low => low == .al
  | _ => true

/-- Instructions after which the function goes on with one of its own instructions, the conclusion
apart. -/
def X86.Instruction.isLocal : Instruction → Bool
  | .callq _ _ | .callIndirect _ _ | .tailJump _ _ | .retq | .jumpIndirect _ => false
  | _ => true

/-- The label that an instruction may jump to. -/
def X86.Instruction.target? : Instruction → Option Name
  | .jump label | .jumpIf _ label => some label
  | _ => none

/-- Registers that are never allocatable are no locations. -/
theorem Location.ofRegister?_of_reserved (hconfig : config.validate = .ok ()) {full : Register}
    (h : full ∈ Config.reservedRegisters) : Location.ofRegister? config full = none := by
  have hfault : config.fault? = none := by
    unfold Config.validate at hconfig
    cases hfault : config.fault? with
    | none => rfl
    | some fault => rw [hfault] at hconfig; cases hconfig
  have hfind : config.allocatable.find? Config.reservedRegisters.contains = none := by
    unfold Config.fault? at hfault
    split at hfault
    · cases hfault
    · split at hfault
      · cases hfault
      · rename_i hnone
        exact Option.eq_none_iff_forall_ne_some.mpr hnone
  have hmem : full ∉ config.allocatable := fun hmem =>
    List.find?_eq_none.mp hfind full hmem (List.contains_iff_mem.mpr h)
  rw [Config.allocatable, List.mem_append, not_or] at hmem
  rw [Location.ofRegister?, Config.isCallerSaved, Config.isCalleeSaved, if_neg]
  simpa using hmem

/-- A location is that of one register. -/
theorem Location.ofRegister?_eq_some {full : Register} {location : Location}
    (h : Location.ofRegister? config full = some location) : location = .register full := by
  unfold Location.ofRegister? at h
  split at h
  · exact (Option.some.inj h).symm
  · cases h

/-- What is live after an instruction is live before it, or it is written. -/
theorem Liveness.mem_before_or_mem_writes {instruction : Instruction} {live : LiveSet}
    {location : Location} (h : location ∈ live) :
    location ∈ Liveness.before config instruction live ∨
      location ∈ instruction.writes config := by
  by_cases hwrites : location ∈ instruction.writes config
  · exact .inr hwrites
  · exact .inl (mem_before_iff.mpr (.inr ⟨h, hwrites⟩))

namespace Machine

/-- The machines are the same, but for the values of variables and allocatable registers that are
not live. -/
structure Agree (config : Config) (live : LiveSet) (machine machine' : Machine) : Prop where
  flags_eq : machine'.flags = machine.flags
  memory_eq : machine'.memory = machine.memory
  globals_eq : machine'.globals = machine.globals
  heap_eq : machine'.heap? = machine.heap?
  nextHeap_eq : machine'.nextHeap = machine.nextHeap
  next_eq : machine'.next = machine.next
  events_eq : machine'.events = machine.events
  register_eq : ∀ full, (∀ location, Location.ofRegister? config full = some location →
    location ∈ live) → machine'.register full = machine.register full
  bindings_eq : ∃ values values', machine.bindings = some values ∧
    machine'.bindings = some values' ∧ ∀ name, Location.var name ∈ live → values' name = values name

variable {config : Config} {live live' : LiveSet} {machine machine' : Machine} {image : Image}

namespace Agree

section

variable (h : Agree config live machine machine')
include h

/-- Less may be live. -/
theorem mono (hlive : ∀ location ∈ live', location ∈ live) :
    Agree config live' machine machine' := by
  obtain ⟨values, values', hvalues, hvalues', hnames⟩ := h.bindings_eq
  exact { h with
    register_eq := fun full hfull => h.register_eq full fun location hlocation =>
      hlive location (hfull location hlocation)
    bindings_eq := ⟨values, values', hvalues, hvalues', fun name hname =>
      hnames name (hlive _ hname)⟩ }

theorem continueAt (number : Nat) :
    Agree config live (machine.continueAt number) (machine'.continueAt number) :=
  { h with next_eq := rfl }

/-- A register gets the same value on both machines. -/
theorem setRegister {full : Register} (word : Word)
    (hlive : ∀ location ∈ live',
      location ∈ live ∨ Location.ofRegister? config full = some location) :
    Agree config live' (machine.setRegister full word) (machine'.setRegister full word) := by
  refine { h with register_eq := fun other hother => ?_, bindings_eq := ?_ }
  · by_cases heq : other = full
    · rw [heq, register_setRegister_self, register_setRegister_self]
    · rw [register_setRegister_of_ne _ _ heq, register_setRegister_of_ne _ _ heq]
      refine h.register_eq other fun location hlocation => ?_
      refine (hlive location (hother location hlocation)).resolve_right fun hfull => heq ?_
      cases Location.ofRegister?_eq_some hlocation
      cases Location.ofRegister?_eq_some hfull
      rfl
  · obtain ⟨values, values', hvalues, hvalues', hnames⟩ := h.bindings_eq
    refine ⟨values, values', hvalues, hvalues', fun name hname => hnames name ?_⟩
    refine (hlive _ hname).resolve_right fun hfull => ?_
    cases Location.ofRegister?_eq_some hfull

/-- A word of memory gets the same value on both machines. -/
theorem store (address word : Word) :
    Alike (Agree config live) (machine.store address word) (machine'.store address word) := by
  rw [Machine.store, Machine.store, h.memory_eq]
  refine .bind_self _ fun memory => ?_
  exact .ok { h with memory_eq := rfl }

variable (hconfig : config.validate = .ok ())
include hconfig

/-- A register that is never allocatable has the same value. -/
theorem reserved_eq {full : Register} (hfull : full ∈ Config.reservedRegisters) :
    machine'.register full = machine.register full :=
  h.register_eq full fun location hlocation => by
    rw [Location.ofRegister?_of_reserved hconfig hfull] at hlocation
    cases hlocation

/-- Operands that are live have the same values. -/
theorem read_eq {operand : Operand} (hplain : operand.isPlain = true)
    (hlive : ∀ location, Location.ofOperand? config operand = some location → location ∈ live) :
    machine'.read operand = machine.read operand := by
  cases operand with
  | immediate value => rfl
  | register full => exact congrArg Except.ok (h.register_eq full hlive)
  | byteRegister low =>
    rw [read, read, h.register_eq low.full hlive]
  | var name =>
    obtain ⟨values, values', hvalues, hvalues', hnames⟩ := h.bindings_eq
    simp only [read, hvalues, hvalues']
    rw [hnames name (hlive _ rfl)]
  | deref base offset =>
    have hbase := h.reserved_eq hconfig (List.contains_iff_mem.mp hplain)
    rw [read, read, load, load, hbase, h.memory_eq]
  | global name => rw [read, read, global, global, h.globals_eq]

/-- An operand gets the same value on both machines, or it cannot be written to on either. -/
theorem write {operand : Operand} (hplain : operand.isPlain = true) (word : Word)
    (hlive : ∀ location ∈ live', location ∈ live ∨
      Location.ofOperand? config operand = some location) :
    Alike (Agree config live') (machine.write operand word) (machine'.write operand word) := by
  -- An operand that is no location leaves them all as they are.
  have hkeep : Location.ofOperand? config operand = none → Agree config live' machine machine' :=
    fun hnone => h.mono fun location hlocation =>
      (hlive location hlocation).resolve_right fun hsome => by rw [hnone] at hsome; cases hsome
  cases operand with
  | immediate value => exact .error _
  | register full => exact .ok (h.setRegister word hlive)
  | byteRegister low =>
    cases low with
    | al =>
      have hrax : machine'.register .rax = machine.register .rax :=
        h.reserved_eq hconfig List.mem_cons_self
      simp only [Machine.write, setLowByte, ByteRegister.full]
      rw [hrax]
      exact .ok (h.setRegister _ hlive)
    | _ => cases hplain
  | var name =>
    obtain ⟨values, values', hvalues, hvalues', hnames⟩ := h.bindings_eq
    simp only [Machine.write, hvalues, hvalues']
    refine .ok { h with register_eq := fun full hfull => ?_, bindings_eq := ?_ }
    · refine h.register_eq full fun location hlocation => ?_
      refine (hlive location (hfull location hlocation)).resolve_right fun hname => ?_
      cases Location.ofRegister?_eq_some hlocation
      cases hname
    · refine ⟨_, _, rfl, rfl, fun other hother => ?_⟩
      by_cases heq : other = name
      · rw [if_pos heq, if_pos heq]
      · rw [if_neg heq, if_neg heq]
        refine hnames other ((hlive _ hother).resolve_right fun hname => heq ?_)
        cases hname
        rfl
  | deref base offset =>
    simp only [Machine.write]
    rw [h.reserved_eq hconfig (List.contains_iff_mem.mp hplain)]
    exact (hkeep rfl).store _ word
  | global name =>
    simp only [Machine.write, Machine.global, setGlobal, h.globals_eq]
    refine .bind_self _ fun _ => ?_
    exact .ok { hkeep rfl with globals_eq := rfl }

/-! ## Instructions -/

/-- Operands have the same address. -/
theorem effectiveAddress_eq {operand : Operand} (hplain : operand.isPlain = true) :
    machine'.effectiveAddress image operand = machine.effectiveAddress image operand := by
  cases operand with
  | deref base offset =>
    rw [effectiveAddress, effectiveAddress,
      h.reserved_eq hconfig (List.contains_iff_mem.mp hplain)]
  | _ => rfl

/-- Both machines push the same word. -/
theorem push (word : Word) :
    Alike (Agree config live) (machine.push word) (machine'.push word) := by
  have hrsp : machine'.register .rsp = machine.register .rsp :=
    h.reserved_eq hconfig (by decide)
  rw [Machine.push, Machine.push, hrsp]
  exact (h.store _ word).bind fun _ _ h₁ => .ok (h₁.setRegister _ fun _ => .inl)

/-- Both machines pop the same word. -/
theorem pop :
    Alike (fun p p' => p'.1 = p.1 ∧ Agree config live p.2 p'.2) machine.pop machine'.pop := by
  have hrsp : machine'.register .rsp = machine.register .rsp :=
    h.reserved_eq hconfig (by decide)
  rw [Machine.pop, Machine.pop, hrsp, load, load, h.memory_eq]
  refine .bind_self _ fun word => ?_
  exact .ok ⟨rfl, h.setRegister _ fun _ => .inl⟩

end

/-- An instruction with a source and a destination. -/
theorem executeBinary (hconfig : config.validate = .ok ()) {operator : BinaryOperator}
    {source destination : Operand}
    (h : Agree config (Liveness.before config (.binary operator source destination) live) machine
      machine') (hsource : source.isPlain = true) (hdestination : destination.isPlain = true) :
    Alike (Agree config live) (machine.executeBinary image operator source destination)
      (machine'.executeBinary image operator source destination) := by
  have hread : machine'.read source = machine.read source := by
    refine h.read_eq hconfig hsource fun location hlocation => ?_
    refine Liveness.mem_before_iff.mpr (.inl (List.mem_filterMap.mpr ⟨source, ?_, hlocation⟩))
    split
    · exact List.mem_cons_self
    · exact List.mem_cons_self
  have hold (hreads : operator.readsDestination = true) :
      machine'.read destination = machine.read destination := by
    refine h.read_eq hconfig hdestination fun location hlocation => ?_
    refine Liveness.mem_before_iff.mpr (.inl (List.mem_filterMap.mpr ⟨destination, ?_, hlocation⟩))
    rw [if_pos hreads]
    exact List.mem_cons_of_mem _ List.mem_cons_self
  have hwrite (hwrites : operator.writesDestination = true) (word : Word) :
      Alike (Agree config live) (machine.write destination word)
        (machine'.write destination word) := by
    refine h.write hconfig hdestination word fun location hlocation => ?_
    refine (Liveness.mem_before_or_mem_writes hlocation).imp_right fun hmem => ?_
    rw [Instruction.writes, if_pos hwrites, Option.mem_toList] at hmem
    exact hmem
  cases operator with
  | leaq =>
    simp only [Machine.executeBinary]
    rw [h.effectiveAddress_eq hconfig hsource]
    refine .bind_self _ fun word => ?_
    exact hwrite rfl word
  | cmpq =>
    simp only [Machine.executeBinary]
    rw [hread, hold rfl]
    refine .bind_self _ fun value => ?_
    refine .bind_self _ fun old => ?_
    have hlive : Agree config live machine machine' := h.mono fun location hlocation =>
      (Liveness.mem_before_or_mem_writes hlocation).resolve_right List.not_mem_nil
    exact .ok { hlive with flags_eq := rfl }
  | movq | movzbq =>
    simp only [Machine.executeBinary]
    rw [hread]
    refine .bind_self _ fun value => ?_
    exact hwrite rfl _
  | addq | subq | imulq | andq | orq | xorq =>
    simp only [Machine.executeBinary]
    rw [hread, hold rfl]
    refine .bind_self _ fun value => ?_
    refine .bind_self _ fun old => ?_
    exact hwrite rfl _

end Agree

/-- Both machines go on, and they agree. -/
inductive Progress.Agree (config : Config) (live : LiveSet) : Progress → Progress → Prop where
  | running {machine machine' : Machine} (h : machine.Agree config live machine') :
    Progress.Agree config live (.running machine) (.running machine')

/-- Instructions that neither call nor leave a function do the same on machines that agree on what
is live before them, and these agree on what is live after them. -/
theorem Agree.execute (hconfig : config.validate = .ok ()) {instruction : Instruction}
    (hlocal : instruction.isLocal = true)
    (hplain : ∀ operand ∈ instruction.operands, operand.isPlain = true)
    (h : Agree config (Liveness.before config instruction live) machine machine') :
    Alike (Progress.Agree config live) (machine.execute image instruction)
      (machine'.execute image instruction) := by
  have hmono (hwrites : instruction.writes config = []) : Agree config live machine machine' :=
    h.mono fun location hlocation => (Liveness.mem_before_or_mem_writes hlocation).resolve_right
      (by rw [hwrites]; exact List.not_mem_nil)
  have hread {operand : Operand} (hoperand : operand ∈ instruction.operands)
      (hreads : instruction.reads config = (Location.ofOperand? config operand).toList) :
      machine'.read operand = machine.read operand := by
    refine h.read_eq hconfig (hplain operand hoperand) fun location hlocation => ?_
    refine Liveness.mem_before_iff.mpr (.inl ?_)
    rwa [hreads, Option.mem_toList]
  have hwrite {operand : Operand} (hoperand : operand ∈ instruction.operands)
      (hwrites : instruction.writes config = (Location.ofOperand? config operand).toList)
      {m m' : Machine} (hm : Agree config (Liveness.before config instruction live) m m')
      (word : Word) : Alike (Progress.Agree config live)
        (do return .running (← m.write operand word))
        (do return .running (← m'.write operand word)) := by
    refine Alike.bind (hm.write hconfig (hplain operand hoperand) word fun location hlocation => ?_)
      fun _ _ h₁ => .ok (.running h₁)
    refine (Liveness.mem_before_or_mem_writes hlocation).imp_right fun hmem => ?_
    rwa [hwrites, Option.mem_toList] at hmem
  cases instruction with
  | binary operator source destination =>
    have hoperands := List.forall_mem_cons.mp hplain
    exact (h.executeBinary hconfig hoperands.1 (hoperands.2 _ List.mem_cons_self)).bind
      fun _ _ h₁ => .ok (.running h₁)
  | negq operand =>
    simp only [Machine.execute]
    rw [hread List.mem_cons_self rfl]
    refine .bind_self _ fun value => ?_
    exact hwrite List.mem_cons_self rfl h _
  | set condition destination =>
    simp only [Machine.execute]
    rw [h.flags_eq]
    exact hwrite List.mem_cons_self rfl h _
  | pushq operand =>
    simp only [Machine.execute]
    rw [hread List.mem_cons_self rfl]
    refine .bind_self _ fun value => ?_
    exact ((hmono rfl).push hconfig value).bind fun _ _ h₁ => .ok (.running h₁)
  | popq operand =>
    simp only [Machine.execute]
    refine (h.pop hconfig).bind ?_
    rintro ⟨word, m⟩ ⟨_, m'⟩ ⟨rfl, h₁⟩
    exact hwrite List.mem_cons_self rfl h₁ _
  | jump label =>
    simp only [Machine.execute]
    refine .bind_self _ fun number => ?_
    exact .ok (.running ((hmono rfl).continueAt number))
  | jumpIf condition label =>
    simp only [Machine.execute]
    rw [h.flags_eq]
    split
    · refine .bind_self _ fun number => ?_
      exact .ok (.running ((hmono rfl).continueAt number))
    · exact .ok (.running (hmono rfl))
  | comment text => exact .ok (.running (hmono rfl))
  | callq _ _ | callIndirect _ _ | tailJump _ _ | retq | jumpIndirect _ => cases hlocal

end Machine

end TupleLang
