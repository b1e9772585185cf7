import TupleLang.Proofs.CallingConvention
import TupleLang.Proofs.CarriedTypes

/-!
# How arguments travel

The code of a call loads the addresses of functions among its arguments, sets up the arguments as
the calling convention asks for, makes the address of the callee known, and gives up the words on
the stack once the callee has returned.

`Selection.call_delivers_arguments` follows one call from the code of the caller to the point where
the callee has copied its parameters, and from the return to the end of the code of the call.
-/

namespace TupleLang

open Stateful
open X86 (BinaryOperator Frame Instruction Operand Register)

/-! ## The caller -/

namespace Selection

variable {image : Image} {context : Context} {machine : Machine} {s s' : NameSupply}

/-- The value of an atom on a machine; the name of a function stands for its address. -/
def atomValue? (context : Context) (image : Image) (machine : Machine) : Flow.Atom → Option Word
  | .const (.int value) => some value
  | .const (.bool value) => some (Word.ofBool value)
  | .var name =>
    if context.functionNames.contains name then image.labels[name]?.map Image.addressOf
    else machine.value? name

/-- Variables that the atoms mention were there before the names that the supply still has. -/
def AreOld (context : Context) (supply : NameSupply) (atoms : List Flow.Atom) : Prop :=
  ∀ name, .var name ∈ atoms → context.functionNames.contains name = false →
    ¬name.IsNewer supply.issued

variable {values : Name → Word} {operands : List Operand} {name callee : Name} {entry count : Nat}
  {words : List Word} {a : Flow.Atom} {code loads : List Instruction} {arguments : List Flow.Atom}
  {used : List Register} {top : Word}

/-- New variables do not matter to old atoms. -/
theorem atomValue?_congr {values' : Name → Word} (hold : AreOld context s [a])
    (hkept : ∀ name : Name, ¬name.IsNewer s.issued → values' name = values name) :
    atomValue? context image (machine.withBindings values') a =
      atomValue? context image (machine.withBindings values) a := by
  cases a with
  | const value => cases value <;> rfl
  | var name =>
    rw [atomValue?, atomValue?]
    cases hfunction : context.functionNames.contains name with
    | true => rfl
    | false =>
      have hname := hkept name (hold name List.mem_cons_self hfunction)
      simpa [Machine.value?, Machine.withBindings] using hname

/-- Providing an atom takes at most one new variable, and its operand has the value of the atom. -/
theorem exists_atomLoads {operand : Operand} (hatom : atom context a s = .ok ((code, operand), s'))
    {word : Word} (hword : atomValue? context image (machine.withBindings values) a = some word)
    (hold : AreOld context s [a]) :
    ∃ values', (machine.withBindings values).executeAll image code =
        .ok (machine.withBindings values') ∧
      (∀ name : Name, ¬name.IsNewer s.issued → values' name = values name) ∧
      Machine.valueIn values' operand = some word ∧ s.issued ≤ s'.issued ∧
      ∀ name, operand = .var name → ¬name.IsNewer s'.issued := by
  cases a with
  | const value =>
    cases value with
    | int value | bool value =>
      cases hatom
      refine ⟨values, rfl, fun _ _ => rfl, hword, Nat.le_refl _, ?_⟩
      intro name hname
      cases hname
  | var name =>
    rw [atom] at hatom
    rw [atomValue?] at hword
    cases hfunction : context.functionNames.contains name with
    | true =>
      rw [if_pos hfunction] at hatom hword
      obtain ⟨number, hnumber, rfl⟩ := Option.map_eq_some_iff.mp hword
      rw [bind_of_ok (Lowering.fresh_eq_ok "fn" s)] at hatom
      cases hatom
      let temporary := NameSupply.nameAt "fn" (s.issued + 1)
      have hnewer : Name.IsNewer s.issued temporary :=
        NameSupply.isNewer_nameAt.mpr (Nat.lt_succ_self _)
      refine ⟨fun other => if other = temporary then Image.addressOf number else values other,
        ?_, ?_, ?_, Nat.le_succ _, ?_⟩
      · rw [Machine.executeAll_singleton, Instruction.leaq, Machine.advance_binary]
        refine Except.bind_eq_ok.mpr ⟨Image.addressOf number, ?_, Machine.write_withBindings ..⟩
        rw [Machine.effectiveAddress, hnumber]
      · intro other hother
        refine if_neg ?_
        rintro rfl
        exact hother hnewer
      · exact congrArg some (if_pos rfl)
      · intro other hother
        cases hother
        rw [NameSupply.isNewer_nameAt]
        exact Nat.lt_irrefl _
    | false =>
      rw [hfunction] at hatom hword
      cases hatom
      refine ⟨values, rfl, fun _ _ => rfl, hword, Nat.le_refl _, ?_⟩
      intro other hother
      cases hother
      exact hold name List.mem_cons_self hfunction

/-- Providing atoms takes new variables only, and their operands have the values of the atoms. -/
theorem exists_loads (hatoms : atoms context arguments s = .ok ((code, operands), s'))
    (hwords : List.Forall₂
      (fun a word => atomValue? context image (machine.withBindings values) a = some word)
      arguments words) (hold : AreOld context s arguments) :
    ∃ values', (machine.withBindings values).executeAll image code =
        .ok (machine.withBindings values') ∧
      (∀ name : Name, ¬name.IsNewer s.issued → values' name = values name) ∧
      List.Forall₂ (fun operand word => Machine.valueIn values' operand = some word) operands
        words := by
  induction arguments generalizing s code operands values words with
  | nil =>
    cases hatoms
    cases hwords
    exact ⟨values, rfl, fun _ _ => rfl, .nil⟩
  | cons a arguments ih =>
    cases hwords with
    | @cons _ word _ words hword hwords =>
    rw [atoms, bind_eq_ok] at hatoms
    obtain ⟨⟨firstCode, operand⟩, s₁, hfirst, hatoms⟩ := hatoms
    obtain ⟨⟨restCode, restOperands⟩, s₂, hrest, hatoms⟩ := bind_eq_ok.mp hatoms
    cases hatoms
    obtain ⟨values₁, hrun₁, hkept₁, hvalue₁, hle, hoperand⟩ := exists_atomLoads hfirst hword
      fun name hname => hold name (List.mem_singleton.mp hname ▸ List.mem_cons_self)
    have hkept {name : Name} (hname : ¬name.IsNewer s.issued) : ¬name.IsNewer s₁.issued :=
      fun hnewer => hname (hnewer.mono hle)
    have holdRest : AreOld context s arguments := fun name hname =>
      hold name (List.mem_cons_of_mem _ hname)
    have hwords₁ : List.Forall₂
        (fun a word => atomValue? context image (machine.withBindings values₁) a = some word)
        arguments words := by
      have holdEach : ∀ a ∈ arguments, AreOld context s [a] := fun a ha name hname =>
        holdRest name (List.mem_singleton.mp hname ▸ ha)
      have hboth := (List.forall₂_and_left arguments words).mpr ⟨holdEach, hwords⟩
      exact hboth.imp fun a word h => (atomValue?_congr h.1 hkept₁).trans h.2
    obtain ⟨values₂, hrun₂, hkept₂, hvalues₂⟩ := ih hrest hwords₁ fun name hname hfunction =>
      hkept (holdRest name hname hfunction)
    refine ⟨values₂, ?_, ?_, .cons ?_ hvalues₂⟩
    · rw [Machine.executeAll_append_of_ok _ hrun₁]
      exact hrun₂
    · intro name hname
      rw [hkept₂ name (hkept hname), hkept₁ name hname]
    · cases operand with
      | var name =>
        have hname := hkept₂ name (hoperand name rfl)
        rw [← hvalue₁]
        exact congrArg some hname
      | _ => exact hvalue₁

/-- The name of a function leads to it, and so does a variable with an address of its entry. -/
def LeadsTo (context : Context) (image : Image) (machine : Machine) (callee name : Name)
    (entry : Nat) : Prop :=
  if context.functionNames.contains callee then callee = name
  else ∃ word, machine.value? callee = some word ∧ image.decode word = .ok entry

/-- The call of the name goes to the function: by its label, or by its address in `%rax`. -/
def IsTarget (context : Context) (image : Image) (machine : Machine) (callee name : Name)
    (entry : Nat) : Prop :=
  context.functionNames.contains callee = true ∧ callee = name ∨
    context.functionNames.contains callee = false ∧
      image.decode (machine.register .rax) = .ok entry

/-- A machine that is about to call a function with arguments of these values. -/
structure CanCall (context : Context) (image : Image) (supply : NameSupply) (callee : Name)
    (arguments : List Flow.Atom) (words : List Word) (machine : Machine) : Prop where
  bound : machine.bindings.isSome = true
  values : List.Forall₂ (fun a word => atomValue? context image machine a = some word) arguments
    words
  old : AreOld context supply (.var callee :: arguments)
  aligned : machine.register .rsp % 16 = 0

/-- The code of a call up to the call itself. -/
def callOpening (context : Context) (name : Name) (loads : List Instruction)
    (operands : List Operand) : List Instruction :=
  loads ++ (setUp context.config.parameters operands ++ approach context name)

/-- The opening of a call is straight. -/
theorem isStraight_of_mem_callOpening (hloads : ∀ instruction ∈ loads, IsLoad context instruction)
    {instruction : Instruction} (h : instruction ∈ callOpening context name loads operands) :
    instruction.isStraight = true := by
  rw [callOpening, List.mem_append, List.mem_append] at h
  rcases h with h | h | h
  · exact (hloads instruction h).isStraight
  · exact isStraight_of_mem_setUp h
  · unfold approach at h
    split at h
    · cases h
    · rw [List.mem_singleton.mp h]
      rfl

/-- The caller brings the arguments to where the callee expects them and keeps the stack pointer a
multiple of sixteen. -/
theorem exists_callOpening (hatoms : atoms context arguments s = .ok ((loads, operands), s'))
    (hcan : CanCall context image s callee arguments words machine)
    (hnodup : context.config.parameters.Nodup)
    (hreserved : ∀ full ∈ context.config.parameters, full ∉ Config.reservedRegisters)
    (hleads : LeadsTo context image machine callee name entry) {roots : Nat}
    (hroom : machine.StackRoom count roots)
    (hcount : Machine.stackWords arguments.length context.config.parameters.length ≤ count) :
    ∃ m, machine.executeAll image (callOpening context callee loads operands) = .ok m ∧
      m.bindings.isSome = true ∧ m.memory.regions = machine.memory.regions ∧
      m.register .r15 = machine.register .r15 ∧
      m.register .rsp = (machine.register .rsp).below
        (Machine.stackWords arguments.length context.config.parameters.length) ∧
      m.Delivers context.config.parameters words (m.register .rsp) ∧
      IsTarget context image m callee name entry := by
  obtain ⟨values, hvalues⟩ := Option.isSome_iff_exists.mp hcan.bound
  have hmachine := Machine.withBindings_of_eq hvalues
  obtain ⟨-, -, hlength⟩ := atoms_eq_ok hatoms
  have holdArguments : AreOld context s arguments := fun name hname =>
    hcan.old name (List.mem_cons_of_mem _ hname)
  obtain ⟨values₁, hloads, hkept, hoperands⟩ := exists_loads hatoms (hmachine.symm ▸ hcan.values)
    holdArguments
  rw [hmachine] at hloads
  have hvalues₁ : (machine.withBindings values₁).bindings = some values₁ := rfl
  have hrsp : Register.rsp ∉ context.config.parameters := fun hmem => hreserved _ hmem (by decide)
  have hr15 : Register.r15 ∉ context.config.parameters := fun hmem => hreserved _ hmem (by decide)
  have hrax : ∀ full ∈ context.config.parameters, full ∉ [Register.rax] := by
    rintro full hfull hmem
    rw [List.mem_singleton.mp hmem] at hfull
    exact hreserved _ hfull (by decide)
  obtain ⟨m, hm, hchanges, hrsp', hdelivers⟩ := Machine.exists_setUp image hvalues₁ hnodup hrsp
    hoperands (fun i hi => hroom.stack_mapped i (by rw [hlength] at hi; omega))
    (Nat.lt_of_le_of_lt (hlength ▸ hcount) hroom.words_lt)
  rw [hlength] at hrsp'
  have hsetUp : machine.executeAll image (loads ++ setUp context.config.parameters operands) =
      .ok m := by
    rw [Machine.executeAll_append_of_ok _ hloads, hm]
  have hsome : m.bindings.isSome = true := by
    rw [hchanges.bindings_eq]
    rfl
  have hr15' : m.register .r15 = machine.register .r15 :=
    hchanges.register_eq .r15 (by simp [hr15])
  unfold callOpening approach
  unfold LeadsTo at hleads
  rw [← List.append_assoc, Machine.executeAll_append_of_ok _ hsetUp]
  cases hfunction : context.functionNames.contains callee with
  | true =>
    rw [if_pos hfunction] at hleads
    exact ⟨m, rfl, hsome, hchanges.regions_eq, hr15', hrsp', hdelivers, .inl ⟨hfunction, hleads⟩⟩
  | false =>
    rw [if_neg (by rw [hfunction]; decide)] at hleads
    obtain ⟨word, hword, hdecode⟩ := hleads
    -- The variable of the callee is older than the new variables, so it has kept its value.
    have hread : m.read (.var callee) = .ok word := by
      have hname := hkept callee (hcan.old callee List.mem_cons_self hfunction)
      refine Machine.read_var ?_
      rw [Machine.value?, hchanges.bindings_eq, ← hword, Machine.value?, hvalues]
      exact congrArg some hname
    have hmoved : m.ChangesOnly [.rax] (fun _ => False) (m.setRegister .rax word) :=
      Machine.changesOnly_setRegister m List.mem_cons_self _ word
    have hrsp'' : (m.setRegister .rax word).register .rsp = m.register .rsp :=
      hmoved.register_eq .rsp (by decide)
    refine ⟨m.setRegister .rax word, ?_, hsome, hchanges.regions_eq, ?_, ?_, ?_,
      .inr ⟨hfunction, ?_⟩⟩
    · rw [if_neg (by decide), Machine.executeAll_singleton]
      exact Machine.advance_movq hread rfl
    · rw [hmoved.register_eq .r15 (by decide), hr15']
    · exact hrsp''.trans hrsp'
    · rw [hrsp'']
      exact hdelivers.changesOnly hmoved hrax fun _ _ => id
    · rw [Machine.register_setRegister_self]
      exact hdecode

/-- The call pushes its return address and goes to the entry of the callee. -/
theorem step_transfer (hcode : image.code[machine.next]? = some (transfer context callee used))
    (haligned : machine.register .rsp % 16 = 0) (hreserved : name ∉ Name.reserved)
    (hentry : image.label name = .ok entry)
    (htarget : IsTarget context image machine callee name entry) {pushed : Machine}
    (hpush : machine.push (Image.addressOf (machine.next + 1)) = .ok pushed) :
    machine.step image = .ok (.running (pushed.continueAt entry)) := by
  have hpush' : (machine.continueAt (machine.next + 1)).pushReturnAddress =
      .ok (pushed.continueAt (machine.next + 1)) :=
    Machine.push_continueAt _ hpush
  have hcheck (target : String) :
      (machine.continueAt (machine.next + 1)).checkAlignment target = .ok () :=
    if_neg (not_not.mpr haligned)
  refine Machine.step_of_code hcode ?_
  unfold transfer
  rcases htarget with ⟨hfunction, rfl⟩ | ⟨hfunction, hdecode⟩
  · have hservice : Machine.Service.ofName? callee = none := by
      unfold Machine.Service.ofName?
      simp only [Name.reserved, List.mem_cons, List.not_mem_nil, or_false, not_or] at hreserved
      rw [if_neg hreserved.2.1, if_neg hreserved.2.2.1, if_neg hreserved.2.2.2.1]
    rw [if_pos hfunction, Machine.execute, hservice]
    refine Except.bind_eq_ok.mpr ⟨(), hcheck _, ?_⟩
    refine Except.bind_eq_ok.mpr ⟨_, hpush', ?_⟩
    exact Except.bind_eq_ok.mpr ⟨entry, hentry, rfl⟩
  · rw [if_neg (by rw [hfunction]; decide), Machine.execute]
    refine Except.bind_eq_ok.mpr ⟨(), hcheck _, ?_⟩
    refine Except.bind_eq_ok.mpr ⟨machine.register .rax, rfl, ?_⟩
    refine Except.bind_eq_ok.mpr ⟨entry, hdecode, ?_⟩
    exact Except.bind_eq_ok.mpr ⟨_, hpush', rfl⟩

/-- A call whose arguments are in place leads to a callee that has copied them. -/
theorem exists_called (hcode : image.code[machine.next]? = some (transfer context callee used))
    (hreserved : ∀ full ∈ context.config.parameters, full ∉ Config.reservedRegisters)
    {parameters : List Name} {frame : Frame} {start : Nat}
    (hcallee : image.HasCallee context.config name parameters frame entry start)
    (htarget : IsTarget context image machine callee name entry)
    (haligned : machine.register .rsp % 16 = 0) (hbound : machine.bindings.isSome = true)
    (hdelivers : machine.Delivers context.config.parameters words (machine.register .rsp))
    (hparameters : parameters.Nodup) (hlength : parameters.length = words.length)
    (hroom : machine.StackRoom (2 + frame.calleeSaved.length) frame.rootSlots)
    (hfew : words.length - context.config.parameters.length < 2 ^ 60)
    (hapart : ∀ i < words.length - context.config.parameters.length, ∀ j < frame.rootSlots,
      (machine.register .rsp).nth i ≠ (machine.register .r15).nth j) :
    ∃ entered started copied,
      machine.step image = .ok (.running entered) ∧ entered.next = entry ∧
      entered.Steps image (X86.FrameCode.prelude context.config name frame).length started ∧
      started.next = start ∧ started.Steps image parameters.length copied ∧
      ∀ (i : Nat) parameter word, parameters[i]? = some parameter → words[i]? = some word →
        copied.value? parameter = some word := by
  have hwords := hroom.words_lt
  obtain ⟨m, hpush, hchanges, hrsp, -⟩ := Machine.exists_push
    (hroom.stack_mapped 0 (Nat.lt_add_right _ (by decide))) (Image.addressOf (machine.next + 1))
  have hr15 : m.register .r15 = machine.register .r15 := hchanges.register_eq .r15 (by decide)
  have hplaced : m.Delivers context.config.parameters words (machine.register .rsp) := by
    refine hdelivers.changesOnly hchanges ?_ ?_
    · rintro full hfull hmem
      rw [List.mem_singleton.mp hmem] at hfull
      exact hreserved _ hfull (by decide)
    · intro i hi
      exact Word.nth_ne_below Nat.one_pos (by omega)
  have hroomLeft : m.StackRoom (1 + frame.calleeSaved.length) frame.rootSlots := by
    refine Machine.StackRoom.rest ?_ hrsp hr15 hchanges.regions_eq
    rwa [← Nat.add_assoc]
  have hsome : m.bindings.isSome = true := by
    rw [hchanges.bindings_eq]
    exact hbound
  have hentered : (m.continueAt entry).StackRoom (1 + frame.calleeSaved.length) frame.rootSlots :=
    ⟨hroomLeft.words_lt, hroomLeft.stack_mapped, hroomLeft.roots_mapped, hroomLeft.apart⟩
  obtain ⟨started, copied, hprelude, hstart, hcopies, hcopied⟩ := Machine.exists_entered hcallee
    hparameters hreserved hlength (hplaced.continueAt entry) hrsp hsome hentered (by omega)
    fun i hi j hj heq => hapart i hi j hj (heq.trans (congrArg (Word.nth · j) hr15))
  exact ⟨m.continueAt entry, started, copied,
    step_transfer hcode haligned hcallee.not_reserved hcallee.entry_eq htarget hpush, rfl, hprelude,
    hstart, hcopies, hcopied⟩

/-- The call is one of a label or one of the address in `%rax`. -/
theorem transfer_eq (used : List Register)
    (htarget : IsTarget context image machine callee name entry) :
    transfer context callee used = .callq name used ∨
      transfer context callee used = .callIndirect rax used := by
  unfold transfer
  rcases htarget with ⟨hfunction, rfl⟩ | ⟨hfunction, -⟩
  · exact .inl (if_pos hfunction)
  · exact .inr (if_neg (by rw [hfunction]; decide))

/-- The words of the arguments are given up again. -/
theorem exists_release (image : Image) (machine : Machine) (hcount : count + count % 2 < 2 ^ 60)
    (hrsp : machine.register .rsp = top.below (count + count % 2)) :
    ∃ m, machine.executeAll image (release count) = .ok m ∧ m.register .rsp = top := by
  obtain ⟨m, hm, -, htop⟩ := Machine.exists_adjust image machine
    (rfl : X86.BinaryOperator.addq.isArithmetic = true) (0 < 8 * Word.ofCount (count + count % 2))
    (8 * Word.ofCount (count + count % 2)) .rsp
  have hback := Word.nth_below_add top 0 (count + count % 2)
  refine ⟨m, hm, htop.trans ((Word.ite_add_eight_mul hcount _).trans ?_)⟩
  rw [hrsp]
  exact hback.trans (Word.nth_zero top)

/-- A machine that is back from a call runs the rest of the code of the call. -/
theorem exists_released (hcode : image.HasCode machine.next (release count))
    (hcount : count + count % 2 < 2 ^ 60)
    (hrsp : machine.register .rsp = top.below (count + count % 2)) :
    ∃ last, machine.Steps image (release count).length last ∧
      last.next = machine.next + (release count).length ∧ last.register .rsp = top := by
  obtain ⟨m, hm, hback⟩ := exists_release image machine hcount hrsp
  have hstraight : ∀ instruction ∈ release count, instruction.isStraight = true :=
    fun _ => X86.isStraight_of_mem_ite rfl
  exact ⟨_, Machine.Steps.of_executeAll hcode hstraight hm, rfl, hback⟩

/-- The caller and the callee agree on how arguments travel.  The parameter registers may be any
that are different from each other and not reserved, as every valid configuration has them; the
number of arguments and the frame of the callee may be any.  From a machine whose stack pointer is a
multiple of sixteen the code of a call comes to the call itself, where it is so again.  The call
leads to the prelude of the callee, and after that and the copying of the parameters every parameter
has the value that the argument had before the call.  If the callee returns with the stack pointer
as it was at the call, the rest of the code brings it back to where it was before. -/
theorem call_delivers_arguments {callee : Name} {arguments : List Flow.Atom}
    {code : List Instruction} (hcall : call context (.var callee) arguments s = .ok (code, s'))
    (hcode : image.HasCode machine.next code) {words : List Word}
    (hcan : CanCall context image s callee arguments words machine)
    (hregisters : context.config.parameters.Nodup)
    (hreserved : ∀ full ∈ context.config.parameters, full ∉ Config.reservedRegisters)
    {name : Name} {parameters : List Name} {frame : Frame} {entry start : Nat}
    (hcallee : image.HasCallee context.config name parameters frame entry start)
    (hleads : LeadsTo context image machine callee name entry)
    (hparameters : parameters.Nodup) (hlength : parameters.length = arguments.length)
    (hroom : machine.StackRoom
      (Machine.stackWords arguments.length context.config.parameters.length + 2 +
        frame.calleeSaved.length) frame.rootSlots) :
    ∃ before instruction after atCall entered started copied,
      code = before ++ instruction :: after ∧
      (∃ used, instruction = .callq name used ∨ instruction = .callIndirect rax used) ∧
      machine.Steps image before.length atCall ∧
      atCall.next = machine.next + before.length ∧ atCall.register .rsp % 16 = 0 ∧
      atCall.step image = .ok (.running entered) ∧ entered.next = entry ∧
      entered.Steps image (X86.FrameCode.prelude context.config name frame).length started ∧
      started.next = start ∧ started.Steps image parameters.length copied ∧
      (∀ i (hi : i < parameters.length), copied.value? parameters[i] = words[i]?) ∧
      ∀ returned : Machine, returned.next = atCall.next + 1 →
        returned.register .rsp = atCall.register .rsp →
        ∃ last, returned.Steps image after.length last ∧
          last.next = machine.next + code.length ∧
          last.register .rsp = machine.register .rsp := by
  let pushed := Machine.stackWords arguments.length context.config.parameters.length
  have hpushed : pushed = arguments.length - context.config.parameters.length +
      (arguments.length - context.config.parameters.length) % 2 := rfl
  have hfew := hroom.words_lt
  obtain ⟨_, loads, operands, heq, hatoms, rfl⟩ := call_eq_ok hcall
  cases heq
  obtain ⟨hloads, -, hoperands⟩ := atoms_eq_ok hatoms
  have hwords : words.length = arguments.length := hcan.values.length_eq.symm
  -- the code up to the call, the call, and the words that are given up
  let before := callOpening context callee loads operands
  let after := release (operands.drop context.config.parameters.length).length
  have hsplit : loads ++ callCode context callee operands = before ++
      transfer context callee (context.config.parameters.take operands.length) :: after := by
    simp [before, after, callOpening, callCode]
  rw [hsplit] at hcode
  obtain ⟨m, hm, hbound, hregions, hr15, hrsp, hdelivers, htarget⟩ := exists_callOpening hatoms hcan
    hregisters hreserved hleads hroom (by omega)
  let atCall := m.continueAt (machine.next + before.length)
  have hbefore : machine.Steps image before.length atCall :=
    Machine.Steps.of_executeAll hcode.left (fun _ => isStraight_of_mem_callOpening hloads) hm
  have haligned : atCall.register .rsp % 16 = 0 := by
    change m.register .rsp % 16 = 0
    rw [hrsp]
    exact Word.mod_sixteen_below hcan.aligned (by omega)
  have hroomLeft : atCall.StackRoom (2 + frame.calleeSaved.length) frame.rootSlots := by
    refine Machine.StackRoom.rest ?_ hrsp hr15 hregions
    rwa [← Nat.add_assoc]
  have hapart : ∀ i < words.length - context.config.parameters.length, ∀ j < frame.rootSlots,
      (atCall.register .rsp).nth i ≠ (atCall.register .r15).nth j := by
    rw [Nat.add_assoc] at hroom
    exact fun i hi => hroom.pushed_ne hrsp hr15 i (by omega)
  have htransfer : image.code[atCall.next]? =
      some (transfer context callee (context.config.parameters.take operands.length)) :=
    hcode.right.head
  have hplaced : atCall.Delivers context.config.parameters words (atCall.register .rsp) :=
    hdelivers.continueAt _
  obtain ⟨entered, started, copied, hstep, hentry, hprelude, hstart, hcopies, hcopied⟩ :=
    exists_called htransfer hreserved hcallee htarget haligned hbound hplaced hparameters
      (hlength.trans hwords.symm) hroomLeft (by omega) hapart
  refine ⟨before, _, after, atCall, entered, started, copied, hsplit, ?_, hbefore, rfl,
    haligned, hstep, hentry, hprelude, hstart, hcopies, ?_, ?_⟩
  · exact ⟨_, transfer_eq _ htarget⟩
  · intro i hi
    have hi' : i < words.length := by omega
    rw [List.getElem?_eq_getElem hi']
    exact hcopied i _ _ (List.getElem?_eq_getElem hi) (List.getElem?_eq_getElem hi')
  · intro returned hnext hreturned
    have hcount : (operands.drop context.config.parameters.length).length =
        arguments.length - context.config.parameters.length := by
      rw [List.length_drop, hoperands]
    have hbelow : returned.register .rsp = (machine.register .rsp).below
        ((operands.drop context.config.parameters.length).length +
          (operands.drop context.config.parameters.length).length % 2) := by
      rw [hreturned, hcount]
      exact hrsp
    have hafter : image.HasCode returned.next after := hnext ▸ hcode.right.tail
    obtain ⟨last, hlast, hend, hback⟩ := exists_released hafter (by omega) hbelow
    refine ⟨last, hlast, ?_, hback⟩
    rw [hend, hnext, hsplit, List.length_append, List.length_cons]
    change machine.next + before.length + 1 + after.length = _
    omega

/-- Two parameter registers, and one function. -/
def fiveContext : Context where
  config := { parameters := [.rsi, .rdx] }
  functionNames := .ofList ["f"]
  conclusion := "g.conclusion"

/-- Five arguments: constants, variables and a function. -/
def fiveArguments : List Flow.Atom :=
  [.const (.int 7), .var "x", .var "f", .const (.bool true), .var "y"]

/-- A frame of every kind of words. -/
def fiveFrame : Frame where
  stackSlots := 3
  rootSlots := 1
  calleeSaved := [.rbx, .r12]

/-- The code of the call of `h` with five arguments. -/
def fiveCode : List Instruction :=
  match call fiveContext (.var "h") fiveArguments {} with
  | .ok (code, _) => code
  | .error _ => []

/-- The code of the call, and a function with five parameters. -/
def fiveImage : Image :=
  .ofProgram ⟨[⟨"g", [⟨"g", fiveCode⟩], ∅, {}⟩,
    ⟨"f", [⟨"f", X86.FrameCode.prelude fiveContext.config "f" fiveFrame⟩,
      ⟨"f.start", copyParameters [.rsi, .rdx] ["a", "b", "c", "d", "e"]⟩], ∅, fiveFrame⟩]⟩

/-- A machine with the function in the variable `h`. -/
def fiveMachine : Machine :=
  (({ memory := { regions := [⟨⟨4096, 8192⟩, .stack⟩, ⟨⟨8192, 8256⟩, .rootStack⟩] }
      nextHeap := 0
      bindings := some fun name =>
        if name = "x" then 40 else if name = "y" then 50
        else Image.addressOf fiveCode.length } : Machine).setRegister .rsp 8192).setRegister
    .r15 8200

/-- A call through a variable: two arguments travel in registers and three on the stack. -/
theorem call_delivers_arguments_five :
    ∃ atCall entered started copied : Machine, ∃ before after,
      fiveMachine.Steps fiveImage before atCall ∧ atCall.register .rsp % 16 = 0 ∧
      atCall.step fiveImage = .ok (.running entered) ∧
      entered.Steps fiveImage (X86.FrameCode.prelude {} "f" fiveFrame).length started ∧
      started.Steps fiveImage 5 copied ∧
      copied.value? "a" = some 7 ∧ copied.value? "b" = some 40 ∧
      copied.value? "c" = some (Image.addressOf fiveCode.length) ∧ copied.value? "d" = some 1 ∧
      copied.value? "e" = some 50 ∧
      ∀ returned : Machine, returned.next = atCall.next + 1 →
        returned.register .rsp = atCall.register .rsp →
        ∃ last, returned.Steps fiveImage after last ∧ last.next = fiveCode.length ∧
          last.register .rsp = 8192 := by
  have hcall : call fiveContext (.var "h") fiveArguments {} = .ok (fiveCode, ⟨1⟩) := rfl
  have hcan : CanCall fiveContext fiveImage {} "h" fiveArguments
      [7, 40, Image.addressOf fiveCode.length, 1, 50] fiveMachine := by
    refine ⟨rfl, ?_, ?_, by decide +kernel⟩
    · refine .cons rfl (.cons ?_ (.cons ?_ (.cons rfl (.cons ?_ .nil)))) <;> decide +kernel
    · intro name hname _ hnewer
      have hgenerated := hnewer.isGenerated
      simp only [fiveArguments, List.mem_cons, List.not_mem_nil, or_false, Flow.Atom.var.injEq,
        reduceCtorEq, false_or] at hname
      rcases hname with rfl | rfl | rfl | rfl <;> exact absurd hgenerated (by decide)
  have hcallee : fiveImage.HasCallee fiveContext.config "f" ["a", "b", "c", "d", "e"] fiveFrame
      fiveCode.length (fiveCode.length + 8) := by
    refine ⟨by decide, ?_, ?_, ?_, ?_⟩ <;> decide +kernel
  have hleads : LeadsTo fiveContext fiveImage fiveMachine "h" "f" fiveCode.length := by
    unfold LeadsTo
    rw [if_neg (by decide +kernel)]
    exact ⟨Image.addressOf fiveCode.length, by decide +kernel, by decide +kernel⟩
  have hroom : fiveMachine.StackRoom (Machine.stackWords fiveArguments.length
      fiveContext.config.parameters.length + 2 + fiveFrame.calleeSaved.length)
      fiveFrame.rootSlots := by
    refine ⟨by decide, ?_, ?_, ?_⟩ <;> decide +kernel
  obtain ⟨before, -, after, atCall, entered, started, copied, -, -, hbefore, -, haligned, hstep, -,
    hprelude, -, hcopies, hcopied, hreturn⟩ := call_delivers_arguments hcall (by decide +kernel)
    hcan (by decide) (by decide) hcallee hleads (by decide) rfl hroom
  refine ⟨atCall, entered, started, copied, before.length, after.length, hbefore, haligned, hstep,
    hprelude, hcopies, hcopied 0 (by decide), hcopied 1 (by decide), hcopied 2 (by decide),
    hcopied 3 (by decide), hcopied 4 (by decide), ?_⟩
  intro returned hnext hrsp
  obtain ⟨last, hsteps, hlast, hback⟩ := hreturn returned hnext hrsp
  exact ⟨last, hsteps, hlast.trans (Nat.zero_add _), hback.trans (by decide +kernel)⟩

end Selection

end TupleLang
