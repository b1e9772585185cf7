import TupleLang.Proofs.CodeRuns
import TupleLang.Proofs.FrameBuilding
import TupleLang.Proofs.StackDepth

/-!
# The calling convention

The leading arguments of a call are in the parameter registers and the others on the stack, the
first of them on top (`Machine.Delivers`).  The prelude of the callee pushes the old base pointer,
so it finds them two words above the new one, and nothing that it does to the stack or to the root
stack comes near them: once it has copied its parameters, they have the values of the arguments
(`Machine.exists_entered`).
-/

namespace TupleLang

open Stateful
open X86 (BinaryOperator Frame Instruction Operand Register)

/-! ## Straight code -/

namespace Selection

variable {instruction : Instruction}

/-- Loads of addresses are straight. -/
theorem IsLoad.isStraight {context : Context} (h : IsLoad context instruction) :
    instruction.isStraight = true :=
  X86.Instruction.isStraight_of_keepsTop h.keepsTop

/-- So is code that computes. -/
theorem Computes.isStraight {context : Context} {value : Flow.Operation} {target : Name}
    {code : List Instruction} (h : Computes context value (.var target) code) :
    ∀ instruction ∈ code, instruction.isStraight = true :=
  fun instruction hmem => X86.Instruction.isStraight_of_keepsTop (h.keepsTop instruction hmem)

/-- So are arguments in registers. -/
theorem isStraight_of_mem_passInRegisters {registers : List Register} {operands : List Operand}
    (h : instruction ∈ passInRegisters registers operands) : instruction.isStraight = true := by
  obtain ⟨pair, -, rfl⟩ := List.mem_map.mp h
  rfl

/-- So is the code that brings all arguments to their places. -/
theorem isStraight_of_mem_setUp {registers : List Register} {operands : List Operand}
    (h : instruction ∈ setUp registers operands) : instruction.isStraight = true := by
  rw [setUp, List.mem_append, List.mem_append] at h
  rcases h with (h | h) | h
  · exact X86.isStraight_of_mem_ite rfl h
  · obtain ⟨operand, -, rfl⟩ := List.mem_map.mp h
    rfl
  · exact isStraight_of_mem_passInRegisters h

end Selection

namespace Machine

variable {image : Image} {machine machine' : Machine}

/-! ## Moves and pushes -/

/-- The machine with other values of variables. -/
def withBindings (machine : Machine) (values : Name → Word) : Machine :=
  { machine with bindings := some values }

variable {values : Name → Word} {operands : List Operand} {words : List Word}
  {registers : List Register}

/-- Bindings that are there already. -/
theorem withBindings_of_eq (h : machine.bindings = some values) :
    machine.withBindings values = machine := by
  unfold withBindings
  rw [← h]

/-- Gives a variable another value. -/
theorem write_withBindings (machine : Machine) (values : Name → Word) (name : Name) (word : Word) :
    (machine.withBindings values).write (.var name) word =
      .ok (machine.withBindings fun other => if other = name then word else values other) :=
  rfl

/-- The value of a constant or a variable. -/
def valueIn (values : Name → Word) : Operand → Option Word
  | .immediate word => some word
  | .var name => some (values name)
  | _ => none

/-- An operand has its value. -/
theorem read_of_valueIn (hvalues : machine.bindings = some values) {operand : Operand} {word : Word}
    (h : valueIn values operand = some word) : machine.read operand = .ok word := by
  cases operand with
  | immediate value =>
    cases h
    rfl
  | var name =>
    cases h
    rw [read, hvalues]
  | _ => cases h

/-- Operands are pushed from the last one to the first one, which comes to lie on top. -/
theorem exists_pushAll (image : Image) (hvalues : machine.bindings = some values)
    (hoperands : List.Forall₂ (fun operand word => valueIn values operand = some word) operands
      words)
    (hmapped : ∀ i < operands.length,
      machine.memory.isMapped ((machine.register .rsp).below (i + 1)) = true)
    (hlength : operands.length < 2 ^ 61) :
    ∃ m, machine.executeAll image (operands.reverse.map .pushq) = .ok m ∧
      ChangesOnly [.rsp] (fun _ => True) machine m ∧
      m.register .rsp = (machine.register .rsp).below operands.length ∧
      ∀ i word, words[i]? = some word → m.memory.load ((m.register .rsp).nth i) = .ok word := by
  induction hoperands with
  | nil =>
    refine ⟨machine, rfl, .refl _ _ machine, (Word.below_zero _).symm, ?_⟩
    intro i word hword
    cases hword
  | @cons operand word operands words hoperand hrest ih =>
    rw [List.length_cons] at hmapped hlength
    obtain ⟨m, hm, hchanges, hrsp, hloads⟩ := ih
      (fun i hi => hmapped i (Nat.lt_succ_of_lt hi)) (Nat.lt_of_succ_lt hlength)
    have hbelow : (m.register .rsp).below 1 =
        (machine.register .rsp).below (operands.length + 1) := by
      rw [hrsp, Word.below_add]
    have htop : m.memory.isMapped ((m.register .rsp).below 1) = true := by
      rw [hbelow, hchanges.isMapped_eq]
      exact hmapped _ (Nat.lt_succ_self _)
    obtain ⟨m', hpush, hpushed, hrsp', hload⟩ := exists_push htop word
    refine ⟨m', ?_, hchanges.trans (hpushed.mono (fun _ => id) fun _ _ => trivial),
      hrsp'.trans hbelow, ?_⟩
    · rw [List.reverse_cons, List.map_append, executeAll_append_of_ok _ hm, List.map_singleton,
        executeAll_singleton, advance_pushq]
      exact Except.bind_eq_ok.mpr
        ⟨word, read_of_valueIn (hchanges.bindings_eq.trans hvalues) hoperand, hpush⟩
    · intro i found hfound
      cases i with
      | zero =>
        cases hfound
        rw [Word.nth_zero]
        exact hload
      | succ i =>
        obtain ⟨hi, -⟩ := List.getElem?_eq_some_iff.mp hfound
        rw [List.length_cons, ← hrest.length_eq] at hi
        have hne : (m.register .rsp).nth i ≠ (m.register .rsp).below 1 :=
          Word.nth_ne_below Nat.one_pos (by omega)
        rw [hrsp', Nat.add_comm i 1, Word.nth_below_add, hpushed.load_eq _ hne]
        exact hloads i found hfound

/-- Operands are moved into different registers. -/
theorem exists_passInRegisters (image : Image) (hvalues : machine.bindings = some values)
    (hnodup : registers.Nodup)
    (hoperands : List.Forall₂ (fun operand word => valueIn values operand = some word) operands
      words) :
    ∃ m, machine.executeAll image (Selection.passInRegisters registers operands) = .ok m ∧
      ChangesOnly registers (fun _ => False) machine m ∧
      ∀ (i : Nat) full word, registers[i]? = some full → words[i]? = some word →
        m.register full = word := by
  induction registers generalizing machine operands words with
  | nil =>
    refine ⟨machine, ?_, .refl _ _ machine, ?_⟩
    · rw [Selection.passInRegisters, List.zip_nil_right]
      rfl
    · intro i full word hfull
      cases hfull
  | cons full registers ih =>
    cases hoperands with
    | nil =>
      refine ⟨machine, rfl, .refl _ _ machine, ?_⟩
      intro i full word _ hword
      cases hword
    | @cons operand word operands words hoperand hrest =>
      obtain ⟨hfull, hnodup⟩ := List.nodup_cons.mp hnodup
      have hmoved : ChangesOnly (full :: registers) (fun _ => False) machine
          (machine.setRegister full word) :=
        changesOnly_setRegister machine List.mem_cons_self _ word
      have hvalues' : (machine.setRegister full word).bindings = some values := hvalues
      obtain ⟨m, hm, hchanges, hregisters⟩ := ih hvalues' hnodup hrest
      refine ⟨m, ?_, hmoved.trans (hchanges.mono (fun _ => List.mem_cons_of_mem _) fun _ => id), ?_⟩
      · rw [Selection.passInRegisters, List.zip_cons_cons, List.map_cons,
          executeAll_cons_of_ok _ (advance_movq (read_of_valueIn hvalues hoperand) rfl)]
        exact hm
      · intro i other found hother hfound
        cases i with
        | zero =>
          cases hother
          cases hfound
          rw [hchanges.register_eq full hfull, register_setRegister_self]
        | succ i => exact hregisters i other found hother hfound

/-- Values are copied to different variables. -/
theorem exists_copies (image : Image) {source : Nat → Operand} {parameters : List Name}
    (hnodup : parameters.Nodup) (hlength : parameters.length = words.length)
    (hsource : ∀ i word, words[i]? = some word →
      ∀ values, (machine.withBindings values).read (source i) = .ok word) (values : Name → Word) :
    ∃ values', (machine.withBindings values).executeAll image
        (parameters.mapIdx fun i parameter => .movq (source i) (.var parameter)) =
          .ok (machine.withBindings values') ∧
      (∀ (i : Nat) parameter word, parameters[i]? = some parameter → words[i]? = some word →
        values' parameter = word) ∧
      ∀ name ∉ parameters, values' name = values name := by
  induction parameters generalizing source words values with
  | nil =>
    refine ⟨values, rfl, ?_, fun _ _ => rfl⟩
    intro i parameter word hparameter
    cases hparameter
  | cons parameter parameters ih =>
    cases words with
    | nil => cases hlength
    | cons word words =>
      obtain ⟨hfresh, hnodup⟩ := List.nodup_cons.mp hnodup
      have hsourceRest : ∀ i word, words[i]? = some word →
          ∀ values, (machine.withBindings values).read (source (i + 1)) = .ok word :=
        fun i => hsource (i + 1)
      obtain ⟨values', hcopies, hcopied, hkept⟩ := ih hnodup (Nat.succ.inj hlength) hsourceRest
        (fun other => if other = parameter then word else values other)
      refine ⟨values', ?_, ?_, ?_⟩
      · rw [List.mapIdx_cons, executeAll_cons_of_ok _
          (advance_movq (hsource 0 word rfl values) (write_withBindings ..))]
        exact hcopies
      · intro i other found hother hfound
        cases i with
        | zero =>
          cases hother
          cases hfound
          rw [hkept parameter hfresh, if_pos rfl]
        | succ i => exact hcopied i other found hother hfound
      · intro name hname
        rw [List.mem_cons, not_or] at hname
        rw [hkept name hname.2, if_neg hname.1]

/-! ## The convention -/

/-- The arguments of a call are where a callee finds them: the leading ones in registers, the others
on the stack, the first of them at `top`. -/
structure Delivers (registers : List Register) (words : List Word) (top : Word)
    (machine : Machine) : Prop where
  inRegister : ∀ (i : Nat) full word, registers[i]? = some full → words[i]? = some word →
    machine.register full = word
  onStack : ∀ i word, words[registers.length + i]? = some word →
    machine.memory.load (top.nth i) = .ok word

/-- Whatever changes neither the parameter registers nor the words of the arguments leaves the
arguments in place. -/
theorem Delivers.changesOnly {changed : List Register} {top : Word} {addresses : Word → Prop}
    (h : Delivers registers words top machine)
    (hchanges : ChangesOnly changed addresses machine machine')
    (hregisters : ∀ full ∈ registers, full ∉ changed)
    (haddresses : ∀ i < words.length - registers.length, ¬addresses (top.nth i)) :
    Delivers registers words top machine' where
  inRegister i full word hfull hword := by
    rw [hchanges.register_eq full (hregisters full (List.mem_of_getElem? hfull))]
    exact h.inRegister i full word hfull hword
  onStack i word hword := by
    obtain ⟨hi, -⟩ := List.getElem?_eq_some_iff.mp hword
    rw [hchanges.load_eq _ (haddresses i (by omega))]
    exact h.onStack i word hword

/-- It does not matter where the machine goes on. -/
theorem Delivers.continueAt {top : Word} (h : Delivers registers words top machine) (number : Nat) :
    Delivers registers words top (machine.continueAt number) :=
  ⟨h.inRegister, h.onStack⟩

/-- There is room for so many words below the stack pointer, few enough that no two of them have
the same address and that their number of bytes is positive, and for so many words above the top of
the root stack, and these are apart from the others. -/
structure StackRoom (machine : Machine) (words roots : Nat) : Prop where
  words_lt : words < 2 ^ 60
  stack_mapped : ∀ i < words,
    machine.memory.isMapped ((machine.register .rsp).below (i + 1)) = true
  roots_mapped : ∀ j < roots, machine.memory.isMapped ((machine.register .r15).nth j) = true
  apart : ∀ i < words, ∀ j < roots,
    (machine.register .r15).nth j ≠ (machine.register .rsp).below (i + 1)

/-- What is left of the room once some of the words have been pushed. -/
theorem StackRoom.rest {pushed words roots : Nat} (h : machine.StackRoom (pushed + words) roots)
    (hrsp : machine'.register .rsp = (machine.register .rsp).below pushed)
    (hr15 : machine'.register .r15 = machine.register .r15)
    (hregions : machine'.memory.regions = machine.memory.regions) :
    machine'.StackRoom words roots := by
  have hbelow (i : Nat) : (machine'.register .rsp).below (i + 1) =
      (machine.register .rsp).below (pushed + i + 1) := by
    rw [hrsp, ← Word.below_add, Nat.add_assoc]
  refine ⟨Nat.lt_of_le_of_lt (Nat.le_add_left ..) h.words_lt, fun i hi => ?_, fun j hj => ?_,
    fun i hi j hj => ?_⟩
  · rw [hbelow, Memory.isMapped_congr hregions]
    exact h.stack_mapped _ (Nat.add_lt_add_left hi pushed)
  · rw [hr15, Memory.isMapped_congr hregions]
    exact h.roots_mapped j hj
  · rw [hbelow, hr15]
    exact h.apart _ (Nat.add_lt_add_left hi pushed) j hj

/-- The words that have been pushed lie between the two stack pointers, so they are no roots. -/
theorem StackRoom.pushed_ne {pushed words roots : Nat}
    (h : machine.StackRoom (pushed + words) roots)
    (hrsp : machine'.register .rsp = (machine.register .rsp).below pushed)
    (hr15 : machine'.register .r15 = machine.register .r15) :
    ∀ i < pushed, ∀ j < roots,
      (machine'.register .rsp).nth i ≠ (machine'.register .r15).nth j := by
  intro i hi j hj heq
  have hindex : pushed - i - 1 + 1 + i = pushed := by omega
  have hbelow := Word.nth_below (machine.register .rsp) (pushed - i - 1 + 1) i
  rw [hindex] at hbelow
  rw [hrsp, hr15, hbelow] at heq
  exact h.apart (pushed - i - 1) (by omega) j hj heq.symm

/-- The number of words that the arguments of a call take on the stack, with their padding. -/
def stackWords (arguments registers : Nat) : Nat :=
  arguments - registers + (arguments - registers) % 2

/-- The code that brings the arguments of a call to where the callee expects them. -/
theorem exists_setUp (image : Image) (hvalues : machine.bindings = some values)
    (hnodup : registers.Nodup) (hrsp : .rsp ∉ registers)
    (hoperands : List.Forall₂ (fun operand word => valueIn values operand = some word) operands
      words)
    (hmapped : ∀ i < stackWords operands.length registers.length,
      machine.memory.isMapped ((machine.register .rsp).below (i + 1)) = true)
    (hlength : stackWords operands.length registers.length < 2 ^ 60) :
    ∃ m, machine.executeAll image (Selection.setUp registers operands) = .ok m ∧
      ChangesOnly (.rsp :: registers) (fun _ => True) machine m ∧
      m.register .rsp =
        (machine.register .rsp).below (stackWords operands.length registers.length) ∧
      Delivers registers words (m.register .rsp) m := by
  let count := operands.length - registers.length
  have hcount : (operands.drop registers.length).length = count := List.length_drop
  unfold stackWords at hmapped hlength ⊢
  change ∀ i < count + count % 2, _ at hmapped
  change count + count % 2 < _ at hlength
  -- The padding moves the stack pointer by no word or by one.
  have hpadding : ∃ m, machine.executeAll image (Selection.padding count) = .ok m ∧
      ChangesOnly [.rsp] (fun _ => True) machine m ∧
      m.register .rsp = (machine.register .rsp).below (count % 2) := by
    obtain ⟨m, hm, hchanges, hrsp⟩ := exists_adjust image machine
      (rfl : BinaryOperator.subq.isArithmetic = true) (count % 2 = 1) 8 .rsp
    refine ⟨m, hm, hchanges.mono (fun _ => id) fun _ => False.elim, ?_⟩
    rw [hrsp]
    split
    · next hodd => rw [hodd, Word.below_one, compute]
    · next heven =>
      have hzero : count % 2 = 0 := by omega
      rw [hzero, Word.below_zero]
  obtain ⟨m₁, hm₁, hchanges₁, hrsp₁⟩ := hpadding
  have hmapped₁ : ∀ i < (operands.drop registers.length).length,
      m₁.memory.isMapped ((m₁.register .rsp).below (i + 1)) = true := by
    intro i hi
    rw [hchanges₁.isMapped_eq, hrsp₁, ← Word.below_add, ← Nat.add_assoc, Nat.add_comm _ i]
    exact hmapped _ (by omega)
  obtain ⟨m₂, hm₂, hchanges₂, hrsp₂, hloads⟩ := exists_pushAll image
    (hchanges₁.bindings_eq.trans hvalues) (List.forall₂_drop registers.length hoperands) hmapped₁
    (by omega)
  have hbindings₂ : m₂.bindings = some values :=
    hchanges₂.bindings_eq.trans (hchanges₁.bindings_eq.trans hvalues)
  obtain ⟨m₃, hm₃, hchanges₃, hpassed⟩ := exists_passInRegisters image hbindings₂ hnodup
    hoperands
  have hrsp₃ : m₃.register .rsp = m₂.register .rsp := hchanges₃.register_eq .rsp hrsp
  refine ⟨m₃, ?_, ?_, ?_, hpassed, ?_⟩
  · rw [Selection.setUp, hcount, List.append_assoc, executeAll_append_of_ok _ hm₁,
      executeAll_append_of_ok _ hm₂]
    exact hm₃
  · have hstack : ChangesOnly (.rsp :: registers) (fun _ => True) machine m₂ :=
      (hchanges₁.trans hchanges₂).mono
        (fun full hfull => List.mem_singleton.mp hfull ▸ List.mem_cons_self) fun _ => id
    exact hstack.trans
      (hchanges₃.mono (fun _ => List.mem_cons_of_mem _) fun _ => False.elim)
  · rw [hrsp₃, hrsp₂, hrsp₁, ← Word.below_add, hcount, Nat.add_comm]
  · intro i word hword
    rw [hrsp₃, hchanges₃.load_eq _ id]
    refine hloads i word ?_
    rw [List.getElem?_drop]
    exact hword

/-! ## The callee -/

/-- The prelude of a function without its last jump. -/
def frameSetUp (frame : Frame) : List Instruction :=
  [.pushq X86.FrameCode.rbp, .movq X86.FrameCode.rsp X86.FrameCode.rbp] ++
    (frame.calleeSaved.map (fun register => .pushq (.register register)) ++
    ((if 0 < frame.stackAdjustment then
      [.subq (.immediate frame.stackAdjustment) X86.FrameCode.rsp] else []) ++
    (X86.FrameCode.clearRoots 0 frame.rootSlots ++
    (if 0 < frame.rootSlots then
      [.addq (.immediate frame.rootStackBytes) X86.FrameCode.r15] else []))))

/-- A frame is set up in two parts. -/
theorem frameSetUp_eq (frame : Frame) : frameSetUp frame =
    X86.FrameCode.saveRegisters frame ++ X86.FrameCode.takeRoots frame := by
  unfold frameSetUp X86.FrameCode.saveRegisters X86.FrameCode.takeRoots
  simp only [List.append_assoc]

/-- The prelude of all functions but the entry point. -/
theorem prelude_eq (config : Config) {name : Name} (hname : name ≠ Name.entryPoint)
    (frame : Frame) : X86.FrameCode.prelude config name frame =
      frameSetUp frame ++ [.jump name.startLabel] := by
  rw [X86.FrameCode.prelude_parts, if_neg hname, frameSetUp_eq, List.nil_append, List.append_assoc]

/-- Setting up a frame is straight. -/
theorem isStraight_of_mem_frameSetUp {frame : Frame} {instruction : Instruction}
    (h : instruction ∈ frameSetUp frame) : instruction.isStraight = true := by
  rw [frameSetUp_eq, List.mem_append] at h
  exact h.elim X86.FrameCode.isStraight_of_mem_saveRegisters
    X86.FrameCode.isStraight_of_mem_takeRoots

/-- The prelude leaves the base pointer below the return address, and it stores only to the words
below that and to the root slots of its frame. -/
theorem exists_frameSetUp (image : Image) (frame : Frame)
    (hroom : machine.StackRoom (1 + frame.calleeSaved.length) frame.rootSlots) :
    ∃ m, machine.executeAll image (frameSetUp frame) = .ok m ∧
      m.register .rbp = (machine.register .rsp).below 1 ∧
      ChangesOnly [.rsp, .rbp, .r15] (fun address =>
        (∃ i < 1 + frame.calleeSaved.length, address = (machine.register .rsp).below (i + 1)) ∨
        ∃ j < frame.rootSlots, address = (machine.register .r15).nth j) machine m := by
  have hlength : frame.calleeSaved.length < 2 ^ 60 :=
    Nat.lt_of_le_of_lt (Nat.le_add_left ..) hroom.words_lt
  obtain ⟨m, hm, hrbp, hsaved, -⟩ := exists_saveRegisters image frame hlength hroom.stack_mapped
  have hr15 : m.register .r15 = machine.register .r15 := hsaved.register_eq .r15 (by decide)
  have hmapped : ∀ j < frame.rootSlots,
      m.memory.isMapped ((m.register .r15).nth j) = true := by
    intro j hj
    rw [hr15, hsaved.isMapped_eq]
    exact hroom.roots_mapped j hj
  obtain ⟨m', hm', hroots, -, -⟩ := exists_takeRoots image frame hmapped
  rw [hr15] at hroots
  refine ⟨m', ?_, (hroots.register_eq .rbp (by decide)).trans hrbp, ?_⟩
  · rw [frameSetUp_eq]
    exact (executeAll_append_of_ok _ hm).trans hm'
  · exact (hsaved.mono (by decide) fun _ => .inl).trans (hroots.mono (by decide) fun _ => .inr)

/-- Every argument is where the function looks for it. -/
theorem read_argumentSource {top : Word} (hdelivers : Delivers registers words top machine)
    (hrbp : machine.register .rbp = top.below 2) {i : Nat} {word : Word}
    (hword : words[i]? = some word) :
    machine.read (Selection.argumentSource registers i) = .ok word := by
  unfold Selection.argumentSource
  cases hfull : registers[i]? with
  | some full => exact congrArg Except.ok (hdelivers.inRegister i full word hfull hword)
  | none =>
    have hle : registers.length ≤ i := List.getElem?_eq_none_iff.mp hfull
    have haddress : machine.register .rbp + (16 + 8 * Word.ofCount (i - registers.length)) =
        top.nth (i - registers.length) := by
      have htwo : Word.ofCount 2 = 2 := rfl
      rw [hrbp, Word.below, Word.nth, htwo]
      grind
    change machine.memory.load _ = .ok word
    rw [haddress]
    refine hdelivers.onStack _ word ?_
    rwa [Nat.add_sub_cancel' hle]

end Machine

/-- A function can be called in an image: its prelude stands under its name, and the copying of its
parameters at its start. -/
structure Image.HasCallee (image : Image) (config : Config) (name : Name) (parameters : List Name)
    (frame : Frame) (entry start : Nat) : Prop where
  not_reserved : name ∉ Name.reserved
  entry_eq : image.label name = .ok entry
  prelude : image.HasCode entry (X86.FrameCode.prelude config name frame)
  start_eq : image.label name.startLabel = .ok start
  opening : image.HasCode start (Selection.copyParameters config.parameters parameters)

namespace Machine

variable {image : Image} {machine machine' : Machine}

/-- A function whose arguments are in place builds its frame and copies them to its parameters. -/
theorem exists_entered {config : Config} {name : Name} {parameters : List Name} {frame : Frame}
    {start : Nat}
    (hcallee : image.HasCallee config name parameters frame machine.next start)
    (hnodup : parameters.Nodup)
    (hreserved : ∀ full ∈ config.parameters, full ∉ Config.reservedRegisters)
    {words : List Word} (hlength : parameters.length = words.length) {top : Word}
    (hdelivers : Delivers config.parameters words top machine)
    (hrsp : machine.register .rsp = top.below 1) (hbound : machine.bindings.isSome = true)
    (hroom : machine.StackRoom (1 + frame.calleeSaved.length) frame.rootSlots)
    (hfew : words.length - config.parameters.length + (2 + frame.calleeSaved.length) < 2 ^ 61)
    (hapart : ∀ i < words.length - config.parameters.length, ∀ j < frame.rootSlots,
      top.nth i ≠ (machine.register .r15).nth j) :
    ∃ started copied,
      machine.Steps image (X86.FrameCode.prelude config name frame).length started ∧
      started.next = start ∧ started.Steps image parameters.length copied ∧
      ∀ (i : Nat) parameter word, parameters[i]? = some parameter → words[i]? = some word →
        copied.value? parameter = some word := by
  have hname : name ≠ Name.entryPoint := by
    intro heq
    exact hcallee.not_reserved (heq ▸ List.mem_cons_self)
  obtain ⟨m, hm, hrbp, hchanges⟩ := exists_frameSetUp image frame hroom
  have hprelude := prelude_eq config hname frame ▸ hcallee.prelude
  -- The prelude runs to its last jump, and the jump leads to the first block.
  have hsteps : machine.Steps image (X86.FrameCode.prelude config name frame).length
      (m.continueAt start) := by
    have hbuild := Steps.of_executeAll hprelude.left (fun _ => isStraight_of_mem_frameSetUp) hm
    have hjump : (m.continueAt (machine.next + (frameSetUp frame).length)).step image =
        .ok (.running (m.continueAt start)) :=
      step_jump hprelude.right.head hcallee.start_eq
    rw [prelude_eq config hname frame, List.length_append]
    exact hbuild.trans (.single hjump)
  have hplaced : Delivers config.parameters words top (m.continueAt start) := by
    refine (hdelivers.changesOnly hchanges ?_ ?_).continueAt start
    · intro full hfull hmem
      refine hreserved full hfull ?_
      simp only [List.mem_cons, List.not_mem_nil, or_false] at hmem
      rcases hmem with rfl | rfl | rfl <;> decide
    · rintro i hi (⟨j, hj, heq⟩ | ⟨j, hj, heq⟩)
      · rw [hrsp, ← Word.below_add] at heq
        exact Word.nth_ne_below (by omega) (by omega) heq
      · exact hapart i hi j hj heq
  have hbase : (m.continueAt start).register .rbp = top.below 2 := by
    change m.register .rbp = _
    rw [hrbp, hrsp, ← Word.below_add]
  obtain ⟨values, hvalues⟩ := Option.isSome_iff_exists.mp hbound
  have hstarted : (m.continueAt start).withBindings values = m.continueAt start :=
    withBindings_of_eq (hchanges.bindings_eq.trans hvalues)
  have hsource : ∀ i word, words[i]? = some word → ∀ values,
      ((m.continueAt start).withBindings values).read
        (Selection.argumentSource config.parameters i) = .ok word := by
    intro i word hword values
    have hkept : Delivers config.parameters words top ((m.continueAt start).withBindings values) :=
      ⟨hplaced.inRegister, hplaced.onStack⟩
    exact read_argumentSource hkept hbase hword
  obtain ⟨values', hcopies, hcopied, -⟩ := exists_copies image hnodup hlength hsource values
  rw [hstarted] at hcopies
  have hstraight : ∀ instruction ∈ Selection.copyParameters config.parameters parameters,
      instruction.isStraight = true := by
    intro instruction hmem
    obtain ⟨i, hi, rfl⟩ := List.mem_mapIdx.mp hmem
    rfl
  have hopening : image.HasCode (m.continueAt start).next
      (Selection.copyParameters config.parameters parameters) := hcallee.opening
  have hcopy := Steps.of_executeAll hopening hstraight hcopies
  rw [Selection.copyParameters, List.length_mapIdx] at hcopy
  refine ⟨_, _, hsteps, rfl, hcopy, ?_⟩
  intro i parameter word hparameter hword
  exact congrArg some (hcopied i parameter word hparameter hword)

end Machine

end TupleLang
