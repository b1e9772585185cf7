import TupleLang.Proofs.LinkedCode

/-!
# Labels that are found

A finished program is closed.  Every name that an instruction mentions stands for something of the
program or of the run-time system, and different blocks have different labels, so no run of the
program stops because a label stands nowhere, and every label stands for its own block
(`Program.lowered_code_is_closed`).

Only three things that an instruction does can miss a label: a jump, a call, and taking an address.
All other parts of the machine report other errors only (`Machine.FindsLabels`).
-/

namespace TupleLang

open X86 (BinaryOperator Instruction Operand)

/-! ## Computations that find labels -/

/-- The computation does not fail because a label stands nowhere. -/
def Machine.FindsLabels {α : Type} (x : Except MachineError α) : Prop :=
  ∀ label, x ≠ .error (.unknownLabel label)

open Machine (FindsLabels)

namespace Machine.FindsLabels

variable {α β : Type}

/-- A result is no failure. -/
theorem ok (a : α) : FindsLabels (.ok a) := by
  intro label h
  cases h

/-- Two steps find their labels if each of them does. -/
theorem bind {x : Except MachineError α} {f : α → Except MachineError β} (hx : FindsLabels x)
    (hf : ∀ a, FindsLabels (f a)) : FindsLabels (x >>= f) := by
  cases x with
  | ok a => exact hf a
  | error error =>
    intro label h
    cases h
    exact hx label rfl

end Machine.FindsLabels

/-! ## Memory and the collector -/

namespace Memory

/-- Looking for a region needs no labels. -/
theorem findsLabels_region (memory : Memory) (address : Word) :
    FindsLabels (memory.region address) := by
  intro label h
  rw [region] at h
  split at h
  · cases h
  · split at h <;> cases h

/-- Loads need no labels. -/
theorem findsLabels_load (memory : Memory) (address : Word) :
    FindsLabels (memory.load address) := by
  refine (findsLabels_region memory address).bind fun region label h => ?_
  split at h
  · cases h
  · split at h <;> cases h

/-- Stores need no labels. -/
theorem findsLabels_store (memory : Memory) (address word : Word) :
    FindsLabels (memory.store address word) :=
  (findsLabels_region memory address).bind fun _ => .ok _

end Memory

namespace Copying

/-- Copying words needs no labels. -/
theorem findsLabels_copyWords (source target : Word) (count : Nat) (memory : Memory) :
    FindsLabels (copyWords source target count memory) := by
  induction count generalizing source target memory with
  | zero => exact .ok memory
  | succ count ih =>
    exact (memory.findsLabels_load source).bind fun word =>
      (memory.findsLabels_store target word).bind fun memory => ih _ _ memory

/-- Copying a tuple needs no labels. -/
theorem findsLabels_copy (copying : Copying) (tuple : Word) :
    FindsLabels (copying.copy tuple) := by
  refine (copying.memory.findsLabels_load tuple).bind fun tag => ?_
  split
  · exact .ok _
  · exact (findsLabels_copyWords _ _ _ _).bind fun memory =>
      (memory.findsLabels_store _ _).bind fun _ => .ok _

/-- Forwarding an address needs no labels. -/
theorem findsLabels_relocate (old : AddressRange) (copying : Copying) (address : Word) :
    FindsLabels (copying.relocate old address) := by
  refine (copying.memory.findsLabels_load address).bind fun word => ?_
  split
  · exact .ok _
  · exact (copying.findsLabels_copy word).bind fun entry =>
      (entry.2.memory.findsLabels_store address entry.1).bind fun _ => .ok _

/-- Forwarding the words of a range needs no labels. -/
theorem findsLabels_relocateWords (old : AddressRange) (address : Word) (count : Nat)
    (copying : Copying) : FindsLabels (relocateWords old address count copying) := by
  induction count generalizing address copying with
  | zero => exact .ok copying
  | succ count ih =>
    exact (copying.findsLabels_relocate old address).bind fun copying => ih _ copying

/-- Forwarding the fields of a tuple needs no labels. -/
theorem findsLabels_relocateFields (old : AddressRange) (tuple mask : Word) (field count : Nat)
    (copying : Copying) : FindsLabels (relocateFields old tuple mask field count copying) := by
  induction count generalizing field copying with
  | zero => exact .ok copying
  | succ count ih =>
    rw [relocateFields]
    split
    · exact (copying.findsLabels_relocate old _).bind fun copying => ih _ copying
    · exact (FindsLabels.ok _).bind fun copying => ih _ copying

/-- Scanning the copied tuples needs no labels. -/
theorem findsLabels_scan (old : AddressRange) (turns : Nat) (tuple : Word) (copying : Copying) :
    FindsLabels (scan old turns tuple copying) := by
  induction turns generalizing tuple copying with
  | zero => exact .ok copying
  | succ turns ih =>
    rw [scan]
    split
    · exact (copying.memory.findsLabels_load tuple).bind fun tag =>
        (findsLabels_relocateFields old tuple _ 0 _ copying).bind fun copying => ih _ copying
    · exact .ok copying

/-- A whole collection needs no labels. -/
theorem findsLabels_collect (old : AddressRange) (rootsBegin rootsEnd target : Word)
    (memory : Memory) : FindsLabels (collect old rootsBegin rootsEnd target memory) :=
  (findsLabels_relocateWords old rootsBegin _ _).bind fun copying =>
    findsLabels_scan old addressSpaceWords target copying

end Copying

/-! ## Instructions -/

namespace Machine

variable (machine : Machine)

/-- Globals are not labels. -/
theorem findsLabels_global (name : Name) : FindsLabels (machine.global name) := by
  intro label h
  rw [global] at h
  split at h <;> cases h

/-- Stores of the machine need no labels. -/
theorem findsLabels_store (address word : Word) : FindsLabels (machine.store address word) :=
  (machine.memory.findsLabels_store address word).bind fun _ => .ok _

/-- Operands are read without labels. -/
theorem findsLabels_read (operand : Operand) : FindsLabels (machine.read operand) := by
  cases operand with
  | immediate | register | byteRegister => exact .ok _
  | deref base offset => exact machine.memory.findsLabels_load _
  | global name => exact machine.findsLabels_global name
  | var name =>
    intro label h
    rw [read] at h
    split at h <;> cases h

/-- Operands are written without labels. -/
theorem findsLabels_write (operand : Operand) (word : Word) :
    FindsLabels (machine.write operand word) := by
  cases operand with
  | immediate value =>
    intro label h
    cases h
  | register | byteRegister => exact .ok _
  | deref base offset => exact machine.findsLabels_store _ word
  | global name => exact (machine.findsLabels_global name).bind fun _ => .ok _
  | var name =>
    intro label h
    rw [write] at h
    split at h <;> cases h

/-- Pushes need no labels. -/
theorem findsLabels_push (word : Word) : FindsLabels (machine.push word) :=
  (machine.findsLabels_store _ word).bind fun _ => .ok _

/-- Pops need no labels. -/
theorem findsLabels_pop : FindsLabels machine.pop :=
  (machine.memory.findsLabels_load _).bind fun _ => .ok _

/-- The collector of the machine needs no labels. -/
theorem findsLabels_collect (rootStackTop bytes : Word) :
    FindsLabels (machine.collect rootStackTop bytes) := by
  rw [collect]
  split
  · refine (machine.findsLabels_global _).bind fun rootStackBegin => ?_
    refine (machine.findsLabels_global _).bind fun free => ?_
    exact (Copying.findsLabels_collect _ _ _ _ _).bind fun _ => .ok _
  · intro label h
    cases h

/-- The run-time system needs no labels. -/
theorem findsLabels_serve (service : Service) : FindsLabels (machine.serve service) := by
  cases service with
  | printInt | mapHeap => exact .ok _
  | collect => exact (machine.findsLabels_collect _ _).bind fun _ => .ok _

/-- The check of the stack pointer needs no labels. -/
theorem findsLabels_checkAlignment (target : String) :
    FindsLabels (machine.checkAlignment target) := by
  intro label h
  rw [checkAlignment] at h
  split at h <;> cases h

end Machine

namespace Image

/-- An address that is no code is no missing label. -/
theorem findsLabels_decode (image : Image) (address : Word) :
    FindsLabels (image.decode address) := by
  intro label h
  rw [decode] at h
  split at h <;> cases h

/-- All the names stand for places in the image. -/
def Finds (image : Image) (names : List Name) : Prop :=
  ∀ name ∈ names, ∃ number, image.labels[name]? = some number

/-- A label that stands in the image is found. -/
theorem Finds.label {image : Image} {names : List Name} (h : image.Finds names) {name : Name}
    (hname : name ∈ names) : FindsLabels (image.label name) := by
  obtain ⟨number, hnumber⟩ := h name hname
  rw [Image.label, hnumber]
  exact .ok number

end Image

namespace Machine

variable {image : Image} {entries labels : List Name} (machine : Machine)

/-- The run-time system offers exactly its services. -/
theorem Service.ofName?_eq_none_iff {name : Name} :
    Service.ofName? name = none ↔ name ∉ Name.services := by
  rw [Service.ofName?, Name.services]
  split
  · simp_all
  · split
    · simp_all
    · split <;> simp_all

/-- The address of a function of the program is found. -/
theorem findsLabels_effectiveAddress (hentries : image.Finds entries) {operand : Operand}
    (h : operand.namesOnly entries = true) :
    FindsLabels (machine.effectiveAddress image operand) := by
  cases operand with
  | global name =>
    obtain ⟨number, hnumber⟩ := hentries name (List.contains_iff_mem.mp h)
    rw [effectiveAddress, hnumber]
    exact .ok _
  | deref base offset => exact .ok _
  | _ =>
    intro label h
    cases h

/-- So are the addresses that a linked instruction takes. -/
theorem findsLabels_executeBinary (hentries : image.Finds entries) {operator : BinaryOperator}
    {source destination : Operand}
    (h : (Instruction.binary operator source destination).isLinked entries labels = true) :
    FindsLabels (machine.executeBinary image operator source destination) := by
  cases operator with
  | leaq =>
    exact (machine.findsLabels_effectiveAddress hentries (Bool.and_eq_true_iff.mp h).1).bind
      fun word => machine.findsLabels_write destination word
  | cmpq =>
    exact (machine.findsLabels_read source).bind fun _ =>
      (machine.findsLabels_read destination).bind fun _ => .ok _
  | movq | movzbq =>
    exact (machine.findsLabels_read source).bind fun _ => machine.findsLabels_write destination _
  | addq | subq | imulq | andq | orq | xorq =>
    exact (machine.findsLabels_read source).bind fun _ =>
      (machine.findsLabels_read destination).bind fun _ => machine.findsLabels_write destination _

/-- A linked instruction finds its labels, in whatever state it is run. -/
theorem findsLabels_execute (hentries : image.Finds entries) (hlabels : image.Finds labels)
    {instruction : Instruction} (h : instruction.isLinked entries labels = true) :
    FindsLabels (machine.execute image instruction) := by
  cases instruction with
  | binary operator source destination =>
    exact (machine.findsLabels_executeBinary hentries h).bind fun _ => .ok _
  | negq operand =>
    exact (machine.findsLabels_read operand).bind fun _ =>
      (machine.findsLabels_write operand _).bind fun _ => .ok _
  | set condition destination =>
    exact (machine.findsLabels_write destination _).bind fun _ => .ok _
  | pushq operand =>
    exact (machine.findsLabels_read operand).bind fun word =>
      (machine.findsLabels_push word).bind fun _ => .ok _
  | popq operand =>
    exact machine.findsLabels_pop.bind fun entry =>
      (entry.2.findsLabels_write operand entry.1).bind fun _ => .ok _
  | callq name arguments =>
    refine (machine.findsLabels_checkAlignment name).bind fun _ => ?_
    cases hservice : Service.ofName? name with
    | some service => exact (machine.findsLabels_serve service).bind fun _ => .ok _
    | none =>
      have hname : name ∈ entries := by
        refine (Bool.or_eq_true_iff.mp h).elim List.contains_iff_mem.mp fun hmem => ?_
        exact absurd (List.contains_iff_mem.mp hmem) (Service.ofName?_eq_none_iff.mp hservice)
      exact (machine.findsLabels_push _).bind fun _ =>
        (hentries.label hname).bind fun _ => .ok _
  | callIndirect target arguments =>
    exact (machine.findsLabels_checkAlignment _).bind fun _ =>
      (machine.findsLabels_read target).bind fun address =>
        (image.findsLabels_decode address).bind fun _ =>
          (machine.findsLabels_push _).bind fun _ => .ok _
  | jump label =>
    exact (hlabels.label (List.contains_iff_mem.mp h)).bind fun _ => .ok _
  | jumpIf condition label =>
    rw [execute]
    split
    · exact (hlabels.label (List.contains_iff_mem.mp h)).bind fun _ => .ok _
    · exact .ok _
  | jumpIndirect target =>
    exact (machine.findsLabels_read target).bind fun address =>
      (image.findsLabels_decode address).bind fun _ => .ok _
  | retq =>
    refine machine.findsLabels_pop.bind fun entry => ?_
    dsimp only
    split
    · exact .ok _
    · exact (image.findsLabels_decode entry.1).bind fun _ => .ok _
  | comment text => exact .ok _
  | tailJump target arguments =>
    intro label h
    cases h

end Machine

/-! ## Runs -/

/-- Every instruction of the image is linked, to functions and labels that stand in the image. -/
def Image.IsLinked (image : Image) : Prop :=
  ∀ instruction ∈ image.code.toList, ∃ entries labels,
    image.Finds entries ∧ image.Finds labels ∧ instruction.isLinked entries labels = true

namespace Machine

variable {image : Image}

/-- No step of a linked program misses a label. -/
theorem findsLabels_step (h : image.IsLinked) (machine : Machine) :
    FindsLabels (machine.step image) := by
  rw [step]
  split
  · intro label h
    cases h
  · next instruction hinstruction =>
    obtain ⟨entries, labels, hentries, hlabels, hlinked⟩ :=
      h instruction (Array.mem_toList_iff.mpr (Array.mem_of_getElem? hinstruction))
    exact findsLabels_execute _ hentries hlabels hlinked

/-- No run of a linked program misses a label. -/
theorem findsLabels_runFor (h : image.IsLinked) (limit remaining : Nat) (machine : Machine) :
    FindsLabels (machine.runFor image limit remaining).result := by
  induction remaining generalizing machine with
  | zero =>
    intro label h
    cases h
  | succ remaining ih =>
    have hstep := findsLabels_step h machine
    rw [runFor]
    split
    · next error herror =>
      intro label heq
      cases heq
      exact hstep label herror
    · exact .ok _
    · exact ih _

/-- Every image can be started, as far as labels go. -/
theorem findsLabels_start (image : Image) : FindsLabels (start image) := by
  rw [start]
  split
  · exact findsLabels_push _ _
  · intro label h
    cases h

end Machine

/-- No run of a linked program, from its start on, misses a label. -/
theorem X86.Program.findsLabels_run {program : X86.Program}
    (h : (Image.ofProgram program).IsLinked) (limit : Nat) :
    FindsLabels (program.run limit).result := by
  have hstart := Machine.findsLabels_start (Image.ofProgram program)
  rw [run]
  split
  · next error herror =>
    intro label heq
    cases heq
    exact hstart label herror
  · exact Machine.findsLabels_runFor h limit limit _

/-! ## Closed programs -/

/-- A finished program whose functions have the given names, but for the entry point, and that
mentions nothing but itself and the run-time system. -/
structure X86.Program.IsClosed (entries : List Name) (program : X86.Program) : Prop where
  /-- The functions are the given ones and the entry point. -/
  functions : ∀ name, name ∈ program.functions.map X86.Function.name ↔
    name ∈ entries ∨ name = Name.entryPoint
  /-- Calls of the run-time system cannot be taken for calls of a function. -/
  not_services : ∀ name ∈ entries, name ∉ Name.services
  /-- A function is entered by its name, at its first block. -/
  entry : ∀ function ∈ program.functions, ∃ code rest,
    function.blocks = ⟨function.name, code⟩ :: rest
  /-- All blocks of all functions have different labels. -/
  labels : ((program.functions.flatMap X86.Function.blocks).map X86.Block.label).Nodup
  /-- Jumps stay inside of their function, and all other names are those of the given functions or
  of the run-time system. -/
  linked : ∀ function ∈ program.functions, ∀ instruction ∈ function.instructions,
    instruction.isLinked entries (function.blocks.map X86.Block.label) = true

namespace X86.Program.IsClosed

variable {entries : List Name} {program : X86.Program}

/-- The labels of each function stand in the image. -/
theorem finds_labels (h : program.IsClosed entries) {function : X86.Function}
    (hfunction : function ∈ program.functions) :
    (Image.ofProgram program).Finds (function.blocks.map X86.Block.label) := by
  refine List.forall_mem_map.mpr fun block hblock => ?_
  obtain ⟨left, right, hblocks⟩ :=
    List.append_of_mem (List.mem_flatMap_of_mem hfunction hblock)
  exact ⟨_, (Image.label_of_nodup h.labels hblocks).1⟩

/-- The functions stand in the image by their names. -/
theorem finds_entries (h : program.IsClosed entries) :
    (Image.ofProgram program).Finds entries := by
  intro name hname
  obtain ⟨function, hfunction, rfl⟩ := List.mem_map.mp ((h.functions name).mpr (.inl hname))
  obtain ⟨code, rest, hblocks⟩ := h.entry function hfunction
  refine h.finds_labels hfunction function.name ?_
  rw [hblocks]
  exact List.mem_cons_self

/-- The image of a closed program is linked. -/
theorem isLinked_ofProgram (h : program.IsClosed entries) :
    (Image.ofProgram program).IsLinked := by
  intro instruction hinstruction
  rw [Image.code_ofProgram, List.mem_flatMap] at hinstruction
  obtain ⟨function, hfunction, hinstruction⟩ := hinstruction
  exact ⟨entries, _, h.finds_entries, h.finds_labels hfunction,
    h.linked function hfunction instruction hinstruction⟩

end X86.Program.IsClosed

/-- The stages end in a closed program. -/
theorem Program.Stages.isClosed {config : Config} {program : Program}
    {types environment : TypeEnvironment} {selected : X86.Program} {allocated : List X86.Function}
    (hconfig : config.validate = .ok ()) (hsurface : program.isSurface = true)
    (htypes : program.typeCheck = .ok types)
    (h : program.Stages config environment selected allocated) :
    ((X86.Program.patch ⟨allocated⟩).enclose config).IsClosed
      (program.functions.map Function.name) where
  functions := (h.nodup_labels hconfig htypes).1
  not_services name hname hservice :=
    (Typing.checkProgram_eq_ok.mp htypes).notMem_reserved hname
      (Name.services_subset_reserved hservice)
  entry := by
    rw [X86.Program.enclose, X86.Program.patch, List.map_map]
    refine List.forall_mem_map.mpr fun function _ => ?_
    exact ⟨_, _, X86.Function.blocks_enclose config function⟩
  labels := (h.nodup_labels hconfig htypes).2
  linked := h.isLinked hconfig hsurface htypes

/-- The type checker accepts a program as written: then it is compiled, and the code is closed.
Each label stands for the place of its own block, and no run of the code, however long, ends because
a label stands nowhere. -/
theorem Program.lowered_code_is_closed {config : Config} (hconfig : config.validate = .ok ())
    {program : Program} (hsurface : program.isSurface = true) {types : TypeEnvironment}
    (htypes : program.typeCheck = .ok types) :
    ∃ lowered, (program.lower config).result = .ok lowered ∧
      lowered.IsClosed (program.functions.map Function.name) ∧
      (∀ left block right,
        lowered.functions.flatMap X86.Function.blocks = left ++ block :: right →
          (Image.ofProgram lowered).label block.label = .ok (Image.codeLength left) ∧
          (Image.ofProgram lowered).HasCode (Image.codeLength left) block.instructions) ∧
      ∀ limit label, (lowered.run limit).result ≠ .error (.unknownLabel label) := by
  obtain ⟨environment, selected, allocated, hstages⟩ :=
    (Typing.checkProgram_eq_ok.mp htypes).exists_stages hconfig
  have hclosed := hstages.isClosed hconfig hsurface htypes
  refine ⟨_, hstages.lower, hclosed, fun left block right hblocks => ?_, fun limit => ?_⟩
  · obtain ⟨hlabel, hcode⟩ := Image.label_of_nodup hclosed.labels hblocks
    refine ⟨?_, hcode⟩
    rw [Image.label, hlabel]
  · exact X86.Program.findsLabels_run hclosed.isLinked_ofProgram limit

/-- Functions whose names are those that labels begin with, one that calls itself, one that a
variable holds, a loop and a tuple. -/
def Program.labelNames : Program := ⟨[
  .define "block" [("start", .int)] .int
    [.ifElse (.primitive .lte [.var "start", .int 0]) [.ret (.int 0)]
      [.ret (.call (.var "block") [.primitive .sub [.var "start", .int 1]])]],
  .define "loop" [("turn", .int)] .int [.ret (.primitive .add [.var "turn", .int 1])],
  .assign "conclusion" (.var "loop"),
  .assign "pair" (.tuple [.int 0, .int 5]),
  .whileDo (.primitive .lt [.primitive .subscript [.var "pair", .int 0], .int 2])
    [.assign "pair" (.tuple [
      .call (.var "conclusion") [.primitive .subscript [.var "pair", .int 0]],
      .call (.var "block") [.int 3]])],
  .print (.primitive .subscript [.var "pair", .int 0])]⟩

/-- The code of `labelNames` is closed. -/
theorem Program.lowered_code_is_closed_labelNames :
    ({} : Config).validate = .ok () ∧ Program.labelNames.isSurface = true ∧
      (∃ types, Program.labelNames.typeCheck = .ok types) ∧
      ∃ lowered, (Program.labelNames.lower {}).result = .ok lowered ∧
        lowered.IsClosed ["block", "loop"] ∧
        ∀ limit label, (lowered.run limit).result ≠ .error (.unknownLabel label) := by
  have hconfig : ({} : Config).validate = .ok () := by rfl
  have hsurface : Program.labelNames.isSurface = true := by decide
  obtain ⟨types, htypes⟩ : ∃ types, Program.labelNames.typeCheck = .ok types :=
    Except.exists_ok_of_isSome (by decide +kernel)
  obtain ⟨lowered, hlowered, hclosed, -, hrun⟩ :=
    Program.lowered_code_is_closed hconfig hsurface htypes
  exact ⟨hconfig, hsurface, ⟨types, htypes⟩, lowered, hlowered, hclosed, hrun⟩

end TupleLang
