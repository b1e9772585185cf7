import TupleLang.Proofs.SeparateHomes
import TupleLang.Proofs.StackWords
import TupleLang.X86.FrameCode

/-!
# The depth of the stack

How far the stack pointer is below its value at the entry of a function.  `X86.Balanced` counts the
words from the text of the code alone: pushes and pops, words reserved and given up.  It asks for an
odd number of words at calls, since the return address makes it even, for no words at all where the
function is left, and for one and the same depth wherever a jump goes.

`X86.Function.Reaches` is a path through the blocks of a function.  A jump goes to a block of the
function and a call is taken to return with the stack pointer as it was.  The count is right on
every path (`X86.Function.Reaches.onTrack`), whatever decides the conditional jumps.
-/

namespace TupleLang

open X86 (BinaryOperator Instruction Operand Register)

/-! ## The stack pointer -/

/-- Whether a change of the operand is one of the stack pointer. -/
def X86.Operand.isStackPointer : Operand → Bool
  | .register .rsp | .byteRegister .spl => true
  | _ => false

/-- Whether the instruction leaves the stack pointer alone and goes on with the next one. -/
def X86.Instruction.keepsTop : Instruction → Bool
  | .binary _ _ destination | .negq destination | .set _ destination => !destination.isStackPointer
  | .comment _ => true
  | _ => false

namespace X86.Instruction

variable {instruction : Instruction}

/-- What keeps the stack pointer is no call. -/
theorem isCall_of_keepsTop (h : instruction.keepsTop = true) : instruction.isCall = false := by
  cases instruction <;> first | rfl | cases h

/-- An instruction that goes on with the next one does not jump. -/
theorem jumps_of_keepsTop (h : instruction.keepsTop = true) : instruction.jumps = [] := by
  cases instruction <;> first | rfl | cases h

/-- It is straight as well. -/
theorem isStraight_of_keepsTop (h : instruction.keepsTop = true) :
    instruction.isStraight = true := by
  cases instruction <;> first | rfl | cases h

/-- Calls are not straight. -/
theorem isStraight_of_isCall (h : instruction.isCall = true) : instruction.isStraight = false := by
  cases instruction <;> first | rfl | cases h

/-- Calls do not jump inside of the function. -/
theorem jumps_of_isCall (h : instruction.isCall = true) : instruction.jumps = [] := by
  cases instruction <;> first | rfl | cases h

end X86.Instruction

/-! ## Code that computes -/

namespace Selection

variable {context : Context}

/-- Loads of addresses keep the stack pointer. -/
theorem IsLoad.keepsTop {instruction : Instruction} (h : IsLoad context instruction) :
    instruction.keepsTop = true := by
  obtain ⟨function, temporary, -, rfl⟩ := h
  rfl

/-- Comparisons of values keep the stack pointer. -/
theorem keepsTop_cmpq {lhs rhs : Operand} (h : lhs.isValue = true) :
    (Instruction.cmpq rhs lhs).keepsTop = true := by
  cases lhs <;> first | rfl | cases h

/-- Moves to a variable keep the stack pointer. -/
theorem keepsTop_moveUnlessSame (source : Operand) (target : Name) :
    ∀ instruction ∈ moveUnlessSame source (.var target), instruction.keepsTop = true := by
  unfold moveUnlessSame
  split
  · exact List.forall_mem_nil _
  · exact List.forall_mem_singleton.mpr rfl

/-- Code that computes a value keeps the stack pointer. -/
theorem Computes.keepsTop {value : Flow.Operation} {target : Name}
    {code : List Instruction} (h : Computes context value (.var target) code) :
    ∀ instruction ∈ code, instruction.keepsTop = true := by
  cases h with
  | move | global | address | update => exact List.forall_mem_singleton.mpr rfl
  | negation | operation =>
    exact List.forall_mem_append.mpr
      ⟨keepsTop_moveUnlessSame _ _, List.forall_mem_singleton.mpr rfl⟩
  | difference | field =>
    exact List.forall_mem_cons.mpr ⟨rfl, List.forall_mem_singleton.mpr rfl⟩
  | comparison _ hlhs _ =>
    exact List.forall_mem_cons.mpr ⟨keepsTop_cmpq hlhs, List.forall_mem_cons.mpr
      ⟨rfl, List.forall_mem_singleton.mpr rfl⟩⟩
  | allocation =>
    exact List.forall_mem_cons.mpr ⟨rfl, List.forall_mem_cons.mpr ⟨rfl, List.forall_mem_cons.mpr
      ⟨rfl, List.forall_mem_singleton.mpr rfl⟩⟩⟩

end Selection

namespace Machine

variable {image : Image} {machine machine' : Machine} {word words : Word} {operand source : Operand}

/-- Stores leave the stack pointer alone. -/
theorem top_store {address : Word} (h : machine.store address word = .ok machine') :
    machine'.register .rsp = machine.register .rsp := by
  obtain ⟨memory, -, hm⟩ := Except.bind_eq_ok.mp h
  cases hm
  rfl

/-- So do writes to other operands. -/
theorem top_write (hoperand : operand.isStackPointer = false)
    (h : machine.write operand word = .ok machine') :
    machine'.register .rsp = machine.register .rsp := by
  cases operand with
  | immediate value => cases h
  | register full =>
    cases h
    refine register_setRegister_of_ne _ _ ?_
    rintro rfl
    cases hoperand
  | byteRegister low =>
    cases h
    refine register_setRegister_of_ne _ _ ?_
    intro heq
    have hlow : low = .spl := by cases low <;> first | rfl | cases heq
    subst hlow
    cases hoperand
  | var name =>
    obtain ⟨values, -, rfl⟩ := write_var_eq_ok h
    rfl
  | deref base offset => exact top_store h
  | global name =>
    obtain ⟨value, -, hm⟩ := Except.bind_eq_ok.mp h
    cases hm
    rfl

/-- An instruction with two operands writes its destination or only compares. -/
theorem executeBinary_cases {operator : BinaryOperator} {destination : Operand}
    (h : machine.executeBinary image operator source destination = .ok machine') :
    (∃ word, machine.write destination word = .ok machine') ∨
      ∃ flags, machine' = { machine with flags } := by
  cases operator with
  | cmpq =>
    obtain ⟨value, -, h⟩ := Except.bind_eq_ok.mp h
    obtain ⟨old, -, hm⟩ := Except.bind_eq_ok.mp h
    cases hm
    exact .inr ⟨(old, value), rfl⟩
  | leaq | movq | movzbq =>
    obtain ⟨value, -, hwrite⟩ := Except.bind_eq_ok.mp h
    exact .inl ⟨_, hwrite⟩
  | addq | subq | imulq | andq | orq | xorq =>
    obtain ⟨value, -, h⟩ := Except.bind_eq_ok.mp h
    obtain ⟨old, -, hwrite⟩ := Except.bind_eq_ok.mp h
    exact .inl ⟨_, hwrite⟩

/-- Instructions that keep the stack pointer do so when they run. -/
theorem top_advance {instruction : Instruction} (hkeeps : instruction.keepsTop = true)
    (h : machine.advance image instruction = .ok machine') :
    machine'.register .rsp = machine.register .rsp := by
  cases instruction with
  | binary operator source destination =>
    rw [advance_binary] at h
    rcases executeBinary_cases h with ⟨word, hwrite⟩ | ⟨flags, rfl⟩
    · exact top_write (Bool.not_eq_eq_eq_not.mp hkeeps) hwrite
    · rfl
  | negq operand =>
    rw [advance_negq] at h
    obtain ⟨value, -, hwrite⟩ := Except.bind_eq_ok.mp h
    exact top_write (Bool.not_eq_eq_eq_not.mp hkeeps) hwrite
  | set condition destination =>
    rw [advance_set] at h
    exact top_write (Bool.not_eq_eq_eq_not.mp hkeeps) h
  | comment text =>
    cases h
    rfl
  | _ => cases hkeeps

/-- A push takes one word. -/
theorem top_pushq (h : machine.advance image (.pushq operand) = .ok machine') :
    machine'.register .rsp = machine.register .rsp - 8 := by
  rw [advance_pushq] at h
  obtain ⟨value, -, hpush⟩ := Except.bind_eq_ok.mp h
  obtain ⟨stored, -, hm⟩ := Except.bind_eq_ok.mp hpush
  cases hm
  exact register_setRegister_self _ _ _

/-- A pop gives one word back. -/
theorem top_popq (hoperand : operand.isStackPointer = false)
    (h : machine.advance image (.popq operand) = .ok machine') :
    machine'.register .rsp = machine.register .rsp + 8 := by
  rw [advance_popq] at h
  obtain ⟨⟨word, popped⟩, hpop, hwrite⟩ := Except.bind_eq_ok.mp h
  obtain ⟨loaded, -, hm⟩ := Except.bind_eq_ok.mp hpop
  cases hm
  rw [top_write hoperand hwrite]
  exact register_setRegister_self _ _ _

/-- An addition to the stack pointer gives words back. -/
theorem top_release (hread : machine.read source = .ok words)
    (h : machine.advance image (.addq source X86.FrameCode.rsp) = .ok machine') :
    machine'.register .rsp = machine.register .rsp + words := by
  rw [Instruction.addq, advance_binary, executeBinary, hread] at h
  cases h
  exact register_setRegister_self _ _ _

/-- A subtraction from the stack pointer takes words. -/
theorem top_reserve
    (h : machine.advance image (.subq (.immediate words) X86.FrameCode.rsp) = .ok machine') :
    machine'.register .rsp = machine.register .rsp - words := by
  rw [Instruction.subq, advance_binary, executeBinary] at h
  cases h
  exact register_setRegister_self _ _ _

end Machine

/-! ## Counting words -/

namespace X86

/-- The code is in order if it runs so many words below the entry of its function: it goes to labels
that are `inside` with just `depth` words, calls with an odd number and leaves with none. -/
inductive Balanced (inside : Name → Prop) (depth : Nat) : Nat → List Instruction → Prop
  | keep {count : Nat} {instruction : Instruction} {code : List Instruction}
      (hkeeps : instruction.keepsTop = true) (h : Balanced inside depth count code) :
    Balanced inside depth count (instruction :: code)
  | push {count : Nat} {operand : Operand} {code : List Instruction} (hroom : count + 1 < 2 ^ 60)
      (h : Balanced inside depth (count + 1) code) :
    Balanced inside depth count (.pushq operand :: code)
  | pop {count : Nat} {operand : Operand} {code : List Instruction}
      (hoperand : operand.isStackPointer = false) (h : Balanced inside depth count code) :
    Balanced inside depth (count + 1) (.popq operand :: code)
  | reserve {count : Nat} (words : Nat) {code : List Instruction}
      (hroom : count + words < 2 ^ 60) (h : Balanced inside depth (count + words) code) :
    Balanced inside depth count
      (.subq (.immediate (8 * Word.ofCount words)) FrameCode.rsp :: code)
  | release {count : Nat} (words : Nat) {code : List Instruction}
      (h : Balanced inside depth count code) :
    Balanced inside depth (count + words)
      (.addq (.immediate (8 * Word.ofCount words)) FrameCode.rsp :: code)
  | releaseMany {count : Nat} (words : Nat) {code : List Instruction}
      (h : Balanced inside depth count code) :
    Balanced inside depth (count + words)
      (.movq (.immediate (8 * Word.ofCount words)) FrameCode.rax ::
        .addq FrameCode.rax FrameCode.rsp :: code)
  | call {count : Nat} {instruction : Instruction} {code : List Instruction}
      (hcall : instruction.isCall = true) (hodd : count % 2 = 1)
      (h : Balanced inside depth count code) : Balanced inside depth count (instruction :: code)
  | jump {label : Name} (hlabel : inside label) (code : List Instruction) :
    Balanced inside depth depth (.jump label :: code)
  | jumpIf {condition : Condition} {label : Name} {code : List Instruction} (hlabel : inside label)
      (h : Balanced inside depth depth code) :
    Balanced inside depth depth (.jumpIf condition label :: code)
  | retq (code : List Instruction) : Balanced inside depth 0 (.retq :: code)
  | jumpIndirect (target : Operand) (code : List Instruction) :
    Balanced inside depth 0 (.jumpIndirect target :: code)

end X86

open X86 (Balanced)

/-! ## Paths -/

namespace X86.Function

/-- The instructions from a label on, block after block. -/
def HasCodeAt (function : X86.Function) (label : Name) (code : List Instruction) : Prop :=
  ∃ left block right, function.blocks = left ++ block :: right ∧ block.label = label ∧
    code = block.instructions ++ right.flatMap Block.instructions

/-- There is a path through the blocks of the function, from its entry on the machine `start` to
code that is still to be run on another machine.  Conditional jumps may go either way, and a call
returns with the stack pointer as it was. -/
inductive Reaches (function : X86.Function) (image : Image) (start : Machine) :
    List Instruction → Machine → Prop
  | entry {code : List Instruction} (hcode : function.HasCodeAt function.name code) :
    Reaches function image start code start
  | straight {instruction : Instruction} {code : List Instruction} {machine machine' : Machine}
      (h : Reaches function image start (instruction :: code) machine)
      (hstraight : instruction.isStraight = true)
      (hadvance : machine.advance image instruction = .ok machine') :
    Reaches function image start code machine'
  | call {instruction : Instruction} {code : List Instruction} {machine machine' : Machine}
      (h : Reaches function image start (instruction :: code) machine)
      (hcall : instruction.isCall = true)
      (htop : machine'.register .rsp = machine.register .rsp) :
    Reaches function image start code machine'
  | jump {instruction : Instruction} {label : Name} {code code' : List Instruction}
      {machine : Machine} (h : Reaches function image start (instruction :: code) machine)
      (hlabel : label ∈ instruction.jumps) (hcode : function.HasCodeAt label code') :
    Reaches function image start code' machine
  | pass {condition : Condition} {label : Name} {code : List Instruction} {machine : Machine}
      (h : Reaches function image start (.jumpIf condition label :: code) machine) :
    Reaches function image start code machine

/-- The code of the function is in order, from its entry and from its other labels on. -/
structure IsBalanced (function : X86.Function) (depth : Nat) : Prop where
  depth_lt : depth < 2 ^ 60
  entry : ∀ code, function.HasCodeAt function.name code →
    Balanced (· ≠ function.name) depth 0 code
  body : ∀ label ≠ function.name, ∀ code, function.HasCodeAt label code →
    Balanced (· ≠ function.name) depth depth code

end X86.Function

/-! ## The count is right -/

namespace Word

/-- Taking words below a count of words. -/
theorem below_sub (top : Word) (count words : Nat) :
    top.below count - 8 * ofCount words = top.below (count + words) :=
  (below_add top count words).symm

/-- Giving them back. -/
theorem below_add_sub (top : Word) (count words : Nat) :
    top.below (count + words) + 8 * ofCount words = top.below count := by
  rw [below_add, below]
  grind

end Word

/-- The code on which the machine continues is in order for the number of words that the stack
pointer is below `top`.  Between the two instructions that give up many words, their number is in
`%rax`. -/
def Machine.OnTrack (inside : Name → Prop) (depth : Nat) (top : Word) (code : List Instruction)
    (machine : Machine) : Prop :=
  (∃ count < 2 ^ 60, machine.register .rsp = top.below count ∧ Balanced inside depth count code) ∨
  ∃ count words rest, count + words < 2 ^ 60 ∧ machine.register .rsp = top.below (count + words) ∧
    machine.register .rax = 8 * Word.ofCount words ∧
    code = .addq X86.FrameCode.rax X86.FrameCode.rsp :: rest ∧ Balanced inside depth count rest

namespace Machine.OnTrack

variable {inside : Name → Prop} {depth : Nat} {top : Word} {image : Image}
  {machine machine' : Machine} {instruction : Instruction} {code : List Instruction}

/-- Code in order for the count is on track. -/
theorem of_balanced {count : Nat} (hcount : count < 2 ^ 60)
    (htop : machine.register .rsp = top.below count) (h : Balanced inside depth count code) :
    machine.OnTrack inside depth top code :=
  .inl ⟨count, hcount, htop, h⟩

/-- A straight instruction keeps the count right. -/
theorem straight (h : machine.OnTrack inside depth top (instruction :: code))
    (hstraight : instruction.isStraight = true)
    (hadvance : machine.advance image instruction = .ok machine') :
    machine'.OnTrack inside depth top code := by
  rcases h with ⟨count, hcount, htop, h⟩ | ⟨count, words, rest, hcount, htop, hrax, hcode, h⟩
  · cases h with
    | keep hkeeps h => exact of_balanced hcount ((top_advance hkeeps hadvance).trans htop) h
    | push hroom h =>
      refine of_balanced hroom ?_ h
      rw [top_pushq hadvance, htop, Word.below_succ]
    | @pop count operand _ hoperand h =>
      refine of_balanced (Nat.lt_of_succ_lt hcount) ?_ h
      rw [top_popq hoperand hadvance, htop]
      exact Word.below_add_sub top count 1
    | reserve words hroom h =>
      refine of_balanced hroom ?_ h
      rw [top_reserve hadvance, htop, Word.below_sub]
    | @release count words _ h =>
      refine of_balanced (Nat.lt_of_le_of_lt (Nat.le_add_right _ _) hcount) ?_ h
      rw [top_release rfl hadvance, htop, Word.below_add_sub]
    | @releaseMany count words code h =>
      refine .inr ⟨count, words, code, hcount, ?_, ?_, rfl, h⟩
      · rw [← htop]
        exact top_advance rfl hadvance
      · rw [Instruction.movq, advance_binary, executeBinary] at hadvance
        cases hadvance
        exact register_setRegister_self _ _ _
    | call hcall => exact absurd hstraight (by simp [Instruction.isStraight_of_isCall hcall])
    | jump | jumpIf | retq | jumpIndirect => cases hstraight
  · obtain ⟨rfl, rfl⟩ := List.cons.inj hcode
    refine of_balanced (Nat.lt_of_le_of_lt (Nat.le_add_right _ _) hcount) ?_ h
    have hread : machine.read X86.FrameCode.rax = .ok (8 * Word.ofCount words) :=
      congrArg Except.ok hrax
    rw [top_release hread hadvance, htop, Word.below_add_sub]

/-- So does a call. -/
theorem call (h : machine.OnTrack inside depth top (instruction :: code))
    (hcall : instruction.isCall = true) (htop' : machine'.register .rsp = machine.register .rsp) :
    machine'.OnTrack inside depth top code := by
  rcases h with ⟨count, hcount, htop, h⟩ | ⟨count, words, rest, -, -, -, hcode, -⟩
  · cases h with
    | call _ _ h => exact of_balanced hcount (htop'.trans htop) h
    | keep hkeeps => exact absurd hcall (by simp [Instruction.isCall_of_keepsTop hkeeps])
    | _ => cases hcall
  · obtain ⟨rfl, rfl⟩ := List.cons.inj hcode
    cases hcall

/-- A jump goes to a label that is inside, with just so many words as there should be. -/
theorem jumps {label : Name} (h : machine.OnTrack inside depth top (instruction :: code))
    (hlabel : label ∈ instruction.jumps) :
    inside label ∧ machine.register .rsp = top.below depth := by
  rcases h with ⟨count, hcount, htop, h⟩ | ⟨count, words, rest, -, -, -, hcode, -⟩
  · cases h with
    | jump hinside | jumpIf hinside =>
      cases List.mem_singleton.mp hlabel
      exact ⟨hinside, htop⟩
    | keep hkeeps => exact absurd hlabel (by simp [Instruction.jumps_of_keepsTop hkeeps])
    | call hcall => exact absurd hlabel (by simp [Instruction.jumps_of_isCall hcall])
    | _ => cases hlabel
  · obtain ⟨rfl, rfl⟩ := List.cons.inj hcode
    cases hlabel

/-- So does a conditional jump that is not taken. -/
theorem pass {condition : X86.Condition} {label : Name}
    (h : machine.OnTrack inside depth top (.jumpIf condition label :: code)) :
    machine.OnTrack inside depth top code := by
  rcases h with ⟨count, hcount, htop, h⟩ | ⟨count, words, rest, -, -, -, hcode, -⟩
  · cases h with
    | jumpIf _ h => exact of_balanced hcount htop h
    | keep hkeeps => cases hkeeps
    | call hcall => cases hcall
  · cases (List.cons.inj hcode).1

end Machine.OnTrack

/-- The count is right wherever a path leads. -/
theorem X86.Function.Reaches.onTrack {function : X86.Function} {depth : Nat}
    (hfunction : function.IsBalanced depth) {image : Image} {start machine : Machine}
    {code : List Instruction} (h : function.Reaches image start code machine) :
    machine.OnTrack (· ≠ function.name) depth (start.register .rsp) code := by
  induction h with
  | entry hcode =>
    exact .of_balanced (by decide) (Word.below_zero _).symm (hfunction.entry _ hcode)
  | straight _ hstraight hadvance ih => exact ih.straight hstraight hadvance
  | call _ hcall htop ih => exact ih.call hcall htop
  | jump _ hlabel hcode ih =>
    obtain ⟨hinside, htop⟩ := ih.jumps hlabel
    exact .of_balanced hfunction.depth_lt htop (hfunction.body _ hinside _ hcode)
  | pass _ ih => exact ih.pass

/-! ## What follows for the stack pointer -/

namespace Word

/-- Words below an address lie at a distance that does not wrap around. -/
theorem sub_below_nonneg (top : Word) {count : Nat} (h : count < 2 ^ 60) :
    0 ≤ top - top.below count := by
  have hsub : top - top.below count = 8 * ofCount count := by
    rw [below]
    grind
  rw [hsub, Int64.le_iff_toInt_le, toInt_eight_mul h]
  change (0 : Int) ≤ _
  omega

/-- Words below an address have lower addresses. -/
theorem below_le {top : Word} (htop : 0 ≤ top) {count : Nat} (h : count < 2 ^ 60) :
    top.below count ≤ top := by
  rw [Int64.le_iff_toInt_le] at htop ⊢
  have hzero : (0 : Word).toInt = 0 := rfl
  have hlt := top.toInt_lt
  rw [below, Int64.toInt_sub, toInt_eight_mul h, Int.bmod_eq_of_le (by omega) (by omega)]
  omega

end Word

/-- The stack discipline of a function: on every path from its entry, if the stack pointer is eight
less than a multiple of sixteen there, then it never exceeds its value at the entry, it passes the
check of its alignment at every call, and it is back at its value at the entry where the function is
left.  Addresses are positive; without that, the stack is not shorter than it was. -/
def X86.Function.KeepsStackDiscipline (function : X86.Function) : Prop :=
  ∀ (image : Image) (start machine : Machine) (code : List Instruction),
    (start.register .rsp + 8) % 16 = 0 → function.Reaches image start code machine →
    0 ≤ start.register .rsp - machine.register .rsp ∧
    (0 ≤ start.register .rsp → machine.register .rsp ≤ start.register .rsp) ∧
    ∀ instruction rest, code = instruction :: rest →
      (instruction.isCall = true → machine.register .rsp % 16 = 0 ∧
        ∀ target, machine.checkAlignment target = .ok ()) ∧
      (instruction = .retq ∨ (∃ target, instruction = .jumpIndirect target) →
        machine.register .rsp = start.register .rsp)

namespace Machine.OnTrack

variable {inside : Name → Prop} {depth : Nat} {top : Word} {machine : Machine}
  {instruction : Instruction} {code : List Instruction}

/-- On track, the stack pointer is some number of words below the top. -/
theorem exists_below (h : machine.OnTrack inside depth top code) :
    ∃ count < 2 ^ 60, machine.register .rsp = top.below count := by
  rcases h with ⟨count, hcount, htop, -⟩ | ⟨count, words, -, hcount, htop, -⟩
  · exact ⟨count, hcount, htop⟩
  · exact ⟨count + words, hcount, htop⟩

/-- On track, the stack pointer is aligned at calls. -/
theorem aligned (h : machine.OnTrack inside depth top (instruction :: code))
    (hcall : instruction.isCall = true) (htop : (top + 8) % 16 = 0) :
    machine.register .rsp % 16 = 0 := by
  rcases h with ⟨count, -, hcount, h⟩ | ⟨count, words, rest, -, -, -, hcode, -⟩
  · cases h with
    | call _ hodd _ =>
      rw [hcount]
      exact Word.mod_sixteen_below_of_odd htop hodd
    | keep hkeeps => exact absurd hcall (by simp [Instruction.isCall_of_keepsTop hkeeps])
    | _ => cases hcall
  · obtain ⟨rfl, rfl⟩ := List.cons.inj hcode
    cases hcall

/-- On track, the stack pointer is back at the top where the function is left. -/
theorem leaves (h : machine.OnTrack inside depth top (instruction :: code))
    (hleaves : instruction = .retq ∨ ∃ target, instruction = .jumpIndirect target) :
    machine.register .rsp = top := by
  rcases h with ⟨count, -, hcount, h⟩ | ⟨count, words, rest, -, -, -, hcode, -⟩
  · rcases hleaves with rfl | ⟨target, rfl⟩
    · cases h with
      | retq => exact hcount.trans (Word.below_zero top)
      | keep hkeeps => cases hkeeps
      | call hcall => cases hcall
    · cases h with
      | jumpIndirect => exact hcount.trans (Word.below_zero top)
      | keep hkeeps => cases hkeeps
      | call hcall => cases hcall
  · obtain ⟨rfl, rfl⟩ := List.cons.inj hcode
    rcases hleaves with hleaves | ⟨target, hleaves⟩ <;> cases hleaves

end Machine.OnTrack

/-- A function whose code is in order keeps the stack discipline. -/
theorem X86.Function.IsBalanced.keepsStackDiscipline {function : X86.Function} {depth : Nat}
    (h : function.IsBalanced depth) : function.KeepsStackDiscipline := by
  intro image start machine code htop hreaches
  have htrack := hreaches.onTrack h
  obtain ⟨count, hcount, hbelow⟩ := htrack.exists_below
  refine ⟨?_, fun hstart => ?_, fun instruction rest hcode => ?_⟩
  · rw [hbelow]
    exact Word.sub_below_nonneg _ hcount
  · rw [hbelow]
    exact Word.below_le hstart hcount
  · subst hcode
    refine ⟨fun hcall => ?_, htrack.leaves⟩
    have haligned := htrack.aligned hcall htop
    exact ⟨haligned, fun target => if_neg (not_not.mpr haligned)⟩

end TupleLang
