import TupleLang.X86.Register

/-!
# Configurations

A configuration says which registers variables may live in, in which registers arguments travel,
and how much memory a program asks for.  Variables are given the registers of
`Config.allocatable` in that order, those that a call may change first.

Five registers are never allocatable (`Config.reservedRegisters`): `%rax` holds return values and
is a scratch register, `%r11` addresses the fields of tuples, `%r15` points to the top of the root
stack, and `%rsp` and `%rbp` manage the stack.

`Config.validate` reports the first fault of a configuration, in the order of the constructors of
`Config.Fault`.
-/

namespace TupleLang

open X86 (Register)

/-- The choices that a compilation depends on. -/
structure Config where
  /-- The allocatable registers that a call may change, in the order of allocation. -/
  callerSaved : List Register := [.rdx, .rcx, .rsi, .rdi, .r8, .r9, .r10]
  /-- The allocatable registers that a call keeps, in the order of allocation. -/
  calleeSaved : List Register := [.rbx, .r12, .r13, .r14]
  /-- The registers of the leading arguments of a call. -/
  parameters : List Register := [.rdi, .rsi, .rdx, .rcx, .r8, .r9]
  /-- The number of bytes to ask for the root stack. -/
  rootStackSize : Nat := 16384
  /-- The number of bytes to ask for the heap. -/
  heapSize : Nat := 16
  /-- Whether every selected statement is preceded by a comment that shows it. -/
  comments : Bool := false
  /-- Whether the journal shows the program after every stage. -/
  logPasses : Bool := false

namespace Config

/-- The registers that are never allocatable. -/
def reservedRegisters : List Register :=
  [.rax, .r11, .r15, .rsp, .rbp]

/-- The register table: color `i` is its register number `i`. -/
def allocatable (config : Config) : List Register :=
  config.callerSaved ++ config.calleeSaved

/-- Whether variables may live in the register, which a call may change. -/
def isCallerSaved (config : Config) (register : Register) : Bool :=
  config.callerSaved.contains register

/-- Whether variables may live in the register, which a call keeps. -/
def isCalleeSaved (config : Config) (register : Register) : Bool :=
  config.calleeSaved.contains register

/-- What can be wrong with a configuration. -/
inductive Fault where
  | noRegister
  | reserved (register : Register)
  | notCallerSaved (register : Register)
  | notCalleeSaved (register : Register)
  | duplicate (register : Register)
  | noParameter
  | sharedParameter
  | savedParameter (register : Register)
  | rootStackSize
  | heapSize
  deriving DecidableEq

/-- What is wrong, in words. -/
def Fault.message : Fault → String
  | noRegister => "at least one allocatable register is required"
  | reserved register => "`" ++ register.name ++ "` is reserved and cannot be allocated"
  | notCallerSaved register =>
    "`" ++ register.name ++ "` is not caller-saved in the System V ABI"
  | notCalleeSaved register =>
    "`" ++ register.name ++ "` is not callee-saved in the System V ABI"
  | duplicate register => "`" ++ register.name ++ "` is listed more than once"
  | noParameter => "at least one parameter register is required"
  | sharedParameter => "parameter registers must be distinct"
  | savedParameter register =>
    "parameter register `" ++ register.name ++ "` must also be caller-saved"
  | rootStackSize => "the root stack size must be a positive multiple of 8"
  | heapSize => "the heap size must be a positive multiple of 8"

/-- The first member of a list that has occurred before, in the list itself or in `seen`. -/
def firstRepeatedAfter? (seen : List Register) : List Register → Option Register
  | [] => none
  | register :: rest =>
    if seen.contains register then some register
    else firstRepeatedAfter? (register :: seen) rest

/-- The first member of a list that has occurred before. -/
def firstRepeated? (registers : List Register) : Option Register :=
  firstRepeatedAfter? [] registers

/-- Whether a number of bytes is a positive number of words. -/
def isWordMultiple (bytes : Nat) : Bool :=
  bytes != 0 && bytes % 8 == 0

/-- The first fault of the configuration, if it has one. -/
def fault? (config : Config) : Option Fault :=
  if config.allocatable.isEmpty then some .noRegister
  else if let some register := config.allocatable.find? reservedRegisters.contains then
    some (.reserved register)
  else if let some register := config.callerSaved.find? (!Register.callerSaved.contains ·) then
    some (.notCallerSaved register)
  else if let some register := config.calleeSaved.find? (!Register.calleeSaved.contains ·) then
    some (.notCalleeSaved register)
  else if let some register := firstRepeated? config.allocatable then some (.duplicate register)
  else if config.parameters.isEmpty then some .noParameter
  else if (firstRepeated? config.parameters).isSome then some .sharedParameter
  else if let some register := config.parameters.find? (!config.isCallerSaved ·) then
    some (.savedParameter register)
  else if !isWordMultiple config.rootStackSize then some .rootStackSize
  else if !isWordMultiple config.heapSize then some .heapSize
  else none

/-- Accepts a configuration without faults. -/
def validate (config : Config) : Except Fault Unit :=
  match config.fault? with
  | some fault => .error fault
  | none => .ok ()

end Config

end TupleLang
