/-!
# Registers

The sixteen general-purpose registers and their low bytes.  A `Register` is numbered by its place
in the declaration (`Register.number`), which is also its place in a register file, and
`Register.compare` orders registers by that number.

The calling convention splits the registers in two: `Register.callerSaved` lists those that a call
may change and `Register.calleeSaved` those that it keeps.  The stack pointer is in neither list.
-/

namespace TupleLang.X86

/-- The 64-bit general-purpose registers. -/
inductive Register where
  | rax
  | rbx
  | rcx
  | rdx
  | rsi
  | rdi
  | rbp
  | rsp
  | r8
  | r9
  | r10
  | r11
  | r12
  | r13
  | r14
  | r15
  deriving DecidableEq

/-- The low bytes of the general-purpose registers. -/
inductive ByteRegister where
  | al
  | bl
  | cl
  | dl
  | sil
  | dil
  | bpl
  | spl
  | r8b
  | r9b
  | r10b
  | r11b
  | r12b
  | r13b
  | r14b
  | r15b
  deriving DecidableEq

/-- The 64-bit register that a low byte belongs to. -/
def ByteRegister.full : ByteRegister → Register
  | al => .rax
  | bl => .rbx
  | cl => .rcx
  | dl => .rdx
  | sil => .rsi
  | dil => .rdi
  | bpl => .rbp
  | spl => .rsp
  | r8b => .r8
  | r9b => .r9
  | r10b => .r10
  | r11b => .r11
  | r12b => .r12
  | r13b => .r13
  | r14b => .r14
  | r15b => .r15

/-- The name of a low byte, without the percent sign. -/
def ByteRegister.name : ByteRegister → String
  | al => "al"
  | bl => "bl"
  | cl => "cl"
  | dl => "dl"
  | sil => "sil"
  | dil => "dil"
  | bpl => "bpl"
  | spl => "spl"
  | r8b => "r8b"
  | r9b => "r9b"
  | r10b => "r10b"
  | r11b => "r11b"
  | r12b => "r12b"
  | r13b => "r13b"
  | r14b => "r14b"
  | r15b => "r15b"

namespace Register

/-- The registers in the order of their numbers. -/
def all : List Register :=
  [rax, rbx, rcx, rdx, rsi, rdi, rbp, rsp, r8, r9, r10, r11, r12, r13, r14, r15]

/-- The place of the register in a register file. -/
def number : Register → Nat
  | rax => 0
  | rbx => 1
  | rcx => 2
  | rdx => 3
  | rsi => 4
  | rdi => 5
  | rbp => 6
  | rsp => 7
  | r8 => 8
  | r9 => 9
  | r10 => 10
  | r11 => 11
  | r12 => 12
  | r13 => 13
  | r14 => 14
  | r15 => 15

/-- There are sixteen registers. -/
theorem number_lt (register : Register) : register.number < 16 := by
  cases register <;> decide

/-- Registers with the same number are the same. -/
theorem number_inj {a b : Register} (h : a.number = b.number) : a = b := by
  cases a <;> cases b <;> simp_all [number]

/-- The low byte of the register. -/
def lowByte : Register → ByteRegister
  | rax => .al
  | rbx => .bl
  | rcx => .cl
  | rdx => .dl
  | rsi => .sil
  | rdi => .dil
  | rbp => .bpl
  | rsp => .spl
  | r8 => .r8b
  | r9 => .r9b
  | r10 => .r10b
  | r11 => .r11b
  | r12 => .r12b
  | r13 => .r13b
  | r14 => .r14b
  | r15 => .r15b

/-- A register is found again from its low byte. -/
@[simp] theorem full_lowByte (register : Register) : register.lowByte.full = register := by
  cases register <;> rfl

/-- The name of the register, without the percent sign. -/
def name : Register → String
  | rax => "rax"
  | rbx => "rbx"
  | rcx => "rcx"
  | rdx => "rdx"
  | rsi => "rsi"
  | rdi => "rdi"
  | rbp => "rbp"
  | rsp => "rsp"
  | r8 => "r8"
  | r9 => "r9"
  | r10 => "r10"
  | r11 => "r11"
  | r12 => "r12"
  | r13 => "r13"
  | r14 => "r14"
  | r15 => "r15"

/-- The register with the given name, without the percent sign. -/
def ofName? (name : String) : Option Register :=
  all.find? (·.name == name)

/-- Registers are ordered by their numbers. -/
instance : Ord Register where
  compare a b := compare a.number b.number

/-- The registers that a call may change. -/
def callerSaved : List Register :=
  [rax, rcx, rdx, rsi, rdi, r8, r9, r10, r11]

/-- The registers that a call keeps, the stack pointer apart. -/
def calleeSaved : List Register :=
  [rbx, rbp, r12, r13, r14, r15]

/-- The registers in which the functions of the run-time system take their arguments. -/
def runtimeArguments : List Register :=
  [rdi, rsi]

end Register

/-- The low byte with the given name, without the percent sign. -/
def ByteRegister.ofName? (name : String) : Option ByteRegister :=
  (Register.all.map Register.lowByte).find? (·.name == name)

end TupleLang.X86
