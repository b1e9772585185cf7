import TupleLang.Proofs.AgreeingMachines
import TupleLang.Proofs.CallingConvention
import TupleLang.Proofs.ScratchRegisters
import TupleLang.Proofs.SelectedCode
import TupleLang.Proofs.TypedValues

/-!
# The code of operators

An integer is its own word and a truth value is the word `1` or `0` (`Value.word?`).  On these words
the operators of the language are operators of the machine (`Operator.onWords?`), so an operator
whose operands have the types that the checker asks for can be applied to words instead of values
(`Value.Fits.exists_onWords`).

The code of an operator computes that word, whichever of its operands is the destination
(`Selection.exists_executeAll_primitive`): a move to the destination comes first only if it does not
destroy an operand that is still needed.  Comparisons go through `%rax`; apart from that register
nothing but the destination changes (`Machine.Assigns`).

`Selection.operator_code_agrees` is the statement about assignments and branches as they are
selected and about expressions as the interpreter evaluates them.
-/

namespace TupleLang

open Stateful
open X86 (BinaryOperator Condition Instruction Operand Register)

/-! ## Operators on words -/

/-- What an operator makes of words.  It is applied to the words of values, and gives the word of a
value. -/
def Operator.onWords? : Operator → List Word → Option Word
  | .add, [a, b] => some (a + b)
  | .sub, [a, b] => some (a - b)
  | .mult, [a, b] => some (a * b)
  | .neg, [a] => some (-a)
  | .not, [a] => some (a ^^^ 1)
  | .and, [a, b] => some (a &&& b)
  | .or, [a, b] => some (a ||| b)
  | operator, [a, b] =>
    (Condition.ofOperator? operator).map fun condition => Word.ofBool (condition.holds a b)
  | _, _ => none

/-- A comparison is a truth value. -/
theorem Operator.onWords?_of_condition {operator : Operator} {condition : Condition}
    (h : Condition.ofOperator? operator = some condition) (a b : Word) :
    operator.onWords? [a, b] = some (Word.ofBool (condition.holds a b)) := by
  cases operator with
  | eq | ne | lt | lte | gt | gte =>
    cases h
    rfl
  | _ => cases h

/-- Values with their words. -/
abbrev Value.HaveWords (values : List Value) (words : List Word) : Prop :=
  List.Forall₂ (fun value word => value.word? = some word) values words

namespace Value.Fits

variable {functions : Std.ExtTreeMap Name Ty} {heap : Heap} {value : Value} {values : List Value}
  {operator : Operator} {tys : List Ty} {ty : Ty}

/-- Values of type `bool` are truth values. -/
theorem exists_bool (h : value.Fits false functions heap .bool) : ∃ truth, value = .bool truth :=
  h.bool_or_zero.resolve_right fun hzero => Bool.false_ne_true hzero.1

/-- On operands of the right types an operator does the same to values and to their words. -/
theorem exists_onWords (hvalues : List.Forall₂ (Value.Fits false functions heap) values tys)
    (hty : operator.resultType? tys = some ty) :
    ∃ value words word, Value.primitive heap operator values = .ok value ∧
      Value.HaveWords values words ∧ operator.onWords? words = some word ∧
      value.word? = some word := by
  have hwords {a b : Value} {x y : Word} (ha : a.word? = some x) (hb : b.word? = some y) :
      Value.HaveWords [a, b] [x, y] := .cons ha (.cons hb .nil)
  unfold Operator.resultType? at hty
  split at hty
  case h_1 | h_2 | h_3 =>
    obtain ⟨a, b, rfl⟩ := exists_two (fun _ => exists_int) hvalues
    exact ⟨_, [a, b], _, rfl, hwords rfl rfl, rfl, rfl⟩
  case h_4 =>
    cases hvalues with
    | cons ha hnil =>
      cases hnil
      obtain ⟨a, rfl⟩ := ha.exists_int
      exact ⟨_, [a], _, rfl, .cons rfl .nil, rfl, rfl⟩
  case h_5 =>
    cases hvalues with
    | cons ha hnil =>
      cases hnil
      obtain ⟨a, rfl⟩ := ha.exists_bool
      refine ⟨_, [Word.ofBool a], _, rfl, .cons rfl .nil, rfl, ?_⟩
      cases a <;> rfl
  case h_6 | h_7 =>
    obtain ⟨a, b, rfl⟩ := exists_two (fun _ => exists_bool) hvalues
    cases a <;> cases b <;> exact ⟨_, _, _, rfl, hwords rfl rfl, rfl, rfl⟩
  case h_8 | h_9 | h_10 | h_11 =>
    obtain ⟨a, b, rfl⟩ := exists_two (fun _ => exists_int) hvalues
    exact ⟨_, [a, b], _, rfl, hwords rfl rfl, rfl, rfl⟩
  case h_12 | h_13 =>
    split at hty
    · next hprintable =>
      obtain ⟨hprintable, rfl⟩ := hprintable
      rename_i lhs
      cases lhs with
      | int =>
        obtain ⟨a, b, rfl⟩ := exists_two (fun _ => exists_int) hvalues
        refine ⟨_, [a, b], _, rfl, hwords rfl rfl, rfl, ?_⟩
        simp [Value.word?, Condition.holds, bne, BEq.beq]
      | bool =>
        obtain ⟨a, b, rfl⟩ := exists_two (fun _ => exists_bool) hvalues
        cases a <;> cases b <;> exact ⟨_, _, _, rfl, hwords rfl rfl, rfl, rfl⟩
      | tuple | function => cases hprintable
    · cases hty
  case h_14 => cases hty

end Value.Fits

/-! ## Evaluation -/

section Evaluation

open Interpreter

variable {context : Interpreter.Context} {enter : Interpreter.Entry → Eval Completion}
  {state : State}

/-- Expressions are evaluated one by one. -/
theorem Expr.evalAll_eq_ok {expressions : List Expr} {values : List Value}
    (h : List.Forall₂ (fun e value => Expr.eval context enter e state = .ok (value, state))
      expressions values) :
    Expr.evalAll context enter expressions state = .ok (values, state) := by
  induction h with
  | nil => rfl
  | cons hfirst _ ih =>
    rw [Expr.evalAll, bind_of_ok hfirst, bind_of_ok ih]
    rfl

/-- Applying an operator to expressions that have values and change nothing.  The right operand of
`and` and `or` may be left alone, but then it would not have made a difference. -/
theorem Expr.eval_primitive {operator : Operator} {expressions : List Expr} {values : List Value}
    {value : Value}
    (h : List.Forall₂ (fun e value => Expr.eval context enter e state = .ok (value, state))
      expressions values)
    (hvalue : Value.primitive state.heap operator values = .ok value) :
    Expr.eval context enter (.primitive operator expressions) state = .ok (value, state) := by
  have hall := Expr.evalAll_eq_ok h
  have hcondition {value : Value} {truth : Bool} (h : value.asCondition state.heap = .ok truth) :
      condition value state = .ok (truth, state) := by
    rw [condition, bind_of_ok rfl, h]
    rfl
  have hstrict : (do
      let values ← Expr.evalAll context enter expressions
      Value.primitive (← get).heap operator values : Eval Value) state = .ok (value, state) := by
    rw [bind_of_ok hall, bind_of_ok rfl, hvalue]
    rfl
  cases operator with
  | and =>
    rcases h with _ | ⟨hl, _ | ⟨hr, _ | ⟨-, -⟩⟩⟩
    · exact hstrict
    · exact hstrict
    · obtain ⟨left, hleft, hvalue⟩ := Except.bind_eq_ok.mp hvalue
      rw [Expr.eval, bind_of_ok hl, bind_of_ok (hcondition hleft)]
      cases left with
      | false =>
        cases hvalue
        rfl
      | true =>
        obtain ⟨right, hright, hvalue⟩ := Except.bind_eq_ok.mp hvalue
        cases hvalue
        rw [if_pos rfl, bind_of_ok hr, bind_of_ok (hcondition hright)]
        rfl
    · exact hstrict
  | or =>
    rcases h with _ | ⟨hl, _ | ⟨hr, _ | ⟨-, -⟩⟩⟩
    · exact hstrict
    · exact hstrict
    · obtain ⟨left, hleft, hvalue⟩ := Except.bind_eq_ok.mp hvalue
      rw [Expr.eval, bind_of_ok hl, bind_of_ok (hcondition hleft)]
      cases left with
      | true =>
        cases hvalue
        rfl
      | false =>
        obtain ⟨right, hright, hvalue⟩ := Except.bind_eq_ok.mp hvalue
        cases hvalue
        rw [if_neg Bool.false_ne_true, bind_of_ok hr, bind_of_ok (hcondition hright)]
        rfl
    · exact hstrict
  | _ => exact hstrict

end Evaluation

/-! ## Atoms -/

namespace Flow.Atom

/-- The value of an atom that is no function, if the variables have these values. -/
def valueIn? (locals : Interpreter.Locals) : Atom → Option Value
  | .var name => locals[name]?
  | .const (.int value) => some (.int value)
  | .const (.bool value) => some (.bool value)

/-- The operand of an atom that is no function. -/
def operand : Atom → Operand
  | .var name => .var name
  | .const (.int value) => .immediate value
  | .const (.bool value) => .immediate (Word.ofBool value)

variable {a : Atom} {value : Value} {word : Word} {locals : Interpreter.Locals}
  {state : Interpreter.State} {operands : List Atom} {values : Name → Word}

/-- The value of an atom is that of the expression. -/
theorem eval_toExpr {context : Interpreter.Context}
    {enter : Interpreter.Entry → Interpreter.Eval Interpreter.Completion}
    (h : a.valueIn? state.locals = some value) :
    Expr.eval context enter a.toExpr state = .ok (value, state) := by
  cases a with
  | var name =>
    rw [valueIn?] at h
    rw [toExpr, Expr.eval, Stateful.bind_of_ok rfl, h]
    rfl
  | const constant =>
    cases constant with
    | int | bool =>
      cases h
      rfl

/-- The interpreter applies an operator to the values of atoms. -/
theorem eval_primitive {operator : Operator} {values : List Value}
    (h : List.Forall₂ (fun a value => a.valueIn? state.locals = some value) operands values)
    (hvalue : Value.primitive state.heap operator values = .ok value)
    (context : Interpreter.Context)
    (enter : Interpreter.Entry → Interpreter.Eval Interpreter.Completion) :
    Expr.eval context enter (.primitive operator (operands.map toExpr)) state =
      .ok (value, state) :=
  Expr.eval_primitive (List.forall₂_map_left_iff.mpr (h.imp fun _ _ => eval_toExpr)) hvalue

/-- If the words of variables are those of their values, so is the word of an operand. -/
theorem valueIn_operand
    (hvalues : ∀ name value word, locals[name]? = some value → value.word? = some word →
      values name = word) (h : a.valueIn? locals = some value) (hword : value.word? = some word) :
    Machine.valueIn values a.operand = some word := by
  cases a with
  | var name => exact congrArg some (hvalues name value word h hword)
  | const constant =>
    cases constant with
    | int | bool =>
      cases h
      cases hword
      rfl

/-- Operands of atoms stand for the words of their values. -/
theorem forall₂_valueIn
    (hvalues : ∀ name value word, locals[name]? = some value → value.word? = some word →
      values name = word) {operandValues : List Value} {words : List Word}
    (h : List.Forall₂ (fun a value => a.valueIn? locals = some value) operands operandValues)
    (hwords : Value.HaveWords operandValues words) :
    List.Forall₂ (fun operand word => Machine.valueIn values operand = some word)
      (operands.map operand) words := by
  induction h generalizing words with
  | nil =>
    cases hwords
    exact .nil
  | cons hfirst _ ih =>
    cases hwords with
    | cons hword hwords => exact .cons (valueIn_operand hvalues hfirst hword) (ih hwords)

end Flow.Atom

namespace Selection

variable {context : Context} {s : NameSupply} {a : Flow.Atom} {operands : List Flow.Atom}

/-- None of the atoms is the name of a function. -/
def NoFunctions (context : Context) (operands : List Flow.Atom) : Prop :=
  ∀ name, .var name ∈ operands → context.functionNames.contains name = false

/-- An atom that names no function needs no code. -/
theorem atom_eq_operand (h : NoFunctions context [a]) :
    atom context a s = .ok (([], a.operand), s) := by
  cases a with
  | var name => exact Machine.atom_var (h name (List.mem_singleton_self _)) s
  | const constant => cases constant <;> rfl

/-- Nor do several of them. -/
theorem atoms_eq_operands (h : NoFunctions context operands) :
    atoms context operands s = .ok (([], operands.map Flow.Atom.operand), s) := by
  induction operands with
  | nil => rfl
  | cons first rest ih =>
    have hfirst : NoFunctions context [first] := fun name hname =>
      h name (List.mem_singleton.mp hname ▸ List.mem_cons_self)
    have hrest : NoFunctions context rest := fun name hname => h name (List.mem_cons_of_mem _ hname)
    rw [atoms, bind_of_ok (atom_eq_operand hfirst)]
    dsimp only
    rw [bind_of_ok (ih hrest)]
    rfl

/-- The code of an operator is that of its operands. -/
theorem operator_eq_ok {operation : Operator} {destination : Operand} {code : List Instruction}
    (h : NoFunctions context operands) (hoperation : operation ≠ .subscript)
    (hcode : primitive destination operation (operands.map Flow.Atom.operand) = some code) :
    operator context destination operation operands s = .ok (code, s) := by
  unfold operator
  dsimp only
  split
  · exact absurd rfl hoperation
  · rw [bind_of_ok (atoms_eq_operands h)]
    dsimp only
    rw [hcode]
    rfl

/-- A block of one statement has the code of the statement, after a remark perhaps. -/
theorem statements_singleton {st : Flow.Stmt} {code : List Instruction}
    (h : statement context st s = .ok (code, s)) :
    statements context [st] s = .ok (remark context st ++ code, s) := by
  rw [statements, bind_of_ok h, bind_of_ok rfl, List.append_nil]
  rfl

/-- Remarks are straight. -/
theorem isStraight_of_mem_remark {st : Flow.Stmt} {instruction : Instruction}
    (h : instruction ∈ remark context st) : instruction.isStraight = true :=
  X86.isStraight_of_mem_ite rfl h

/-- Remarks do nothing. -/
theorem executeAll_remark (image : Image) (machine : Machine) (st : Flow.Stmt) :
    machine.executeAll image (remark context st) = .ok machine := by
  rw [remark]
  split <;> rfl

end Selection

/-! ## The code on the machine -/

namespace Machine

/-- The machine came to hold a word in a variable.  The other variables, the registers apart from
`%rax`, the memory, the globals and what else there is are as they were. -/
structure Assigns (machine : Machine) (target : Name) (word : Word) (machine' : Machine) : Prop
    extends machine.SameHeap machine' where
  target_eq : machine'.value? target = some word
  other_eq : ∀ other, other ≠ target → machine'.value? other = machine.value? other
  register_eq : ∀ full, full ≠ .rax → machine'.register full = machine.register full
  events_eq : machine'.events = machine.events

/-- The values of variables after an assignment. -/
def assigned (values : Name → Word) (target : Name) (word : Word) : Name → Word :=
  fun other => if other = target then word else values other

variable {image : Image} {machine : Machine} {values : Name → Word} {target : Name} {word : Word}

/-- The variable has the new word. -/
theorem assigned_self : assigned values target word target = word :=
  if_pos rfl

/-- Giving a variable its own word. -/
theorem assigned_same : assigned values target (values target) = values := by
  funext other
  rw [assigned]
  split
  · next heq => rw [heq]
  · rfl

/-- The last word counts. -/
theorem assigned_assigned (word' : Word) :
    assigned (assigned values target word) target word' = assigned values target word' := by
  funext other
  rw [assigned, assigned, assigned]
  split
  · rfl
  · rfl

/-- An assignment changes no operand but its target. -/
theorem valueIn_assigned {operand : Operand} (h : operand ≠ .var target) :
    valueIn (assigned values target word) operand = valueIn values operand := by
  cases operand with
  | var name => exact congrArg some (if_neg fun heq => h (congrArg Operand.var heq))
  | _ => rfl

/-- Registers apart from `%rax` and all that belongs to the heap must be as they were before the
assignment is made. -/
theorem assigns_withBindings {scratch : Machine} (hvalues : machine.bindings = some values)
    (hsame : machine.SameHeap scratch)
    (hregister : ∀ full, full ≠ .rax → scratch.register full = machine.register full)
    (hevents : scratch.events = machine.events) (target : Name) (word : Word) :
    machine.Assigns target word (scratch.withBindings (assigned values target word)) where
  memory_eq := hsame.memory_eq
  globals_eq := hsame.globals_eq
  heap_eq := hsame.heap_eq
  nextHeap_eq := hsame.nextHeap_eq
  target_eq := congrArg some assigned_self
  other_eq other hother := by
    rw [value?, value?, hvalues]
    exact congrArg some (if_neg hother)
  register_eq := hregister
  events_eq := hevents

/-- Operands have their values on a machine with bindings. -/
theorem read_withBindings {operand : Operand} (h : valueIn values operand = some word) :
    (machine.withBindings values).read operand = .ok word :=
  read_of_valueIn rfl h

/-- Arithmetic on a variable, with what it is defined to compute. -/
theorem advance_arithmetic {operator : BinaryOperator} (hoperator : operator.isArithmetic = true)
    {source : Operand} (hsource : valueIn values source = some word) :
    (machine.withBindings values).advance image (.binary operator source (.var target)) =
      .ok (machine.withBindings
        (assigned values target (compute operator (values target) word))) := by
  have hread : (machine.withBindings values).read (.var target) = .ok (values target) := rfl
  rw [advance_binary]
  cases operator with
  | addq | subq | imulq | andq | orq | xorq =>
    exact Except.bind_eq_ok.mpr ⟨word, read_withBindings hsource,
      Except.bind_eq_ok.mpr ⟨_, hread, rfl⟩⟩
  | cmpq | movq | movzbq | leaq => cases hoperator

/-- Negation of a variable. -/
theorem advance_negation :
    (machine.withBindings values).advance image (.negq (.var target)) =
      .ok (machine.withBindings (assigned values target (-values target))) := by
  rw [advance_negq]
  rfl

end Machine

namespace Selection

open Machine (assigned valueIn)

variable {image : Image} {machine : Machine} {values : Name → Word} {target : Name}
  {lhs rhs source : Operand} {a b : Word} {operator : BinaryOperator} {operation : Operator}

/-- After the move the destination holds the operand, whether it was there before or not. -/
theorem executeAll_moveUnlessSame (hsource : valueIn values source = some a) :
    (machine.withBindings values).executeAll image (moveUnlessSame source (.var target)) =
      .ok (machine.withBindings (assigned values target a)) := by
  rw [moveUnlessSame]
  split
  · next heq =>
    subst heq
    cases hsource
    rw [Machine.assigned_same]
    rfl
  · rw [Machine.executeAll_singleton]
    exact Machine.advance_movq (Machine.read_withBindings hsource) rfl

/-- The move leaves the other operand alone, unless that is the destination; and if it is, the two
operands are the same. -/
theorem valueIn_moved (hlhs : valueIn values lhs = some a) (hrhs : valueIn values rhs = some b)
    (h : rhs = .var target → lhs = .var target) :
    valueIn (assigned values target a) rhs = some b := by
  by_cases heq : rhs = .var target
  · rw [h heq] at hlhs
    rw [heq] at hrhs ⊢
    cases hlhs
    cases hrhs
    exact congrArg some Machine.assigned_self
  · rw [Machine.valueIn_assigned heq, hrhs]

/-- A move and an operation on its result. -/
theorem executeAll_operation (hoperator : operator.isArithmetic = true)
    (hlhs : valueIn values lhs = some a) (hrhs : valueIn values rhs = some b)
    (h : rhs = .var target → lhs = .var target) :
    (machine.withBindings values).executeAll image
        (moveUnlessSame lhs (.var target) ++ [.binary operator rhs (.var target)]) =
      .ok (machine.withBindings (assigned values target (Machine.compute operator a b))) := by
  rw [Machine.executeAll_append_of_ok _ (executeAll_moveUnlessSame hlhs),
    Machine.executeAll_singleton,
    Machine.advance_arithmetic hoperator (valueIn_moved hlhs hrhs h), Machine.assigned_assigned,
    Machine.assigned_self]

/-- The code of a commutative operator. -/
theorem executeAll_commutative (hoperator : operator.isArithmetic = true)
    (hcomm : Machine.compute operator b a = Machine.compute operator a b)
    (hlhs : valueIn values lhs = some a) (hrhs : valueIn values rhs = some b) :
    (machine.withBindings values).executeAll image (commutative operator lhs rhs (.var target)) =
      .ok (machine.withBindings (assigned values target (Machine.compute operator a b))) := by
  rw [commutative]
  split
  · next heq =>
    subst heq
    cases hrhs
    rw [Machine.executeAll_singleton, Machine.advance_arithmetic hoperator hlhs, hcomm]
  · next hne => exact executeAll_operation hoperator hlhs hrhs fun heq => absurd heq hne

/-- The code of a negation. -/
theorem executeAll_negation (hsource : valueIn values source = some a) :
    (machine.withBindings values).executeAll image
        (moveUnlessSame source (.var target) ++ [.negq (.var target)]) =
      .ok (machine.withBindings (assigned values target (-a))) := by
  rw [Machine.executeAll_append_of_ok _ (executeAll_moveUnlessSame hsource),
    Machine.executeAll_singleton, Machine.advance_negation, Machine.assigned_assigned,
    Machine.assigned_self]

/-- The difference into its right operand. -/
theorem executeAll_difference (hlhs : valueIn values lhs = some a) (hne : lhs ≠ .var target) :
    (machine.withBindings values).executeAll image
        [.negq (.var target), .addq lhs (.var target)] =
      .ok (machine.withBindings (assigned values target (a - values target))) := by
  have hlhs' : valueIn (assigned values target (-values target)) lhs = some a := by
    rw [Machine.valueIn_assigned hne, hlhs]
  rw [Machine.executeAll_cons_of_ok _ Machine.advance_negation, Machine.executeAll_singleton,
    Instruction.addq, Machine.advance_arithmetic rfl hlhs', Machine.assigned_assigned,
    Machine.assigned_self]
  congr 3
  rw [Machine.compute]
  grind

/-- A comparison changes `%rax` on its way. -/
theorem exists_executeAll_comparison (image : Image) (condition : Condition)
    (hvalues : machine.bindings = some values) (hlhs : valueIn values lhs = some a)
    (hrhs : valueIn values rhs = some b) (target : Name) :
    ∃ machine', machine.executeAll image (comparison condition lhs rhs (.var target)) =
        .ok machine' ∧
      machine.Assigns target (Word.ofBool (condition.holds a b)) machine' := by
  let compared : Machine := { machine with flags := (a, b) }
  let byte := compared.setLowByte .al (Word.ofBool (condition.holds a b))
  have hcompare : machine.advance image (.cmpq rhs lhs) = .ok compared := by
    rw [Instruction.cmpq, Machine.advance_binary]
    exact Except.bind_eq_ok.mpr ⟨b, Machine.read_of_valueIn hvalues hrhs,
      Except.bind_eq_ok.mpr ⟨a, Machine.read_of_valueIn hvalues hlhs, rfl⟩⟩
  have hset : compared.advance image (.set condition (.byteRegister .al)) = .ok byte := by
    rw [Machine.advance_set]
    rfl
  have hword : Word.ofBool (condition.holds a b) &&& 255 &&& 255 =
      Word.ofBool (condition.holds a b) := by
    cases condition.holds a b <;> rfl
  have hextend : byte.advance image (.binary .movzbq (.byteRegister .al) (.var target)) =
      .ok (byte.withBindings
        (assigned values target (Word.ofBool (condition.holds a b)))) := by
    rw [Machine.advance_binary]
    refine Except.bind_eq_ok.mpr ⟨_, X86.read_setLowByte .., ?_⟩
    rw [Machine.compute, hword, Machine.write]
    have hbindings : byte.bindings = some values := hvalues
    rw [hbindings]
    rfl
  refine ⟨byte.withBindings (assigned values target (Word.ofBool (condition.holds a b))), ?_, ?_⟩
  · rw [comparison, Machine.executeAll_cons_of_ok _ hcompare, Machine.executeAll_cons_of_ok _ hset,
      Machine.executeAll_singleton]
    exact hextend
  · have hsame : machine.SameHeap byte := ⟨rfl, rfl, rfl, rfl⟩
    have hregister (full : Register) (hfull : full ≠ .rax) :
        byte.register full = machine.register full :=
      Machine.register_setRegister_of_ne compared _ hfull
    exact Machine.assigns_withBindings hvalues hsame hregister rfl target _

/-- The code of an operator gives the destination the word that the operator makes of the words of
its operands. -/
theorem exists_executeAll_primitive (image : Image) {operands : List Operand} {words : List Word}
    {word : Word} {code : List Instruction} (hvalues : machine.bindings = some values)
    (hoperands : List.Forall₂ (fun operand word => valueIn values operand = some word) operands
      words) (hword : operation.onWords? words = some word)
    (hcode : primitive (.var target) operation operands = some code) :
    ∃ machine', machine.executeAll image code = .ok machine' ∧
      machine.Assigns target word machine' := by
  have hassigns (word : Word) :
      machine.Assigns target word (machine.withBindings (assigned values target word)) :=
    Machine.assigns_withBindings hvalues ⟨rfl, rfl, rfl, rfl⟩ (fun _ _ => rfl) rfl target word
  have hdone {code' : List Instruction}
      (hcode' : primitive (.var target) operation operands = some code')
      (h : (machine.withBindings values).executeAll image code' =
        .ok (machine.withBindings (assigned values target word))) :
      ∃ machine', machine.executeAll image code = .ok machine' ∧
        machine.Assigns target word machine' := by
    cases hcode.symm.trans hcode'
    rw [Machine.withBindings_of_eq hvalues] at h
    exact ⟨_, h, hassigns word⟩
  unfold Operator.onWords? at hword
  split at hword
  case h_1 a b =>
    rcases hoperands with _ | ⟨ha, _ | ⟨hb, _ | _⟩⟩
    cases hword
    exact hdone rfl (executeAll_commutative rfl (Int64.add_comm ..) ha hb)
  case h_2 a b =>
    rcases hoperands with _ | ⟨ha, _ | ⟨hb, _ | _⟩⟩
    rename_i lhs rhs
    cases hword
    by_cases hinto : rhs = .var target ∧ lhs ≠ .var target
    · refine hdone (if_pos hinto) ?_
      obtain ⟨rfl, hne⟩ := hinto
      cases hb
      exact executeAll_difference ha hne
    · refine hdone (if_neg hinto) (executeAll_operation rfl ha hb fun heq => ?_)
      exact not_not.mp fun hne => hinto ⟨heq, hne⟩
  case h_3 a b =>
    rcases hoperands with _ | ⟨ha, _ | ⟨hb, _ | _⟩⟩
    cases hword
    exact hdone rfl (executeAll_commutative rfl (Int64.mul_comm ..) ha hb)
  case h_4 a =>
    rcases hoperands with _ | ⟨ha, _ | _⟩
    cases hword
    exact hdone rfl (executeAll_negation ha)
  case h_5 a =>
    rcases hoperands with _ | ⟨ha, _ | _⟩
    cases hword
    exact hdone rfl (executeAll_operation rfl ha rfl fun heq => by cases heq)
  case h_6 a b =>
    rcases hoperands with _ | ⟨ha, _ | ⟨hb, _ | _⟩⟩
    cases hword
    exact hdone rfl (executeAll_commutative rfl (Int64.and_comm ..) ha hb)
  case h_7 a b =>
    rcases hoperands with _ | ⟨ha, _ | ⟨hb, _ | _⟩⟩
    cases hword
    exact hdone rfl (executeAll_commutative rfl (Int64.or_comm ..) ha hb)
  case h_8 =>
    rcases hoperands with _ | ⟨ha, _ | ⟨hb, _ | _⟩⟩
    rename_i lhs rhs
    obtain ⟨condition, hcondition, rfl⟩ := Option.map_eq_some_iff.mp hword
    have hcomparison : primitive (.var target) operation [lhs, rhs] =
        some (comparison condition lhs rhs (.var target)) := by
      cases operation with
      | eq | ne | lt | lte | gt | gte =>
        cases hcondition
        rfl
      | _ => cases hcondition
    cases hcode.symm.trans hcomparison
    exact exists_executeAll_comparison image condition hvalues ha hb target
  case h_9 => cases hword

/-- The code of a branch compares the operands and jumps. -/
theorem branch_eq_ok {context : Context} {s : NameSupply} {condition : Condition}
    {lhs rhs : Flow.Atom} (h : NoFunctions context [lhs, rhs])
    (hcondition : Condition.ofOperator? operation = some condition) (positive negative : Name) :
    statement context (.branch operation lhs rhs positive negative) s =
      .ok ([.cmpq rhs.operand lhs.operand, .jumpIf condition positive, .jump negative], s) := by
  have hlhs : NoFunctions context [lhs] := fun name hname => h name (by simp_all)
  have hrhs : NoFunctions context [rhs] := fun name hname => h name (by simp_all)
  rw [statement, hcondition]
  dsimp only
  rw [bind_of_ok (atom_eq_operand hlhs)]
  dsimp only
  rw [bind_of_ok (atom_eq_operand hrhs)]
  rfl

end Selection

namespace Machine

variable {machine : Machine}

/-- The machine has a store, and variables with integers or truth values have their words there. -/
def KeepsLocals (machine : Machine) (locals : Interpreter.Locals) : Prop :=
  ∃ values, machine.bindings = some values ∧
    ∀ name value word, locals[name]? = some value → value.word? = some word → values name = word

/-- The code of an operator may change `%rax`, but no register that is a location. -/
theorem Assigns.tracked_eq {machine' : Machine} {target : Name} {word : Word} {config : Config}
    (h : machine.Assigns target word machine') (hconfig : config.validate = .ok ())
    {full : Register} {location : Location}
    (hlocation : Location.ofRegister? config full = some location) :
    machine'.register full = machine.register full := by
  refine h.register_eq full ?_
  rintro rfl
  rw [Location.ofRegister?_of_reserved hconfig (by decide)] at hlocation
  cases hlocation

end Machine

/-- Only comparisons decide branches, and what they give is a truth value. -/
theorem Value.exists_truth {heap : Heap} {operator : Operator} {condition : Condition}
    {values : List Value} {value : Value}
    (hcondition : Condition.ofOperator? operator = some condition)
    (h : Value.primitive heap operator values = .ok value) : ∃ truth, value = .bool truth := by
  unfold Value.primitive at h
  split at h
  case h_8 | h_9 | h_10 | h_11 | h_12 | h_13 =>
    cases h
    exact ⟨_, rfl⟩
  case h_15 => cases h
  all_goals cases hcondition

/-- Truth values have different words. -/
theorem Word.ofBool_inj {a b : Bool} (h : Word.ofBool a = Word.ofBool b) : a = b := by
  cases a <;> cases b <;> first | rfl | exact absurd h (by decide)

/-! ## Assignments and branches -/

namespace Selection

variable {context : Context} {operation : Operator} {operands : List Flow.Atom}
  {operandValues : List Value} {words : List Word} {word : Word} {locals : Interpreter.Locals}

/-- The code of an assignment runs, with the word of the operator as the result. -/
theorem exists_steps_assign {target : Name} {s : NameSupply} (hnames : NoFunctions context operands)
    (hoperation : operation ≠ .subscript) (hlength : operands.length = operation.arity)
    (hvalues : List.Forall₂ (fun a value => a.valueIn? locals = some value) operands operandValues)
    (hwords : Value.HaveWords operandValues words) (hword : operation.onWords? words = some word) :
    ∃ code, statements context [.assign target (.primitive operation operands)] s = .ok (code, s) ∧
      ∀ (image : Image) (machine : Machine), image.HasCode machine.next code →
        machine.KeepsLocals locals →
        ∃ machine', machine.Steps image code.length machine' ∧
          machine'.next = machine.next + code.length ∧ machine.Assigns target word machine' := by
  have hmapped : (operands.map Flow.Atom.operand).length = operation.arity :=
    (List.length_map _).trans hlength
  obtain ⟨code, hcode⟩ := exists_primitive hoperation hmapped (.var target)
  refine ⟨remark context (.assign target (.primitive operation operands)) ++ code,
    statements_singleton (operator_eq_ok hnames hoperation hcode), ?_⟩
  intro image machine himage hkeeps
  obtain ⟨values, hbindings, hkept⟩ := hkeeps
  have hoperands := Flow.Atom.forall₂_valueIn hkept hvalues hwords
  obtain ⟨machine', hexecute, hassigns⟩ :=
    exists_executeAll_primitive image hbindings hoperands hword hcode
  have hstraight : ∀ instruction ∈
      remark context (.assign target (.primitive operation operands)) ++ code,
      instruction.isStraight = true := by
    refine List.forall_mem_append.mpr ⟨fun _ => isStraight_of_mem_remark, ?_⟩
    have hvalue : ∀ operand ∈ operands.map Flow.Atom.operand, operand.isValue = true := by
      intro operand hmem
      obtain ⟨a, -, rfl⟩ := List.mem_map.mp hmem
      rcases a with name | ⟨value | value⟩ <;> rfl
    have hcomputes : Computes context (.primitive operation operands) (.var target) code :=
      computes_primitive hvalue hcode
    exact hcomputes.isStraight
  refine ⟨_, .of_executeAll himage hstraight ?_, rfl, { hassigns with }⟩
  rw [Machine.executeAll_append_of_ok _ (executeAll_remark image machine _)]
  exact hexecute

/-- The code of a branch runs to one of its labels. -/
theorem exists_steps_branch {lhs rhs : Flow.Atom} {left right : Value} {a b : Word}
    {condition : Condition} {positive negative : Name} {s : NameSupply}
    (hnames : NoFunctions context [lhs, rhs])
    (hcondition : Condition.ofOperator? operation = some condition)
    (hleft : lhs.valueIn? locals = some left) (hright : rhs.valueIn? locals = some right)
    (ha : left.word? = some a) (hb : right.word? = some b) :
    ∃ code, statements context [.branch operation lhs rhs positive negative] s = .ok (code, s) ∧
      ∀ (image : Image) (machine : Machine) (number : Nat), image.HasCode machine.next code →
        machine.KeepsLocals locals →
        image.label (if condition.holds a b then positive else negative) = .ok number →
        ∃ count, machine.Steps image count { machine with flags := (a, b), next := number } := by
  refine ⟨_, statements_singleton (branch_eq_ok hnames hcondition positive negative), ?_⟩
  intro image machine number himage hkeeps hlabel
  obtain ⟨values, hbindings, hkept⟩ := hkeeps
  let m := machine.continueAt
    (machine.next + (remark context (.branch operation lhs rhs positive negative)).length)
  have hremark : machine.Steps image _ m := .of_executeAll himage.left
    (fun _ => isStraight_of_mem_remark) (executeAll_remark image machine _)
  have hcode : image.HasCode m.next
      [.cmpq rhs.operand lhs.operand, .jumpIf condition positive, .jump negative] := himage.right
  have hreadLeft : m.read lhs.operand = .ok a :=
    Machine.read_of_valueIn hbindings (Flow.Atom.valueIn_operand hkept hleft ha)
  have hreadRight : m.read rhs.operand = .ok b :=
    Machine.read_of_valueIn hbindings (Flow.Atom.valueIn_operand hkept hright hb)
  obtain ⟨count, hsteps⟩ :=
    (Machine.Quietly.of_branch hcode hreadRight hreadLeft hlabel).storing.exists_steps
  exact ⟨_, hremark.trans hsteps⟩

/-- **The code of operators agrees with the interpreter.**  Let the operands of an operator have
values of the types that the checker asks for, and let none of them be the name of a function.  Then
the interpreter gives a value that has a word, and the code that is selected for an assignment of
the operator leaves that word in the target, whether or not the target is among the operands; it
changes no other variable, no register but `%rax`, which is never allocatable, no memory and no
global.  If the operator is a comparison, the code of a branch goes to the first label if the value
is true and to the second one if it is false, and changes nothing. -/
theorem operator_code_agrees {tys : List Ty} {ty : Ty} {functions : Std.ExtTreeMap Name Ty}
    {state : Interpreter.State} (hnames : NoFunctions context operands)
    (hvalues : List.Forall₂ (fun a value => a.valueIn? state.locals = some value) operands
      operandValues)
    (htyped : List.Forall₂ (Value.Fits false functions state.heap) operandValues tys)
    (hty : operation.resultType? tys = some ty) :
    ∃ value word,
      (∀ evaluation enter, Expr.eval evaluation enter
        (.primitive operation (operands.map Flow.Atom.toExpr)) state = .ok (value, state)) ∧
      value.word? = some word ∧
      (∀ target s, ∃ code,
        statements context [.assign target (.primitive operation operands)] s = .ok (code, s) ∧
        ∀ (image : Image) (machine : Machine), image.HasCode machine.next code →
          machine.KeepsLocals state.locals →
          ∃ machine', machine.Steps image code.length machine' ∧
            machine'.next = machine.next + code.length ∧ machine.Assigns target word machine' ∧
            (context.config.validate = .ok () → ∀ full location,
              Location.ofRegister? context.config full = some location →
              machine'.register full = machine.register full)) ∧
      ∀ lhs rhs, operands = [lhs, rhs] → operation.isComparison = true →
        ∃ truth, value = .bool truth ∧ ∀ positive negative s, ∃ code,
          statements context [.branch operation lhs rhs positive negative] s = .ok (code, s) ∧
          ∀ (image : Image) (machine : Machine) (number : Nat), image.HasCode machine.next code →
            machine.KeepsLocals state.locals →
            image.label (if truth then positive else negative) = .ok number →
            ∃ count flags, machine.Steps image count { machine with flags, next := number } := by
  obtain ⟨value, words, word, hprimitive, hwords, hword, hvalueWord⟩ :=
    Value.Fits.exists_onWords htyped hty
  have hoperation : operation ≠ .subscript := by
    rintro rfl
    simp [Operator.resultType?] at hty
  have hlength : operands.length = operation.arity :=
    hvalues.length_eq.trans (htyped.length_eq.trans (Typing.length_of_resultType? hty))
  refine ⟨value, word, Flow.Atom.eval_primitive hvalues hprimitive, hvalueWord, ?_, ?_⟩
  · intro target s
    obtain ⟨code, hcode, hrun⟩ :=
      exists_steps_assign hnames hoperation hlength hvalues hwords hword
    refine ⟨code, hcode, fun image machine himage hkeeps => ?_⟩
    obtain ⟨machine', hsteps, hnext, hassigns⟩ := hrun image machine himage hkeeps
    exact ⟨machine', hsteps, hnext, hassigns, fun hconfig _ _ => hassigns.tracked_eq hconfig⟩
  · rintro lhs rhs rfl hcomparison
    obtain ⟨condition, hcondition⟩ := exists_ofOperator? hcomparison
    obtain ⟨truth, rfl⟩ := Value.exists_truth hcondition hprimitive
    rcases hvalues with _ | ⟨hleft, _ | ⟨hright, _ | _⟩⟩
    rcases hwords with _ | ⟨ha, _ | ⟨hb, _ | _⟩⟩
    rw [Operator.onWords?_of_condition hcondition] at hword
    cases hword
    have htruth := Word.ofBool_inj (Option.some_inj.mp hvalueWord)
    refine ⟨truth, rfl, fun positive negative s => ?_⟩
    obtain ⟨code, hcode, hrun⟩ := exists_steps_branch hnames hcondition hleft hright ha hb
    refine ⟨code, hcode, fun image machine number himage hkeeps hlabel => ?_⟩
    rw [htruth] at hlabel
    obtain ⟨count, hsteps⟩ := hrun image machine number himage hkeeps hlabel
    exact ⟨count, _, hsteps⟩

/-- Two variables with integers. -/
def comparisonState : Interpreter.State where
  locals := ((∅ : Interpreter.Locals).insert "a" (.int 2)).insert "d" (.int 5)
  fuel := 0

/-- The code of an assignment to `d` that tests whether `a` is less than `d`, and that of a branch
which makes the same test. -/
def comparisonImage : Image where
  code := #[.cmpq (.var "d") (.var "a"), .set .l (.byteRegister .al),
    .binary .movzbq (.byteRegister .al) (.var "d"),
    .cmpq (.var "d") (.var "a"), .jumpIf .l "p", .jump "n"]
  labels := .ofList [("p", 6), ("n", 7)]

/-- A machine with those two variables, at one of the two pieces of code. -/
def comparisonMachine (next : Nat) : Machine where
  nextHeap := 0
  next := next
  bindings := some fun name => if name = "a" then 2 else 5

/-- The variables of the machine are those of the state. -/
theorem keepsLocals_comparison (next : Nat) :
    (comparisonMachine next).KeepsLocals comparisonState.locals := by
  refine ⟨_, rfl, fun name value word hvalue hword => ?_⟩
  have hlookup : comparisonState.locals[name]? =
      if "d" = name then some (.int 5) else if "a" = name then some (.int 2) else none := by
    simp [comparisonState, Std.ExtTreeMap.getElem?_insert]
  rw [hlookup] at hvalue
  split at hvalue
  · next heq =>
    cases heq
    cases hvalue
    cases hword
    rfl
  · split at hvalue
    · next heq =>
      cases heq
      cases hvalue
      cases hword
      rfl
    · cases hvalue

/-- The comparison of two variables, as a value and as a branch. -/
theorem operator_code_agrees_comparison :
    NoFunctions ⟨{}, ∅, "c"⟩ [.var "a", .var "d"] ∧
      Operator.lt.resultType? [.int, .int] = some .bool ∧
      (∃ machine', (comparisonMachine 0).Steps comparisonImage 3 machine' ∧
        (comparisonMachine 0).Assigns "d" 1 machine') ∧
      ∃ count flags, (comparisonMachine 3).Steps comparisonImage count
        { comparisonMachine 6 with flags } := by
  have hnames : NoFunctions ⟨{}, ∅, "c"⟩ [.var "a", .var "d"] := fun _ _ => rfl
  have hty : Operator.lt.resultType? [.int, .int] = some .bool := rfl
  have hvalues : List.Forall₂
      (fun (a : Flow.Atom) value => a.valueIn? comparisonState.locals = some value)
      [.var "a", .var "d"] [.int 2, .int 5] := by
    simp [Flow.Atom.valueIn?, comparisonState, Std.ExtTreeMap.getElem?_insert]
  have htyped : List.Forall₂ (Value.Fits false ∅ comparisonState.heap) [.int 2, .int 5]
      [.int, .int] := .cons (.int 2) (.cons (.int 5) .nil)
  obtain ⟨value, word, heval, hword, hassign, hbranch⟩ :=
    operator_code_agrees hnames hvalues htyped hty
  have hless : Value.primitive comparisonState.heap .lt [.int 2, .int 5] = .ok (.bool true) := by
    decide
  have htrue := Flow.Atom.eval_primitive hvalues hless ⟨∅, 0⟩ fun _ => throw (.outOfFuel 0)
  cases (heval _ _).symm.trans htrue
  cases hword
  obtain ⟨truth, htruth, hbranch⟩ := hbranch _ _ rfl rfl
  cases htruth
  refine ⟨hnames, hty, ?_, ?_⟩
  · obtain ⟨code, hcode, hrun⟩ := hassign "d" {}
    have hselected : statements ⟨{}, ∅, "c"⟩
        [.assign "d" (.primitive .lt [.var "a", .var "d"])] {} =
        .ok ([.cmpq (.var "d") (.var "a"), .set .l (.byteRegister .al),
          .binary .movzbq (.byteRegister .al) (.var "d")], {}) := rfl
    cases hcode.symm.trans hselected
    obtain ⟨machine', hsteps, -, hassigns, -⟩ := hrun comparisonImage (comparisonMachine 0)
      (by decide) (keepsLocals_comparison 0)
    exact ⟨machine', hsteps, hassigns⟩
  · obtain ⟨code, hcode, hrun⟩ := hbranch "p" "n" {}
    have hselected : statements ⟨{}, ∅, "c"⟩ [.branch .lt (.var "a") (.var "d") "p" "n"] {} =
        .ok ([.cmpq (.var "d") (.var "a"), .jumpIf .l "p", .jump "n"], {}) := rfl
    cases hcode.symm.trans hselected
    exact hrun comparisonImage (comparisonMachine 3) 6 (by decide) (keepsLocals_comparison 3)
      (by decide)

end Selection

end TupleLang
