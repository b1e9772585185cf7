import TupleLang.Proofs.TypingRules

/-!
# Values and their types

`Value.Fits` says that a value is of a type.  A function may run off its end, whatever it has to
return, and then its result is the integer zero; so zero may turn up wherever a value of some type
is expected, also inside of tuples.  Whether it may is a parameter of the relation.

Apart from that the checker is right about operators: an operator whose operands have the types that
the checker asks for either gives a value of the type that the checker finds, or it refuses a zero
that stands in the place of something else (`Value.Fits.primitive`, `Value.Fits.subscript`).
-/

namespace TupleLang

/-- The second heap has all tuples of the first one, with the same fields. -/
def Heap.Grows (heap heap' : Heap) : Prop :=
  ∀ (address : Nat) (fields : List Value), heap[address]? = some fields →
    heap'[address]? = some fields

theorem Heap.Grows.refl (heap : Heap) : heap.Grows heap :=
  fun _ _ h => h

theorem Heap.Grows.trans {heap heap' heap'' : Heap} (h : heap.Grows heap')
    (h' : heap'.Grows heap'') : heap.Grows heap'' :=
  fun address fields hfields => h' address fields (h address fields hfields)

/-- A new tuple takes a place of its own. -/
theorem Heap.grows_push (heap : Heap) (fields : List Value) :
    heap.Grows (heap.push fields) := by
  intro address found h
  have hlt : address < heap.size := (Array.getElem?_eq_some_iff.mp h).1
  rw [Array.getElem?_push_lt hlt, ← h, Array.getElem?_eq_getElem hlt]

/-- The value is of the type.  A tuple has as many fields as its type, and those are of the types of
the fields; a function is named by a value of exactly its type.  If `zeros` is set, the integer zero
is of every type. -/
inductive Value.Fits (zeros : Bool) (functions : Std.ExtTreeMap Name Ty) (heap : Heap) :
    Value → Ty → Prop
  | zero (h : zeros = true) (ty : Ty) : Value.Fits zeros functions heap (.int 0) ty
  | int (value : Word) : Value.Fits zeros functions heap (.int value) .int
  | bool (value : Bool) : Value.Fits zeros functions heap (.bool value) .bool
  | function {name : Name} {parameters : List Ty} {output : Ty}
      (h : functions[name]? = some (.function parameters output)) :
    Value.Fits zeros functions heap (.function name) (.function parameters output)
  | tuple {address : Nat} {fields : List Value} {tys : List Ty}
      (hfields : heap[address]? = some fields) (hlength : fields.length = tys.length)
      (hfit : ∀ (i : Nat) (field : Value) (ty : Ty), fields[i]? = some field →
        tys[i]? = some ty → Value.Fits zeros functions heap field ty) :
    Value.Fits zeros functions heap (.tuple address) (.tuple tys)

namespace Value.Fits

variable {zeros : Bool} {functions : Std.ExtTreeMap Name Ty} {heap heap' : Heap} {value : Value}
  {ty : Ty} {tys : List Ty} {index : Word} {values : List Value}

/-- A value is of its type wherever there are more tuples. -/
theorem mono (h : value.Fits zeros functions heap ty) (hgrows : heap.Grows heap') :
    value.Fits zeros functions heap' ty := by
  induction h with
  | zero h ty => exact .zero h ty
  | int value => exact .int value
  | bool value => exact .bool value
  | function h => exact .function h
  | tuple hfields hlength _ ih => exact .tuple (hgrows _ _ hfields) hlength ih

/-- Zero is an integer anyway. -/
theorem exists_int (h : value.Fits zeros functions heap .int) : ∃ word, value = .int word := by
  cases h with
  | zero _ _ => exact ⟨0, rfl⟩
  | int word => exact ⟨word, rfl⟩

/-- Values of type `bool`, where zeros stand for missing results. -/
theorem bool_or_zero (h : value.Fits zeros functions heap .bool) :
    (∃ truth, value = .bool truth) ∨ zeros = true ∧ value = .int 0 := by
  cases h with
  | zero hzeros _ => exact .inr ⟨hzeros, rfl⟩
  | bool truth => exact .inl ⟨truth, rfl⟩

/-- Values of function types. -/
theorem function_or_zero {parameters : List Ty} {output : Ty}
    (h : value.Fits zeros functions heap (.function parameters output)) :
    (∃ name, value = .function name ∧ functions[name]? = some (.function parameters output)) ∨
      zeros = true ∧ value = .int 0 := by
  cases h with
  | zero hzeros _ => exact .inr ⟨hzeros, rfl⟩
  | function hname => exact .inl ⟨_, rfl, hname⟩

/-- What can be printed has a word. -/
theorem exists_word (h : value.Fits zeros functions heap ty) (hprintable : ty.isPrintable = true) :
    ∃ word, value.word? = some word := by
  cases h with
  | zero _ _ => exact ⟨0, rfl⟩
  | int word => exact ⟨word, rfl⟩
  | bool truth => exact ⟨Word.ofBool truth, rfl⟩
  | function _ => cases hprintable
  | tuple _ _ _ => cases hprintable

/-- A field of a tuple that its type has is there. -/
theorem field {address : Nat} (h : (Value.tuple address).Fits zeros functions heap (.tuple tys))
    (hindex : index.toCount?.bind (tys[·]?) = some ty) :
    ∃ field, Value.field heap address index = .ok field ∧ field.Fits zeros functions heap ty := by
  cases h with
  | @tuple _ fields _ hfields hlength hfit =>
    obtain ⟨i, hi, hty⟩ := Option.bind_eq_some_iff.mp hindex
    have hlt : i < fields.length := hlength ▸ (List.getElem?_eq_some_iff.mp hty).1
    have hfield : fields[i]? = some fields[i] := List.getElem?_eq_getElem hlt
    have hheap : heap.fields address = fields := by
      simp [Heap.fields, Array.getD_eq_getD_getElem?, hfields]
    refine ⟨fields[i], ?_, hfit i _ ty hfield hty⟩
    simp [Value.field, hheap, hi, hfield]

/-- A subscript gives a field of its type, or it refuses a zero in the place of the tuple. -/
theorem subscript (h : value.Fits zeros functions heap (.tuple tys))
    (hindex : index.toCount?.bind (tys[·]?) = some ty) :
    (∃ field, Value.primitive heap .subscript [value, .int index] = .ok field ∧
        field.Fits zeros functions heap ty) ∨
      zeros = true ∧ ∃ shown, Value.primitive heap .subscript [value, .int index] =
        .error (.invalidOperand Operator.subscript.name shown) := by
  cases h with
  | zero hzeros _ => exact .inr ⟨hzeros, _, rfl⟩
  | tuple hfields hlength hfit => exact .inl ((Value.Fits.tuple hfields hlength hfit).field hindex)

/-- Two values of one type, if it has values of one kind only. -/
theorem exists_two {α : Type} {make : α → Value}
    (hmake : ∀ value, value.Fits zeros functions heap ty → ∃ a, value = make a)
    (h : List.Forall₂ (Value.Fits zeros functions heap) values [ty, ty]) :
    ∃ a b, values = [make a, make b] := by
  cases h with
  | cons ha h =>
    cases h with
    | cons hb h =>
      cases h
      obtain ⟨a, rfl⟩ := hmake _ ha
      obtain ⟨b, rfl⟩ := hmake _ hb
      exact ⟨a, b, rfl⟩

/-- An operator that looks at all its operands gives a value of the type that the checker finds, or
it refuses a zero. -/
theorem primitive {operator : Operator} (hstrict : operator.isShortCircuiting = false)
    (hvalues : List.Forall₂ (Value.Fits zeros functions heap) values tys)
    (hty : operator.resultType? tys = some ty) :
    (∃ value, Value.primitive heap operator values = .ok value ∧
        value.Fits zeros functions heap ty) ∨
      zeros = true ∧ ∃ shown,
        Value.primitive heap operator values = .error (.invalidOperand operator.name shown) := by
  unfold Operator.resultType? at hty
  split at hty
  case h_1 | h_2 | h_3 =>
    cases hty
    obtain ⟨a, b, rfl⟩ := exists_two (fun _ => exists_int) hvalues
    exact .inl ⟨_, rfl, .int _⟩
  case h_4 =>
    cases hty
    cases hvalues with
    | cons ha hnil =>
      cases hnil
      obtain ⟨a, rfl⟩ := ha.exists_int
      exact .inl ⟨_, rfl, .int _⟩
  case h_5 =>
    cases hty
    cases hvalues with
    | cons ha hnil =>
      cases hnil
      rcases ha.bool_or_zero with ⟨truth, rfl⟩ | ⟨hzeros, rfl⟩
      · exact .inl ⟨_, rfl, .bool _⟩
      · exact .inr ⟨hzeros, _, rfl⟩
  case h_6 | h_7 => cases hstrict
  case h_8 | h_9 | h_10 | h_11 =>
    cases hty
    obtain ⟨a, b, rfl⟩ := exists_two (fun _ => exists_int) hvalues
    exact .inl ⟨_, rfl, .bool _⟩
  case h_12 | h_13 =>
    split at hty <;> cases hty
    cases hvalues with
    | cons ha hvalues =>
      cases hvalues with
      | cons hb hnil =>
        cases hnil
        exact .inl ⟨_, rfl, .bool _⟩
  case h_14 => cases hty

end Value.Fits

end TupleLang
