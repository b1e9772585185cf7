import TupleLang.Text.Basic

/-!
# Types

Values are integers, booleans, pointers to heap tuples and pointers to functions.

`Ty.text` is the form in which a type is shown to the user.  A tuple of one field keeps a comma
after the field, so that the text of a tuple type never reads as the text of its only field.
-/

namespace TupleLang

/-- The types of the language. -/
inductive Ty where
  | int
  | bool
  /-- A pointer to a heap tuple with fields of these types. -/
  | tuple (fields : List Ty)
  /-- A pointer to the entry of a function. -/
  | function (parameters : List Ty) (output : Ty)

namespace Ty

mutual

/-- Equality of types is decided constructor by constructor. -/
def decEq : (a b : Ty) → Decidable (a = b)
  | .int, .int | .bool, .bool => isTrue rfl
  | .tuple fields, .tuple fields' =>
    match decEqList fields fields' with
    | isTrue h => isTrue (h ▸ rfl)
    | isFalse h => isFalse fun e => h (Ty.tuple.inj e)
  | .function parameters output, .function parameters' output' =>
    match decEqList parameters parameters', decEq output output' with
    | isTrue h, isTrue k => isTrue (h ▸ k ▸ rfl)
    | isFalse h, _ => isFalse fun e => h (Ty.function.inj e).1
    | _, isFalse k => isFalse fun e => k (Ty.function.inj e).2
  | .int, .bool | .int, .tuple _ | .int, .function _ _
  | .bool, .int | .bool, .tuple _ | .bool, .function _ _
  | .tuple _, .int | .tuple _, .bool | .tuple _, .function _ _
  | .function _ _, .int | .function _ _, .bool | .function _ _, .tuple _ => isFalse nofun

/-- Equality of lists of types is decided member by member. -/
def decEqList : (a b : List Ty) → Decidable (a = b)
  | [], [] => isTrue rfl
  | x :: xs, y :: ys =>
    match decEq x y, decEqList xs ys with
    | isTrue h, isTrue k => isTrue (h ▸ k ▸ rfl)
    | isFalse h, _ => isFalse fun e => h (List.cons.inj e).1
    | _, isFalse k => isFalse fun e => k (List.cons.inj e).2
  | [], _ :: _ | _ :: _, [] => isFalse nofun

end

instance : DecidableEq Ty := decEq

/-- Whether values of the type are pointers to heap tuples. -/
def isTuple : Ty → Bool
  | tuple _ => true
  | _ => false

/-- Whether values of the type can be printed and compared. -/
def isPrintable : Ty → Bool
  | int | bool => true
  | _ => false

/-- The largest number of fields of a tuple: the header keeps six bits for the length, and a mask
with one bit for each field above them. -/
def maxFields : Nat := 50

mutual

/-- The type as it is shown to the user. -/
def text : Ty → String
  | .int => "int"
  | .bool => "bool"
  | .tuple [field] => "(" ++ field.text ++ ",)"
  | .tuple fields => "(" ++ ", ".intercalate (texts fields) ++ ")"
  | .function parameters output =>
    "fn(" ++ ", ".intercalate (texts parameters) ++ ") -> " ++ output.text

/-- The texts of the members of a list of types. -/
def texts : List Ty → List String
  | [] => []
  | ty :: tys => ty.text :: texts tys

end

mutual

/-- The outline of a type. -/
def outline : Ty → String
  | .int => "Int"
  | .bool => "Bool"
  | .tuple fields => Outline.tagged "Tuple" [Outline.list (outlines fields)]
  | .function parameters output =>
    Outline.record "Function"
      [("parameters", Outline.list (outlines parameters)), ("output", output.outline)]

/-- The outlines of the members of a list of types. -/
def outlines : List Ty → List String
  | [] => []
  | ty :: tys => ty.outline :: outlines tys

end

end Ty

end TupleLang
