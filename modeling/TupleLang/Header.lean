import TupleLang.Ty
import TupleLang.Word

/-!
# Tuple headers

A heap tuple is a header word followed by one word for each field.  `Header.tag` is the header of a
tuple whose fields have the given types: its lowest bit is set, the next six bits hold the number
of fields, and bit `7 + i` is set when field `i` points to a tuple itself.

The lowest bit tells a header from the address that the collector leaves in its place, since
addresses of tuples are multiples of eight.  `Header.length` and `Header.pointerMask` read the
header back.
-/

namespace TupleLang.Header

/-- The number of bytes of a tuple with the given number of fields, its header included. -/
def allocationSize (fields : Nat) : Nat :=
  8 * (fields + 1)

/-- The mask of the fields that point to tuples, for fields numbered from `start` on. -/
def maskFrom (start : Nat) : List Ty → Word
  | [] => 0
  | field :: fields =>
    (if field.isTuple then 1 <<< Word.ofCount start else 0) ||| maskFrom (start + 1) fields

/-- The header of a tuple with fields of the given types. -/
def tag (fields : List Ty) : Word :=
  (maskFrom 0 fields <<< 7) ||| (Word.ofCount fields.length <<< 1) ||| 1

/-- Whether a word found in place of a header is a header, and not a forwarding address. -/
def isTag (word : Word) : Bool :=
  word &&& 1 != 0

/-- The number of fields that a header announces. -/
def length (tag : Word) : Word :=
  (tag >>> 1) &&& 63

/-- The mask of pointer fields that a header announces. -/
def pointerMask (tag : Word) : Word :=
  tag >>> 7

/-- Whether the mask marks a field as a pointer. -/
def marks (mask : Word) (field : Nat) : Bool :=
  mask &&& (1 <<< Word.ofCount field) != 0

end TupleLang.Header
