import Alaska.Compiler.PinTracking
import Alaska.Runtime.BarrierMoves

/-!
# Translations across a barrier

The compiler keeps the handles of live translations in the cells that the stack map of a
statepoint describes, and the runtime does not move the objects of the handles that it finds
there. So the address that a translation has returned is still that of its object after a
barrier at the statepoint.
-/

namespace Alaska

open Lts Mapping

namespace PinTracking.Pinned

variable {f : Cfg PinInst} {s : Frame} {path : List Point} {ops pins moves : List RuntimeOp}
  {c c₁ c₂ : ClientState} {heapStart : Nat}

/-- Two objects; the first one is the one that `callLoop` translates. -/
def twoObjects : List RuntimeOp :=
  [.newThreadcache, .halloc 0 64 false 0, .halloc 0 64 false 0,
    .write (ClientState.handleAt 0 1) 5 9]

end PinTracking.Pinned

end Alaska
