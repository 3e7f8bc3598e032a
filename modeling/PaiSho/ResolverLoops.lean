import PaiSho.Library.Traces
import PaiSho.WireLabels

/-!
# The receive loops of the two resolvers

`resolver::run` and the task that `netstack::spawn` starts: read a datagram,
reply to its sender, read the next. A datagram longer than the buffer loses what
does not fit, and the buffers are of different size: 512 bytes and 1500. A name
that is looked up takes two labels, which is less than either.
-/

set_option autoImplicit false

namespace PaiSho.ResolverLoops
open Library.Traces Library.LengthPrefixed
open SurfaceManager (Ipv4)
open Resolver Questions Answers WireLabels

section
variable {b : List UInt8}

end

/-- What a loop meets: the names it is asked for change, a datagram comes, and a
receive may fail. -/
inductive Input (A : Type) where
  | names (table : String → Option Ipv4)
  | datagram (bytes : List UInt8) (sender : A)
  | failed

structure Loop where
  table : String → Option Ipv4 := fun _ => none
  running : Bool := true

section
variable {A : Type}

/-- A turn of a loop whose buffer has `size` bytes. A failed receive ends the loop
of the stack, which `quits`, and not the other. -/
def turn (size : ℕ) (quits : Bool) (l : Loop) : Input A → Loop × Option (List UInt8 × A)
  | .names table => ({ l with table := table }, none)
  | .datagram bytes sender =>
    (l, if l.running then (reply (bytes.take size) l.table).map (fun r => (r, sender)) else none)
  | .failed => (if quits then { l with running := false } else l, none)

def sent (size : ℕ) (quits : Bool) (l : Loop) (inputs : List (Input A)) :
    List (Option (List UInt8 × A)) :=
  (trace (turn size quits) l inputs).map Event.output

end
end PaiSho.ResolverLoops
