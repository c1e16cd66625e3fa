import CallbackLoop.Direction

/-!
# Registration flags

A registration is asked for with a set of flags: directions, and modifiers that
say how to apply them. A set is a word of 32 bits, eight of which have a name.
-/

namespace CallbackLoop

/-- A set of flags, one bit each. -/
structure Flags where
  bits : BitVec 32
deriving DecidableEq

namespace Flags

/-- Readable. -/
def recv : Flags := ⟨1⟩
/-- Writable. -/
def send : Flags := ⟨2⟩
/-- Error condition. -/
def error : Flags := ⟨4⟩
/-- Disarm the named directions after they fire once. -/
def oneshot : Flags := ⟨8⟩
/-- Put the descriptor into nonblocking mode. -/
def nonblock : Flags := ⟨16⟩
/-- Put the descriptor into blocking mode. -/
def block : Flags := ⟨32⟩
/-- Merge the named directions into the existing registration. -/
def append : Flags := ⟨64⟩
/-- Remove the registration; not to be combined with anything. -/
def clear : Flags := ⟨128⟩

/-- The named flags in the order in which they are printed. -/
def named : List (String × Flags) :=
  [("RECV", recv), ("SEND", send), ("ERROR", error), ("ONESHOT", oneshot),
    ("NONBLOCK", nonblock), ("BLOCK", block), ("APPEND", append), ("CLR", clear)]

instance : EmptyCollection Flags := ⟨⟨0⟩⟩

instance : Union Flags := ⟨fun a b => ⟨a.bits ||| b.bits⟩⟩

instance : Inter Flags := ⟨fun a b => ⟨a.bits &&& b.bits⟩⟩

instance : SDiff Flags := ⟨fun a b => ⟨a.bits &&& ~~~b.bits⟩⟩

instance : Complement Flags := ⟨fun a => ⟨~~~a.bits⟩⟩

/-- Whether no bit is set. -/
def isEmpty (a : Flags) : Bool :=
  a == ∅

/-- Whether every bit of `b` is set in `a`. -/
def contains (a b : Flags) : Bool :=
  a ∩ b == b

/-- Whether `a` and `b` have a bit in common. -/
def intersects (a b : Flags) : Bool :=
  !(a ∩ b).isEmpty

/-- The directions that the flags name. -/
def directions (a : Flags) : Directions :=
  ⟨a.contains recv, a.contains send, a.contains error⟩

/-- The direction that makes up the whole set. -/
def direction? (a : Flags) : Option Direction :=
  if a = recv then some .recv
  else if a = send then some .send
  else if a = error then some .error
  else none

/-- The flag that names a direction. -/
def ofDirection : Direction → Flags
  | .recv => recv
  | .send => send
  | .error => error

/-- The flags that name the members of a set of directions. -/
def ofDirections (s : Directions) : Flags :=
  (s.toList.map ofDirection).foldl (· ∪ ·) ∅

/-- The names of the set bits joined by bars, or `(empty)`. -/
def text (a : Flags) : String :=
  if a.isEmpty then "(empty)"
  else " | ".intercalate ((named.filter fun (_, flag) => a.contains flag).map Prod.fst)

end Flags

/-- The text of a set of directions. -/
def Directions.text (s : Directions) : String :=
  (Flags.ofDirections s).text

/-- The text of one direction. -/
def Direction.text (d : Direction) : String :=
  (Flags.ofDirection d).text

end CallbackLoop
