import CallbackLoop.Arena

/-!
# Storage of an arena

How an arena lies in memory. A vector of cells has room for the values, a stack
holds the vacant slots, a second vector marks the slots in use, and their number
is kept beside them. Every operation changes these four one after the other, and
it is the marks that say whether a cell may be read.

Here an operation can go wrong: it can reach past the end of a vector, read a cell
that holds no value, write over a value that nobody took out, or take one off a
count of zero. Whatever goes wrong ends it with a `Defect`. To be told that a slot
is missing is not a defect but an answer.
-/

namespace CallbackLoop

/-- The cells of an arena and the records beside them. -/
structure Storage (α : Type) where
  /-- `none` in a cell that holds no value. -/
  cells : Array (Option α)
  /-- The vacant slots, the next one to be used first. -/
  free : List Nat
  used : Array Bool
  count : Nat

namespace Storage

variable {α β : Type}

/-- What can be wrong with a storage. -/
inductive Defect where
  /-- A vector was accessed past its end. -/
  | outOfBounds
  /-- A cell without a value was read. -/
  | emptyCell
  /-- A value was written over. -/
  | lostValue
  /-- One was taken off a count of zero. -/
  | countUnderflow
deriving DecidableEq

/-- The element of a vector at place `i`. -/
def read (xs : Array β) (i : Nat) : Except Defect β :=
  match xs[i]? with
  | some x => .ok x
  | none => .error .outOfBounds

/-- Replaces the element of a vector at place `i`. -/
def write (xs : Array β) (i : Nat) (x : β) : Except Defect (Array β) :=
  if i < xs.size then .ok (xs.setIfInBounds i x) else .error .outOfBounds

/-- Gives a vector `n` elements, cutting it off or filling it up with `x`. -/
def resize (xs : Array β) (n : Nat) (x : β) : Array β :=
  (xs ++ Array.replicate (n - xs.size) x).take n

/-- The value in cell `i`. -/
def value (cells : Array (Option α)) (i : Nat) : Except Defect α := do
  match ← read cells i with
  | some x => return x
  | none => throw .emptyCell

/-- Puts `x` into cell `i`, which must not hold a value. -/
def fill (cells : Array (Option α)) (i : Nat) (x : α) :
    Except Defect (Array (Option α)) := do
  match ← read cells i with
  | some _ => throw .lostValue
  | none => write cells i (some x)

/-- Storage with `n` vacant slots, the lowest to be used first. -/
def ofSize (n : Nat) : Storage α where
  cells := Array.replicate n none
  free := List.range n
  used := Array.replicate n false
  count := 0

/-- Takes the next slot off the stack. If the stack is empty the vectors double
and the first new slot is taken. -/
def takeFree (s : Storage α) : Nat × Storage α :=
  match s.free with
  | i :: free => (i, { s with free })
  | [] =>
      let n := s.cells.size
      let n' := if n = 0 then 1 else 2 * n
      (n, { s with
        cells := s.cells ++ Array.replicate (n' - n) none
        free := List.range' (n + 1) (n' - (n + 1))
        used := resize s.used n' false })

/-- Puts `x` into the next slot to be used. -/
def insert (s : Storage α) (x : α) : Except Defect (Nat × Storage α) := do
  let (i, s) := s.takeFree
  let cells ← fill s.cells i x
  let used ← write s.used i true
  return (i, { s with cells, used, count := s.count + 1 })

/-- Takes the value out of slot `i` and makes it the next slot to be used. -/
def remove (s : Storage α) (i : Nat) :
    Except Defect (Except Arena.Missing (α × Storage α)) := do
  if s.cells.size ≤ i then return .error .outOfRange
  if !(← read s.used i) then return .error .vacant
  let used ← write s.used i false
  if s.count = 0 then throw .countUnderflow
  let x ← value s.cells i
  let cells ← write s.cells i none
  return .ok (x, { cells, free := i :: s.free, used, count := s.count - 1 })

/-- Whether slot `i` is marked as used; slots past the end are not. -/
def contains (s : Storage α) (i : Nat) : Bool :=
  s.used[i]?.getD false

/-- The value in slot `i`, if that slot is marked as used. -/
def get? (s : Storage α) (i : Nat) : Except Defect (Option α) := do
  if s.contains i then return some (← value s.cells i)
  else return none

/-- Shows the value in slot `i`, if that slot is marked as used, and lets `f`
change it in its place. -/
def modify (s : Storage α) (i : Nat) (f : α → α) :
    Except Defect (Option α × Storage α) := do
  if s.contains i then
    let x ← value s.cells i
    let cells ← write s.cells i (some (f x))
    return (some x, { s with cells })
  else return (none, s)

end Storage

end CallbackLoop
