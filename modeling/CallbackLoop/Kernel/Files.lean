import CallbackLoop.Kernel.Basic

/-!
# Descriptor modes and pipes
-/

namespace CallbackLoop

namespace Kernel

/-- The status flag of nonblocking mode. -/
def nonblockFlag : Nat := 2048

/-- Status flags with nonblocking mode switched on or off. -/
def withNonblocking (flags : Nat) (nonblocking : Bool) : Nat :=
  if nonblocking then flags ||| nonblockFlag
  else if flags.testBit 11 then flags - nonblockFlag
  else flags

/-- Reads the status flags of a descriptor; one that was never changed is open
for reading and writing. -/
def getStatusFlags (k : Kernel) (fd : Int) : Except Errno Nat × Kernel :=
  match k.obstacle .getStatusFlags fd with
  | (some cause, k) => k.fail cause
  | (none, k) => (.ok (k.statusFlags.getD fd 2), k)

/-- Changes the status flags of a descriptor. -/
def setStatusFlags (k : Kernel) (fd : Int) (flags : Nat) : Except Errno Unit × Kernel :=
  match k.obstacle .setStatusFlags fd with
  | (some cause, k) => (k.note (.setStatusFlags fd flags) cause).fail cause
  | (none, k) =>
      let k := k.note (.setStatusFlags fd flags)
      (.ok (), { k with statusFlags := k.statusFlags.insert fd flags })

/-- Switches nonblocking mode on or off; a descriptor in the right mode already
is not touched. -/
def setNonblocking (k : Kernel) (fd : Int) (nonblocking : Bool) :
    Except Errno Unit × Kernel :=
  match k.getStatusFlags fd with
  | (.error cause, k) => (.error cause, k)
  | (.ok flags, k) =>
      let wanted := withNonblocking flags nonblocking
      if wanted = flags then (.ok (), k) else k.setStatusFlags fd wanted

/-- Marks a descriptor to be closed when another program is executed. -/
def setCloseOnExec (k : Kernel) (fd : Int) : Except Errno Unit × Kernel :=
  match k.obstacle .getDescriptorFlags fd with
  | (some cause, k) => k.fail cause
  | (none, k) =>
      match k.obstacle .setDescriptorFlags fd with
      | (some cause, k) => (k.note (.setCloseOnExec fd) cause).fail cause
      | (none, k) => (.ok (), k.note (.setCloseOnExec fd))

/-- The read end of pipe number `n`. -/
def readEnd (n : Nat) : Int :=
  900 + 2 * n

/-- The write end of pipe number `n`. -/
def writeEnd (n : Nat) : Int :=
  901 + 2 * n

/-- The pipe that has the given read end. -/
def pipeReadAt? (k : Kernel) (fd : Int) : Option Nat :=
  (List.range k.pipes.size).find? fun n => readEnd n == fd

/-- The pipe that has the given write end. -/
def pipeWrittenAt? (k : Kernel) (fd : Int) : Option Nat :=
  (List.range k.pipes.size).find? fun n => writeEnd n == fd

/-- The bytes in pipe number `n`. -/
def pipeContents (k : Kernel) (n : Nat) : List UInt8 :=
  k.pipes[n]?.getD []

/-- Creates a pipe in blocking mode. -/
def createPipe (k : Kernel) : Except Errno (Int × Int) × Kernel :=
  match k.strike { name := .pipe } with
  | (some cause, k) => k.fail cause
  | (none, k) =>
      let n := k.pipes.size
      (.ok (readEnd n, writeEnd n),
        { k with
          pipes := k.pipes.push []
          statusFlags := (k.statusFlags.insert (readEnd n) 0).insert (writeEnd n) 1 })

/-- Puts both ends of a new pipe into nonblocking mode and marks them to be
closed on execution. -/
def preparePipe (k : Kernel) : List Int → Except Errno Unit × Kernel
  | [] => (.ok (), k)
  | fd :: fds =>
      match k.setNonblocking fd true with
      | (.error cause, k) => (.error cause, k)
      | (.ok (), k) =>
          match k.setCloseOnExec fd with
          | (.error cause, k) => (.error cause, k)
          | (.ok (), k) => k.preparePipe fds

/-- Opens a pipe whose ends do not block; on failure neither end stays open. -/
def openPipe (k : Kernel) : Except Errno (Int × Int) × Kernel :=
  match k.createPipe with
  | (.error cause, k) => (.error cause, k)
  | (.ok (reader, writer), k) =>
      match k.preparePipe [reader, writer] with
      | (.error cause, k) => (.error cause, (k.close reader).close writer)
      | (.ok (), k) => (.ok (reader, writer), k)

/-- Reads at most `count` bytes. An empty pipe gives none once its write end is
closed, and would block before. -/
def read (k : Kernel) (fd : Int) (count : Nat) : Except Errno (List UInt8) × Kernel :=
  match k.obstacle .read fd with
  | (some cause, k) => k.fail cause
  | (none, k) =>
      match k.pipeReadAt? fd with
      | none => k.fail .badDescriptor
      | some n =>
          match k.pipeContents n with
          | [] =>
              if k.closed.contains (writeEnd n) then (.ok [], k) else k.fail .wouldBlock
          | contents =>
              (.ok (contents.take count),
                { k with pipes := k.pipes.setIfInBounds n (contents.drop count) })

/-- Writes all the bytes or none. -/
def write (k : Kernel) (fd : Int) (bytes : List UInt8) : Except Errno Unit × Kernel :=
  match k.obstacle .write fd with
  | (some cause, k) => (k.note (.write fd bytes) cause).fail cause
  | (none, k) =>
      match k.pipeWrittenAt? fd with
      | none => (k.note (.write fd bytes) (some .badDescriptor)).fail .badDescriptor
      | some n =>
          let contents := k.pipeContents n ++ bytes
          if contents.length ≤ k.pipeCapacity then
            let k := k.note (.write fd bytes)
            (.ok (), { k with pipes := k.pipes.setIfInBounds n contents })
          else
            (k.note (.write fd bytes) (some .wouldBlock)).fail .wouldBlock

/-- Descriptors and conditions of the pipes that can be read, except those whose
read end is among `named`. -/
def readablePipes (k : Kernel) (named : List Int) : List (Int × Conditions) :=
  (List.range k.pipes.size).filterMap fun n =>
    if (k.pipeContents n).isEmpty || k.closed.contains (readEnd n) ||
        named.contains (readEnd n) then
      none
    else some (readEnd n, { input := true })

end Kernel

end CallbackLoop
