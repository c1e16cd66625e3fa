import CallbackLoop.Signal.Hub

/-!
# Notification pipes

A loop that receives signals owns a pipe whose write end has joined a hub. The
bytes that arrive in it are the numbers of the signals to deliver.
-/

namespace CallbackLoop

/-- A pipe joined to a place of a hub. -/
structure SelfPipe where
  hub : Nat
  place : Nat
  reader : Int
  writer : Int

namespace SelfPipe

/-- Opens a pipe and joins a hub with it. If there is no place, the pipe is
closed again. -/
def acquire? (h : Host) (hub : Nat) : Except Refusal SelfPipe × Host :=
  match h.kernel.openPipe with
  | (.error cause, kernel) => (.error (.host (.call cause)), { h with kernel })
  | (.ok (reader, writer), kernel) =>
      let h := { h with kernel }
      match h.join hub writer with
      | .ok (place, h) => (.ok ⟨hub, place, reader, writer⟩, h)
      | .error refusal =>
          (.error refusal, { h with kernel := (kernel.close reader).close writer })

end SelfPipe

namespace Kernel

/-- Most bytes taken by one read of a notification pipe. -/
def drainChunk : Nat := 64

/-- Reads at most `n` times: until the pipe is empty or a read fails for another
reason than an interruption. -/
def drainFrom (fd : Int) : (n : Nat) → Kernel → List UInt8 × Kernel
  | 0, k => ([], k)
  | n + 1, k =>
      match k.read fd drainChunk with
      | (.ok [], k) => ([], k)
      | (.ok bytes, k) =>
          let (later, k) := drainFrom fd n k
          (bytes ++ later, k)
      | (.error cause, k) =>
          if cause = .interrupted then drainFrom fd n k else ([], k)

/-- A bound on the reads that draining can take: each takes a byte at least or
uses up a fault, except the last. -/
def drainBound (k : Kernel) : Nat :=
  k.pipes.toList.foldl (fun n bytes => n + bytes.length) 0 +
    k.faults.foldl (fun n fault => n + fault.times) 0 + 1

/-- Takes the signal numbers that wait in a pipe, in the order of their
arrival. -/
def drain (k : Kernel) (fd : Int) : List Int × Kernel :=
  let (bytes, k) := drainFrom fd k.drainBound k
  (bytes.map fun byte => (byte.toNat : Int), k)

end Kernel

end CallbackLoop
