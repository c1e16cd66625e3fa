import CallbackLoop.Backend.Epoll
import CallbackLoop.Backend.Select

/-!
# Readiness backends

One interface over epoll and select.
-/

namespace CallbackLoop

/-- The backend of a loop. -/
inductive Backend where
  | epoll (e : EpollInstance)
  | select (t : SelectTable)

namespace Backend

/-- Makes a backend of the given kind with room for `capacity` events. -/
def create (k : Kernel) (kind : BackendKind) (capacity : Nat) :
    Except HostError Backend × Kernel :=
  match kind.resolve with
  | .epoll =>
      match EpollInstance.create k capacity with
      | (.ok e, k) => (.ok (.epoll e), k)
      | (.error cause, k) => (.error (.call cause), k)
  | .select => (.ok (.select {}), k)
  | kind => (.error (.unavailable kind), k)

/-- Gives back what the backend holds in the kernel. -/
def release (b : Backend) (k : Kernel) : Kernel :=
  match b with
  | epoll e => k.epollClose e.number
  | select _ => k

/-- The kind of the backend. -/
def kind : Backend → BackendKind
  | epoll _ => .epoll
  | select _ => .select

/-- The bound that watched descriptors have to stay below, if there is one. -/
def fdLimit? : Backend → Option Nat
  | epoll _ => none
  | select _ => some SelectSets.limit

/-- The outcome of a change that concerns only the kernel. -/
def unchanged {α : Type} (b : Backend) :
    Except Errno α × Kernel → Except Errno α × Backend × Kernel
  | (result, k) => (result, b, k)

/-- Starts to watch a descriptor. -/
def register (b : Backend) (k : Kernel) (fd : Int) (interest : Interest) :
    Except Errno Unit × Backend × Kernel :=
  match b with
  | epoll e => b.unchanged (e.register k fd interest)
  | select t =>
      match t.register fd interest with
      | .ok t => (.ok (), select t, k)
      | .error cause => (.error cause, b, k)

/-- Changes the interest in a watched descriptor. -/
def modify (b : Backend) (k : Kernel) (fd : Int) (interest : Interest) :
    Except Errno Unit × Backend × Kernel :=
  match b with
  | epoll e => b.unchanged (e.modify k fd interest)
  | select t =>
      match t.modify fd interest with
      | .ok t => (.ok (), select t, k)
      | .error cause => (.error cause, b, k)

/-- Stops watching a descriptor. -/
def unregister (b : Backend) (k : Kernel) (fd : Int) :
    Except Errno Unit × Backend × Kernel :=
  match b with
  | epoll e => b.unchanged (e.unregister k fd)
  | select t => (.ok (), select (t.unregister fd), k)

/-- Waits for events, at most for `timeout` if there is one. -/
def wait (b : Backend) (h : Host) (timeout : Option Nat) :
    Except Errno (List Event) × Host :=
  match b with
  | epoll e => e.wait h timeout
  | select t => t.wait h timeout

end Backend

end CallbackLoop
