import CallbackLoop.Wait

/-!
# The epoll backend

One entry in the kernel's table carries the interest in all directions of a
descriptor. If any of them is oneshot the kernel disarms the whole entry after
a report, and the loop arms what is left anew.
-/

namespace CallbackLoop

/-- An epoll instance, and the number of events taken from one wait. -/
structure EpollInstance where
  number : Nat
  capacity : Nat

namespace EpollInstance

/-- Creates an instance that takes at least one event per wait. -/
def create (k : Kernel) (capacity : Nat) : Except Errno EpollInstance × Kernel :=
  match k.epollCreate with
  | (.error cause, k) => (.error cause, k)
  | (.ok number, k) => (.ok ⟨number, max capacity 1⟩, k)

/-- Starts to watch a descriptor. -/
def register (e : EpollInstance) (k : Kernel) (fd : Int) (interest : Interest) :
    Except Errno Unit × Kernel :=
  k.epollControl e.number fd (.add (.ofInterest interest))

/-- Changes the interest in a descriptor. -/
def modify (e : EpollInstance) (k : Kernel) (fd : Int) (interest : Interest) :
    Except Errno Unit × Kernel :=
  k.epollControl e.number fd (.modify (.ofInterest interest))

/-- Stops watching a descriptor. That the kernel does not know it any more is no
failure. -/
def unregister (e : EpollInstance) (k : Kernel) (fd : Int) : Except Errno Unit × Kernel :=
  match k.epollControl e.number fd .delete with
  | (.error cause, k) => (if cause.isGone then .ok () else .error cause, k)
  | result => result

/-- Waits for events. An interruption counts as no events. -/
def wait (e : EpollInstance) (h : Host) (timeout : Option Nat) :
    Except Errno (List Event) × Host :=
  match h.epollWait e.number (Time.timeoutMillis timeout) e.capacity with
  | (.ok reports, h) =>
      (.ok (reports.map fun (fd, conditions) => ⟨fd, conditions.directions⟩), h)
  | (.error cause, h) =>
      (if cause = .interrupted then .ok [] else .error cause, h)

end EpollInstance

end CallbackLoop
