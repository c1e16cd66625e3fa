import CallbackLoop.Errno
import CallbackLoop.Kernel.Conditions

/-!
# The record of host calls

The host keeps a record of the calls made to it that change something, and of
the signals that were raised.
-/

namespace CallbackLoop

/-- What happens when a signal is raised. -/
inductive Disposition where
  /-- The hubs' handler runs. -/
  | handler
  | default
deriving DecidableEq

/-- A change of an epoll table. -/
inductive EpollChange where
  | add (mask : Conditions)
  | modify (mask : Conditions)
  | delete
deriving DecidableEq

/-- A call to the host, or a signal. -/
inductive Call where
  | setStatusFlags (fd : Int) (flags : Nat)
  | setCloseOnExec (fd : Int)
  | write (fd : Int) (bytes : List UInt8)
  | setDisposition (signo : Int) (disposition : Disposition)
  | signal (signo : Int) (disposition : Disposition)
  | epollControl (fd : Int) (change : EpollChange)
  | epollWait (now : Nat) (timeoutMillis : Int) (capacity : Nat)
  | select (now : Nat) (timeoutMicros : Option Nat) (width : Int)
      (read write except : List Int)
deriving DecidableEq

/-- A call, and the error number if it failed. -/
structure CallRecord where
  call : Call
  failure : Option Errno := none
deriving DecidableEq

end CallbackLoop
