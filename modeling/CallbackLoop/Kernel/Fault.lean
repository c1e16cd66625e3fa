import CallbackLoop.Errno

/-!
# Faults

A fault makes certain host calls fail: the first few that it matches are let
through, the next few fail with its error number.
-/

namespace CallbackLoop

/-- The host calls that can be made to fail. -/
inductive CallName where
  | getStatusFlags
  | setStatusFlags
  | getDescriptorFlags
  | setDescriptorFlags
  | pipe
  | read
  | write
  | epollCreate
  | epollControl
  | sigaction
deriving DecidableEq

/-- Variants of a host call. -/
inductive CallVariant where
  | add
  | modify
  | delete
  | handler
  | default
deriving DecidableEq

/-- A call that is about to be made: its name, its descriptor or signal number,
and its variant. -/
structure CallSite where
  name : CallName
  subject : Option Int := none
  variant : Option CallVariant := none
deriving DecidableEq

/-- A rule that makes calls fail. A missing subject or variant fits any call. -/
structure Fault where
  name : CallName
  subject : Option Int := none
  variant : Option CallVariant := none
  errno : Errno
  /-- Matching calls still to be let through. -/
  skip : Nat := 0
  /-- Failures still to come after that. -/
  times : Nat := 1
deriving DecidableEq

namespace Fault

/-- Whether the fault applies to a call. -/
def fits (f : Fault) (site : CallSite) : Bool :=
  f.name == site.name &&
    (f.subject.isNone || f.subject == site.subject) &&
    (f.variant.isNone || f.variant == site.variant) &&
    f.times != 0

/-- Looks for the first fitting fault that lets nothing through any more, and
uses up one of its failures. Fitting faults before it let one call less
through. -/
def strike (site : CallSite) : List Fault → Option Errno × List Fault
  | [] => (none, [])
  | f :: fs =>
      if f.fits site then
        if f.skip = 0 then (some f.errno, { f with times := f.times - 1 } :: fs)
        else
          let (hit, fs) := strike site fs
          (hit, { f with skip := f.skip - 1 } :: fs)
      else
        let (hit, fs) := strike site fs
        (hit, f :: fs)

end Fault

end CallbackLoop
