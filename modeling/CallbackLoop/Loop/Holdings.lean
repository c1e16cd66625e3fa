import CallbackLoop.Loop.Basic

/-!
# What a loop holds

A loop that is dropped gives back what it holds of its host, one thing after the other.
The order matters. A place in a hub goes before the ends of its pipe are closed, so that
no signal is ever written to a descriptor that someone else has opened since.
-/

namespace CallbackLoop

/-- A thing that a loop holds of its host. -/
inductive Holding where
  /-- A registration for a signal. -/
  | signal (hub : Nat) (signo : Int)
  | backend (b : Backend)
  /-- A place in a hub. -/
  | place (hub place : Nat)
  | descriptor (fd : Int)

namespace Host

/-- Takes one thing back. -/
def giveBack (h : Host) : Holding → Except Crash Host
  | .signal hub signo => h.release hub signo
  | .backend b => .ok { h with kernel := b.release h.kernel }
  | .place hub place => h.leave hub place
  | .descriptor fd => .ok { h with kernel := h.kernel.close fd }

/-- Takes things back one after the other, and keeps the hosts that they were taken
from. -/
def giveBackAll (h : Host) : List Holding → Except Crash (List Host × Host)
  | [] => return ([], h)
  | a :: rest => do
      let h₁ ← h.giveBack a
      let (passed, h') ← h₁.giveBackAll rest
      return (h :: passed, h')

end Host

/-- What a pipe holds, in the order in which it is given back. -/
def SelfPipe.holdings (pipe : SelfPipe) : List Holding :=
  [.place pipe.hub pipe.place, .descriptor pipe.reader, .descriptor pipe.writer]

namespace Loop

variable {H : Type}

/-- What a loop holds besides signals: its backend and its pipe. -/
def resources (l : Loop H) : List Holding :=
  .backend l.backend :: (l.pipe.map SelfPipe.holdings).getD []

/-- What a loop holds, in the order in which it is given back: every signal first. -/
def holdings (l : Loop H) : List Holding :=
  l.signals.signos.map (.signal l.hub) ++ l.resources

/-- Gives back a loop's own resources. -/
def discard (l : Loop H) (h : Host) : Except Crash (List Host × Host) :=
  h.giveBackAll l.resources

/-- Drops a loop. -/
def drop (l : Loop H) (h : Host) : Except Crash (List Host × Host) :=
  h.giveBackAll l.holdings

end Loop

end CallbackLoop
