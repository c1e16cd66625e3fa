import CallbackLoop.Session.Basic

/-!
# Running a session

A session comes to an end. Its waits are limited, and so are the handler runs
that perform commands: with a session of size `n` there are at most `n ^ 2 + n`
commands, hence at most that many timers, signals raised and handlers
registered, and a signal runs each handler at most once for each of `n` loops.
The sixth power of the size leaves room for the dispatcher's own moves.
-/

namespace CallbackLoop

mutual

/-- Number of commands in a script, those of nested scripts included. -/
def Script.weight : Script → Nat
  | .mk _ runs _ => weightOfRuns runs

/-- Number of commands in the runs of a script. -/
def weightOfRuns : List (List Command) → Nat
  | [] => 1
  | run :: runs => weightOfRun run + weightOfRuns runs

/-- Number of commands in one run. -/
def weightOfRun : List Command → Nat
  | [] => 1
  | command :: commands => command.weight + weightOfRun commands

/-- Number of commands in a command and its scripts. -/
def Command.weight : Command → Nat
  | .setFd _ _ _ script => script.weight + 1
  | .setTimeoutHandler _ script => script.weight + 1
  | .setTimer _ script _ => script.weight + 1
  | .setSignal _ script _ => script.weight + 1
  | .setCallback script => script.weight + 1
  | _ => 1

end

/-- Number of loops built and commands given by an order. -/
def Order.weight : Order → Nat
  | .build _ count => count + 1
  | .drop _ => 1
  | .command _ c => c.weight

/-- Number of things that happen in a wait. -/
def WaitEntry.weight (entry : WaitEntry) : Nat :=
  entry.events.length + entry.raised.length + 1

namespace Session

/-- The size of what a session is given. -/
def size (s : Session) : Nat :=
  s.orders.foldl (fun n order => n + order.weight) 0 +
    s.host.kernel.script.foldl (fun n entry => n + entry.weight) 0 +
    s.host.kernel.waitsLeft + s.books.runsLeft

/-- At most `n` steps. -/
def runFor : (n : Nat) → Session → Session
  | 0, s => s
  | n + 1, s => if s.isOver then s else runFor n s.step

/-- Runs a session to its end. -/
def run (s : Session) : Session :=
  runFor (Nat.pow (s.size + 100) 6) s

/-- The answers to the orders carried out, each with the trace of what happened
meanwhile. -/
def transcript (s : Session) : List (Answer × List Line) :=
  s.run.answers.reverse

end Session

end CallbackLoop
