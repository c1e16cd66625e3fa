import CallbackLoop.Loop.Build
import CallbackLoop.Loop.Request

/-!
# Scripts

Handlers of a session are scripted: each run of a handler performs a list of
commands. A command is a request to the loop, a question about it, or something
that the world does. Timers and signal registrations go by names.
-/

namespace CallbackLoop

mutual

/-- What a handler does: the commands of each of its runs. After the last of
them it does nothing, or the last again. -/
inductive Script where
  | mk (tag : String) (runs : List (List Command)) (again : Bool)

/-- One command, given to a loop by a handler or by code outside of dispatch. -/
inductive Command where
  | setFd (fd : Int) (flags : Flags) (timeout : FdTimeout) (script : Script)
  | clearFd (fd : Int)
  | setTimeoutHandler (fd : Int) (script : Script)
  | interest (fd : Int)
  | setTimer (delay : Nat) (script : Script) (name : String)
  | cancelTimer (name : String)
  | setSignal (signo : Int) (script : Script) (name : String)
  | unsetSignal (signo : Int) (name : String)
  | setBreak
  | setCallback (script : Script)
  | clearCallback
  | dispatch
  /-- How many timers are pending and how many descriptors are registered. -/
  | counts
  /-- Which backend the loop has and whether it is primary. -/
  | about
  /-- How many registrations a hub counts for a signal. -/
  | refcount (hub : Nat) (signo : Int)
  /-- What the clock shows. -/
  | now
  /-- The world moves the clock. -/
  | advance (duration : Nat)
  /-- The world raises a signal. -/
  | raise (signo : Int)
  /-- The world closes a descriptor. -/
  | close (fd : Int)
  /-- The world opens a descriptor again. -/
  | reopen (fd : Int)
  /-- A command that no loop knows. -/
  | unknown

end

/-- A handler without a name that does nothing. -/
instance : Inhabited Script := ⟨.mk "" [] false⟩

instance : Inhabited Command := ⟨.unknown⟩

namespace Script

/-- The name of the handler in a trace. -/
def tag : Script → String
  | mk tag _ _ => tag

/-- The commands of run number `k`, counted from zero. -/
def commandsAt (k : Nat) : Script → List Command
  | mk _ runs again => runs[k]?.getD (if again then runs.getLast?.getD [] else [])

end Script

/-- A scripted handler. Each registration makes one of its own, with a number by
which its runs are counted. -/
structure Handler where
  number : Nat
  script : Script

/-- What a command leads to. -/
inductive Outcome where
  | reply (reply : Reply)
  /-- No timer or registration goes by that name. -/
  | unbound
  | counts (timers fds : Nat)
  | about (backend : BackendKind) (primary : Bool)
  | number (n : Nat)
  | unknown

/-- A line of the trace of a session. -/
inductive Line where
  | call (record : CallRecord)
  /-- A handler starts to run; it is given by its tag. -/
  | run (invocation : Invocation String)
  /-- A handler's command led to this. -/
  | outcome (outcome : Outcome)
  /-- The handler runs are used up, so this one only breaks the loop. -/
  | limit

/-- The same invocation of another handler. -/
def Invocation.map {G H : Type} (f : G → H) : Invocation G → Invocation H
  | callback h => callback (f h)
  | timer h => timer (f h)
  | ready h fd direction => ready (f h) fd direction
  | timeout h fd => timeout (f h) fd
  | signal h signo => signal (f h) signo

/-- The names that a session has given, and its account of handlers. -/
structure Books where
  timers : Std.TreeMap String Handle := ∅
  keys : Std.TreeMap String Nat := ∅
  /-- Number of handlers made. -/
  handlers : Nat := 0
  /-- How often each handler has run. -/
  runs : Std.TreeMap Nat Nat := ∅
  /-- Handler runs that may still perform commands. -/
  runsLeft : Nat := 120

namespace Books

/-- Makes a handler of a script. -/
def newHandler (b : Books) (script : Script) : Handler × Books :=
  (⟨b.handlers, script⟩, { b with handlers := b.handlers + 1 })

/-- Has the loop perform a request. -/
def request (b : Books) (m : Machine Handler) (request : Request Handler) :
    Except Crash (Outcome × Books × Machine Handler) := do
  let (reply, m) ← m.perform request
  return (.reply reply, b, m)

/-- Enters what a reply names under a name. -/
def enter (b : Books) (name : String) : Reply → Books
  | .timer id => { b with timers := b.timers.insert name id }
  | .key key => { b with keys := b.keys.insert name key }
  | _ => b

/-- Something that the world does to the host. -/
def occur (b : Books) (m : Machine Handler) (host : Host) :
    Except Crash (Outcome × Books × Machine Handler) :=
  .ok (.reply .done, b, { m with host })

/-- An answer that changes nothing. -/
def answer (b : Books) (m : Machine Handler) (outcome : Outcome) :
    Except Crash (Outcome × Books × Machine Handler) :=
  .ok (outcome, b, m)

/-- Performs one command. -/
def perform (b : Books) (m : Machine Handler) :
    Command → Except Crash (Outcome × Books × Machine Handler)
  | .setFd fd flags timeout script =>
      let (handler, b) := b.newHandler script
      b.request m (.setFd fd flags timeout handler)
  | .clearFd fd => b.request m (.clearFd fd)
  | .setTimeoutHandler fd script =>
      let (handler, b) := b.newHandler script
      b.request m (.setTimeoutHandler fd handler)
  | .interest fd => b.request m (.interest fd)
  | .setTimer delay script name => do
      let (handler, b) := b.newHandler script
      let (reply, m) ← m.perform (.setTimer delay handler)
      return (.reply .done, b.enter name reply, m)
  | .cancelTimer name =>
      match b.timers[name]? with
      | some id => b.request m (.cancelTimer id)
      | none => b.answer m .unbound
  | .setSignal signo script name => do
      let (handler, b) := b.newHandler script
      let (reply, m) ← m.perform (.setSignal signo handler)
      let outcome : Outcome :=
        match reply with
        | .key _ => .reply .done
        | reply => .reply reply
      return (outcome, b.enter name reply, m)
  | .unsetSignal signo name =>
      match b.keys[name]? with
      | some key => b.request m (.unsetSignal signo key)
      | none => b.answer m .unbound
  | .setBreak => b.request m .setBreak
  | .setCallback script =>
      let (handler, b) := b.newHandler script
      b.request m (.setCallback handler)
  | .clearCallback => b.request m .clearCallback
  | .dispatch => b.request m .dispatch
  | .counts => b.answer m (.counts m.loop.timerCount m.loop.fdCount)
  | .about => b.answer m (.about m.loop.backend.kind m.loop.isPrimary)
  | .refcount hub signo => b.answer m (.number ((m.host.hub hub).refcount signo))
  | .now => b.answer m (.number m.host.kernel.clock)
  | .advance duration =>
      b.occur m { m.host with kernel := m.host.kernel.advance duration }
  | .raise signo => b.occur m (m.host.raise signo)
  | .close fd => b.occur m { m.host with kernel := m.host.kernel.close fd }
  | .reopen fd => b.occur m { m.host with kernel := m.host.kernel.reopen fd }
  | .unknown => b.answer m .unknown

end Books

end CallbackLoop
