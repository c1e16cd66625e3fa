import CallbackLoop.Loop.Dispatch
import CallbackLoop.Session.Script

/-!
# Sessions

A session builds loops, gives them commands and drops them, on one host. While
a loop is dispatched the session runs its scripted handlers. Everything that a
session does is made of small steps, so that every moment of a run is a state.
-/

namespace CallbackLoop

/-- What a session is told to do. -/
inductive Order where
  /-- Build loops with these options, as many as `count`. -/
  | build (options : LoopOptions) (count : Nat)
  | drop (loop : Nat)
  | command (loop : Nat) (command : Command)

/-- The answer to an order. -/
inductive Answer where
  /-- The number of the last loop, or why it was not built. -/
  | built (last : Option (Except Refusal Nat))
  | dropped
  /-- There is no such loop. -/
  | noLoop
  /-- What the command led to, and how many timers are pending and descriptors
  registered afterwards. -/
  | performed (outcome : Outcome) (timers fds : Nat)
  /-- The program ended. -/
  | panicked (panic : Panic)

/-- What a session is in the middle of. -/
inductive Activity where
  | idle
  /-- A loop is dispatched. While a handler runs, `left` holds the commands it
  has still to perform; before that it is absent. -/
  | dispatching (loop : Nat) (control : Control Handler) (left : Option (List Command))
  /-- The program has ended. -/
  | halted

/-- The state of a session. -/
structure Session where
  host : Host
  /-- The loops by number; a dropped loop leaves a gap. -/
  loops : Array (Option (Loop Handler)) := #[]
  books : Books := {}
  activity : Activity := .idle
  /-- Orders still to be carried out. -/
  orders : List Order
  /-- What happened since the last answer, the last line first. -/
  trace : List Line := []
  /-- The answers so far with their traces, the last one first. -/
  answers : List (Answer × List Line) := []

namespace Session

/-- The loop with the given number. -/
def loop? (s : Session) (number : Nat) : Option (Loop Handler) :=
  s.loops[number]?.join

/-- Replaces the host, whose recorded calls go into the trace. -/
def takeHost (s : Session) (host : Host) : Session :=
  let (calls, kernel) := host.kernel.takeRecord
  { s with
    host := { host with kernel }
    trace := (calls.map .call).reverse ++ s.trace }

/-- Adds a line to the trace. -/
def write (s : Session) (line : Line) : Session :=
  { s with trace := line :: s.trace }

/-- Answers the order that is being carried out. -/
def reply (s : Session) (answer : Answer) : Session :=
  { s with
    activity := .idle
    trace := []
    answers := (answer, s.trace.reverse) :: s.answers }

/-- Ends the program. -/
def halt (s : Session) (crash : Crash) : Session :=
  { (s.takeHost crash.host).reply (.panicked crash.panic) with activity := .halted }

/-- Stores a loop and the host after it was in action. -/
def store (s : Session) (number : Nat) (m : Machine Handler) : Session :=
  { s.takeHost m.host with loops := s.loops.setIfInBounds number (some m.loop) }

/-- Goes on with a loop: answers if it is idle, and else dispatches it. -/
def proceed (s : Session) (number : Nat) (m : Machine Handler) (outcome : Outcome)
    (left : Option (List Command)) : Session :=
  let s := s.store number m
  match m.control with
  | .idle => s.reply (.performed outcome m.loop.timerCount m.loop.fdCount)
  | control => { s with activity := .dispatching number control left }

/-- Builds loops until `count` attempts were made. -/
def build (options : LoopOptions) :
    (count : Nat) → Option (Except Refusal Nat) → Session → Session
  | 0, last, s => s.reply (.built last)
  | count + 1, _, s =>
      match options.build Handler s.host with
      | .error crash => s.halt crash
      | .ok (.error refusal, host) =>
          build options count (some (.error refusal)) (s.takeHost host)
      | .ok (.ok loop, host) =>
          let s := s.takeHost host
          build options count (some (.ok s.loops.size))
            { s with loops := s.loops.push (some loop) }

/-- Carries out an order. Dispatch is only begun. -/
def execute (s : Session) : Order → Session
  | .build options count => build options count none s
  | .drop number =>
      match s.loop? number with
      | none => s.reply .noLoop
      | some loop =>
          match loop.drop s.host with
          | .error crash => s.halt crash
          | .ok (_, host) =>
              { s.takeHost host with
                loops := s.loops.setIfInBounds number none }.reply .dropped
  | .command number command =>
      match s.loop? number with
      | none => s.reply .noLoop
      | some loop =>
          match s.books.perform { host := s.host, loop } command with
          | .error crash => s.halt crash
          | .ok (outcome, books, m) => { s with books }.proceed number m outcome none

/-- Starts a handler run. Once the runs are used up a handler only breaks the
loop. -/
def beginRun (s : Session) (number : Nat) (m : Machine Handler)
    (invocation : Invocation Handler) : Session :=
  let s := s.write (.run (invocation.map (·.script.tag)))
  let handler := invocation.handler
  let books := s.books
  match books.runsLeft with
  | 0 => (s.write .limit).proceed number m.setBreak (.reply .done) (some [])
  | runsLeft + 1 =>
      let k := books.runs.getD handler.number 0
      let books := { books with runs := books.runs.insert handler.number (k + 1), runsLeft }
      { s with books }.proceed number m (.reply .done) (some (handler.script.commandsAt k))

/-- One move of the loop that is dispatched: of the dispatcher, or of the handler
that runs. -/
def moveLoop (s : Session) (number : Nat) (m : Machine Handler)
    (left : Option (List Command)) : Session :=
  match m.control, left with
  | .running invocation _, none => s.beginRun number m invocation
  | .running _ _, some [] => s.proceed number m.resume (.reply .done) none
  | .running _ _, some (command :: commands) =>
      match s.books.perform m command with
      | .error crash => s.halt crash
      | .ok (outcome, books, m) =>
          ({ s with books }.proceed number m outcome (some commands)).write (.outcome outcome)
  | _, _ =>
      match m.step with
      | .error crash => s.halt crash
      | .ok m => s.proceed number m (.reply .done) none

/-- One step of a session. -/
def step (s : Session) : Session :=
  match s.activity with
  | .halted => s
  | .idle =>
      match s.orders with
      | [] => s
      | order :: orders => { s with orders }.execute order
  | .dispatching number control left =>
      match s.loop? number with
      | none => s
      | some loop => s.moveLoop number { host := s.host, loop, control } left

/-- Whether nothing is left to do. -/
def isOver (s : Session) : Bool :=
  match s.activity with
  | .halted => true
  | .idle => s.orders.isEmpty
  | .dispatching _ _ _ => false

end Session

end CallbackLoop
