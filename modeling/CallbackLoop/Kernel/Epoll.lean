import CallbackLoop.Kernel.Basic

/-!
# Epoll instances
-/

namespace CallbackLoop

namespace Kernel

/-- Creates an epoll instance with an empty table and returns its number. -/
def epollCreate (k : Kernel) : Except Errno Nat × Kernel :=
  match k.strike { name := .epollCreate } with
  | (some cause, k) => k.fail cause
  | (none, k) =>
      (.ok k.epollsCreated,
        { k with
          epolls := k.epolls.insert k.epollsCreated ∅
          epollsCreated := k.epollsCreated + 1 })

/-- The table of an epoll instance. -/
def epollTable (k : Kernel) (number : Nat) : EpollTable :=
  k.epolls.getD number ∅

/-- Drops an epoll instance with its table. -/
def epollClose (k : Kernel) (number : Nat) : Kernel :=
  { k with epolls := k.epolls.erase number }

/-- The variant of a call that changes an epoll table. -/
def changeVariant : EpollChange → CallVariant
  | .add _ => .add
  | .modify _ => .modify
  | .delete => .delete

/-- Applies a change to a table. A descriptor can be added once only, and only
a watched one can be modified or deleted. Adding and modifying arm the entry. -/
def changeTable (table : EpollTable) (fd : Int) : EpollChange → Except Errno EpollTable
  | .add mask =>
      if table.contains fd then .error .alreadyExists else .ok (table.insert fd { mask })
  | .modify mask =>
      if table.contains fd then .ok (table.insert fd { mask }) else .error .notFound
  | .delete =>
      if table.contains fd then .ok (table.erase fd) else .error .notFound

/-- Changes what an epoll instance watches. -/
def epollControl (k : Kernel) (number : Nat) (fd : Int) (change : EpollChange) :
    Except Errno Unit × Kernel :=
  match k.obstacle .epollControl fd (some (changeVariant change)) with
  | (some cause, k) => (k.note (.epollControl fd change) cause).fail cause
  | (none, k) =>
      match changeTable (k.epollTable number) fd change with
      | .error cause => (k.note (.epollControl fd change) cause).fail cause
      | .ok table =>
          let k := k.note (.epollControl fd change)
          (.ok (), { k with epolls := k.epolls.insert number table })

/-- Reports at most `capacity` of the given conditions. A descriptor is passed
over if it is closed, not watched or disarmed, or if its conditions do not meet
the mask of its entry. A report disarms a oneshot entry. -/
def epollReport (closed : Std.TreeSet Int) :
    (capacity : Nat) → List (Int × Conditions) → EpollTable →
    List (Int × Conditions) × EpollTable
  | 0, _, table => ([], table)
  | _ + 1, [], table => ([], table)
  | capacity + 1, (fd, condition) :: ready, table =>
      match table[fd]? with
      | none => epollReport closed (capacity + 1) ready table
      | some entry =>
          let report := entry.mask.reported condition
          if closed.contains fd || entry.disarmed || report.isEmpty then
            epollReport closed (capacity + 1) ready table
          else
            let table :=
              if entry.mask.oneshot then table.insert fd { entry with disarmed := true }
              else table
            let (reports, table) := epollReport closed capacity ready table
            ((fd, report) :: reports, table)
termination_by structural _ ready _ => ready

end Kernel

end CallbackLoop
