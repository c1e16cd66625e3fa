/-!
# Kinds of readiness backends
-/

namespace CallbackLoop

/-- The mechanism by which a loop learns of readiness. -/
inductive BackendKind where
  /-- The best one that the host offers. -/
  | auto
  | epoll
  | kqueue
  | select
deriving DecidableEq

namespace BackendKind

instance : Inhabited BackendKind := ⟨auto⟩

/-- The mechanism that is meant: the host's best one is epoll. -/
def resolve : BackendKind → BackendKind
  | auto => epoll
  | kind => kind

/-- Whether the host offers the mechanism; it has no kqueue. -/
def isAvailable (kind : BackendKind) : Bool :=
  kind.resolve != kqueue

/-- The name of the kind. -/
def text : BackendKind → String
  | auto => "Auto"
  | epoll => "Epoll"
  | kqueue => "Kqueue"
  | select => "Select"

end BackendKind

end CallbackLoop
