import CallbackLoop.Proofs.Arena.Storage
import CallbackLoop.Proofs.Fleet.Accounts
import CallbackLoop.Proofs.Heap.DegreeBound
import CallbackLoop.Proofs.Heap.LinkedRemovals
import CallbackLoop.Proofs.Loop.DeadlineLedger
import CallbackLoop.Proofs.Loop.Forgetting
import CallbackLoop.Proofs.Loop.Handling
import CallbackLoop.Proofs.Loop.Oneshots
import CallbackLoop.Proofs.Loop.ReadyPass
import CallbackLoop.Proofs.Loop.Tandem
import CallbackLoop.Proofs.Loop.TimerPass
import CallbackLoop.Proofs.Select.NativeRuns
import CallbackLoop.Proofs.Signal.Delivery
import CallbackLoop.Proofs.Signal.FanOut
import CallbackLoop.Proofs.Table.LinkedRuns
import CallbackLoop.Session.Run
