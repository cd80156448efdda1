import ReliableEcho.Lib.Runs
import ReliableEcho.Lib.Cursor
import ReliableEcho.Lib.OnceQueue
import ReliableEcho.Lib.LossyFifo
import ReliableEcho.Lib.Paired
import ReliableEcho.Lib.SharedCell
import ReliableEcho.Lib.Tiling
import ReliableEcho.Lib.Timed
import ReliableEcho.Lib.Text
import ReliableEcho.SelectiveRepeat.Sender
import ReliableEcho.SelectiveRepeat.Invariant
import ReliableEcho.SelectiveRepeat.Ledger
import ReliableEcho.SelectiveRepeat.Accounting
import ReliableEcho.SelectiveRepeat.Timeline
import ReliableEcho.SelectiveRepeat.Crowding
import ReliableEcho.SelectiveRepeat.Deadline
import ReliableEcho.Header
import ReliableEcho.Simulator
import ReliableEcho.Client
import ReliableEcho.ClientLaws
import ReliableEcho.SetFill
import ReliableEcho.Machine
import ReliableEcho.Handlers
import ReliableEcho.Budget
import ReliableEcho.Counters
import ReliableEcho.Bounds
import ReliableEcho.Configure
import ReliableEcho.Refinement.State
import ReliableEcho.Refinement.Send
import ReliableEcho.Refinement.Receive
import ReliableEcho.Refinement.Timeout
import ReliableEcho.Refinement
import ReliableEcho.Delivery
import ReliableEcho.Resend
import ReliableEcho.Timers
import ReliableEcho.Clients
import ReliableEcho.Echoes
import ReliableEcho.Indices
import ReliableEcho.Window
import ReliableEcho.Draining
import ReliableEcho.Network
import ReliableEcho.Conservation
import ReliableEcho.AckCursor
import ReliableEcho.History
import ReliableEcho.Losses
import ReliableEcho.Recovery
import ReliableEcho.Clock
import ReliableEcho.Alarms
import ReliableEcho.Pacing
import ReliableEcho.Deadline
import ReliableEcho.Throughput
import ReliableEcho.Shared
import ReliableEcho.Progress
import ReliableEcho.Liveness
import ReliableEcho.Plot
import ReliableEcho.MyApp
